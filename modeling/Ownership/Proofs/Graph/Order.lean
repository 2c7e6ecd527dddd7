import Mathlib.Data.Finset.Card
import Mathlib.Data.Prod.Lex
import Ownership.Proofs.Graph.Nesting

/-!
The order of blocks. In the chart of a graph edges lead ahead. Two kinds of edges do
not: those back to the header of a loop, and the one from a header into the body of
its loop, which nothing else leads to. So every cycle of a graph passes through a block that
only one block leads to, and the other edges can be numbered downwards.
-/
namespace Ownership

namespace Graph

variable {g : Graph} {m : Nat → Plot} {b c : Nat}

/-- Blocks by their position, the headers of loops after all others. -/
def key (g : Graph) (m : Nat → Plot) (b : Nat) : ℕ ×ₗ List ℕ ×ₗ ℕ :=
  toLex (if (g.block b).loopHeader then 1 else 0, toLex ((m b).position, b))

theorem key_injective (g : Graph) (m : Nat → Plot) : Function.Injective (g.key m) := by
  intro a b h
  exact congrArg (fun k => (ofLex (ofLex k).2).2) h

/-- The header of a loop leads only to the body, which is kept for it. -/
theorem Charted.plain_of_sole (hg : g.Charted m) (hc : c ∈ g.successors b) (hsole : (m c).sole = none) :
    (g.block b).loopHeader = false := by
  rw [← Bool.not_eq_true]
  intro hheader
  obtain ⟨_, hbody, hkept⟩ := hg.heads b hheader
  obtain rfl : c = b + 1 := by simpa [hbody] using hc
  rw [hsole] at hkept
  cases hkept

theorem Charted.key_lt (hg : g.Charted m) (hc : c ∈ g.successors b) (hsole : (m c).sole = none) :
    g.key m b < g.key m c := by
  rw [key, key, Prod.Lex.toLex_lt_toLex, hg.plain_of_sole hc hsole]
  cases hheader : (g.block c).loopHeader with
  | true => exact .inl (by simp)
  | false =>
    have hlt : b < g.blocks.length := by
      by_contra hge
      rw [successors_of_stray (Nat.not_lt.mp hge)] at hc
      cases hc
    have hahead := (hg.leads b c hc).ahead.resolve_left fun hback => by
      have hloop := hg.headed b hlt c (hg.back _ hback).2
      rw [hheader] at hloop
      cases hloop
    exact .inr ⟨rfl, Prod.Lex.toLex_lt_toLex.mpr (.inl hahead)⟩

/-- Blocks are numbered so that every edge leads to a lower number, but for edges into a block that
nothing else leads to. -/
structure Ranked (g : Graph) (rank : Nat → Nat) : Prop where
  inside : ∀ b, ∀ c ∈ g.successors b, c < g.blocks.length
  distinct : ∀ b, (g.successors b).Nodup
  bounded : ∀ b < g.blocks.length, rank b < g.blocks.length
  injective : ∀ b < g.blocks.length, ∀ c < g.blocks.length, rank b = rank c → b = c
  ahead : ∀ b, ∀ c ∈ g.successors b, rank c < rank b ∨ ∀ a, c ∈ g.successors a → a = b

/-- The blocks that can be reached are blocks of the graph. -/
theorem Ranked.reachable_lt {rank : Nat → Nat} (h : g.Ranked rank) (hentry : g.entry < g.blocks.length)
    (hb : b ∈ g.reachable) : b < g.blocks.length :=
  reachable_induction (· < g.blocks.length) hentry (fun a c _ hc => h.inside a c hc) hb

/-- The number of blocks that come after a block. -/
def rankBy (g : Graph) (m : Nat → Plot) (b : Nat) : Nat :=
  ((Finset.range g.blocks.length).filter fun x => g.key m b < g.key m x).card

theorem rankBy_lt (hc : c < g.blocks.length) (h : g.key m b < g.key m c) : g.rankBy m c < g.rankBy m b := by
  refine Finset.card_lt_card (Finset.ssubset_iff_of_subset ?_ |>.mpr ⟨c, ?_, ?_⟩)
  · exact Finset.monotone_filter_right _ fun x _ hx => h.trans hx
  · exact Finset.mem_filter.mpr ⟨Finset.mem_range.mpr hc, h⟩
  · simp

theorem rankBy_bounded (m : Nat → Plot) (hb : b < g.blocks.length) : g.rankBy m b < g.blocks.length := by
  have hlt : ((Finset.range g.blocks.length).filter fun x => g.key m b < g.key m x) ⊂ Finset.range g.blocks.length :=
    Finset.filter_ssubset.mpr ⟨b, Finset.mem_range.mpr hb, lt_irrefl _⟩
  simpa [rankBy] using Finset.card_lt_card hlt

theorem rankBy_injective (hb : b < g.blocks.length) (hc : c < g.blocks.length) (h : g.rankBy m b = g.rankBy m c) :
    b = c := by
  rcases lt_trichotomy (g.key m b) (g.key m c) with hlt | heq | hgt
  · exact absurd h (rankBy_lt hc hlt).ne'
  · exact g.key_injective m heq
  · exact absurd h (rankBy_lt hb hgt).ne

theorem Charted.ranked (hg : g.Charted m) : g.Ranked (g.rankBy m) := by
  refine ⟨hg.inside, hg.distinct, fun b hb => rankBy_bounded m hb, fun b hb c hc => rankBy_injective hb hc,
    fun b c hc => ?_⟩
  cases hsole : (m c).sole with
  | none => exact .inl (rankBy_lt (hg.inside b c hc) (hg.key_lt hc hsole))
  | some kept =>
    refine .inr fun a ha => ?_
    rw [(hg.leads a c ha).sole kept hsole, (hg.leads b c hc).sole kept hsole]

end Graph

/-- The blocks of every graph that lowering makes can be numbered. -/
theorem Function.graph_ranked {f : Function} {g : Graph} (h : f.graph = .ok g) : ∃ rank, g.Ranked rank := by
  obtain ⟨m, hg⟩ := graph_charted h
  exact ⟨_, hg.ranked⟩

end Ownership
