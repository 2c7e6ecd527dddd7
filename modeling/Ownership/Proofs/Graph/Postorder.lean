import Mathlib.Logic.Relation
import Ownership.Proofs.Graph.Nesting

/-!
The depth-first search and the recorded back edges. Control enters a loop only by
its header, so the header lies on every path into the loop, and when the search
follows an edge to a new block, that edge is no back edge. The blocks that the
search is in the middle of therefore lie in the order of the program, and every
edge but the back edges leads to a block that is finished earlier.
-/
namespace Ownership

open Outcome
open scoped List

namespace Graph

variable {g : Graph} {m : Nat → Plot} {b c v : Nat} {p : List Nat}

/-- The blocks lie on a path from the entry to the block. -/
structure PathTo (g : Graph) (p : List Nat) (b : Nat) : Prop where
  first : p.head? = some g.entry
  steps : p.IsChain fun a c => c ∈ g.successors a
  last : p.getLast? = some b

/-- Every path from the entry to the second block goes through the first. -/
def Dominates (g : Graph) (v b : Nat) : Prop := ∀ p, g.PathTo p b → v ∈ p

namespace PathTo

theorem entry (g : Graph) : g.PathTo [g.entry] g.entry := ⟨rfl, .singleton _, rfl⟩

theorem snoc (h : g.PathTo p b) (hc : c ∈ g.successors b) : g.PathTo (p ++ [c]) c := by
  refine ⟨?_, ?_, by simp⟩
  · rw [List.head?_append, h.first, Option.some_or]
  · refine List.isChain_append.mpr ⟨h.steps, .singleton _, fun x hx y hy => ?_⟩
    rw [h.last] at hx
    obtain rfl := Option.some.inj hx
    obtain rfl := Option.some.inj hy
    exact hc

/-- A path is the entry alone, or goes on from a shorter path. -/
theorem cases_snoc (h : g.PathTo (p ++ [c]) b) :
    b = c ∧ (p = [] ∧ c = g.entry ∨ ∃ a, g.PathTo p a ∧ c ∈ g.successors a) := by
  obtain ⟨hfirst, hsteps, hlast⟩ := h
  rw [List.getLast?_concat] at hlast
  refine ⟨(Option.some.inj hlast).symm, ?_⟩
  cases hp : p.getLast? with
  | none =>
    have hnil : p = [] := List.getLast?_eq_none_iff.mp hp
    subst hnil
    exact .inl ⟨rfl, Option.some.inj hfirst⟩
  | some a =>
    obtain ⟨hfront, _, hedge⟩ := List.isChain_append.mp hsteps
    have hne : p ≠ [] := by
      rintro rfl
      cases hp
    rw [List.head?_append_of_ne_nil _ hne] at hfirst
    exact .inr ⟨a, ⟨hfirst, hfront, hp⟩, hedge a hp c rfl⟩

/-- What holds of the entry and along edges holds at the end of every path. -/
theorem induction {good : Nat → Prop} (hentry : good g.entry)
    (hstep : ∀ a c, good a → c ∈ g.successors a → good c) (h : g.PathTo p b) : good b := by
  induction p using List.reverseRecOn generalizing b with
  | nil => cases h.first
  | append_singleton p c ih =>
    obtain ⟨rfl, ⟨_, rfl⟩ | ⟨a, hfront, hedge⟩⟩ := h.cases_snoc
    · exact hentry
    · exact hstep a b (ih hfront) hedge

end PathTo

/-- The search lists the blocks that paths from the entry lead to. -/
theorem mem_reachable_iff : b ∈ g.reachable ↔ ∃ p, g.PathTo p b := by
  constructor
  · refine fun hb => reachable_induction (fun b => ∃ p, g.PathTo p b) ⟨_, .entry g⟩ ?_ hb
    rintro a c ⟨p, hp⟩ hc
    exact ⟨p ++ [c], hp.snoc hc⟩
  · rintro ⟨p, hp⟩
    exact hp.induction g.entry_mem_reachable fun a c ha hc => successors_reachable ha hc

/-- A path into a loop goes through its header. -/
theorem Charted.dominates (hg : g.Charted m) (hv : v ∈ (m b).loops) : g.Dominates v b := by
  intro p hp
  induction p using List.reverseRecOn generalizing b with
  | nil => cases hp.first
  | append_singleton p c ih =>
    obtain ⟨rfl, ⟨_, rfl⟩ | ⟨a, hfront, hedge⟩⟩ := hp.cases_snoc
    · rw [hg.outside] at hv
      cases hv
    · rcases (hg.leads a b hedge).nested with hsuffix | hentered
      · exact List.mem_append_left _ (ih (hsuffix.subset hv) hfront)
      · rw [hentered] at hv
        rcases List.mem_cons.mp hv with rfl | hv
        · exact List.mem_append_right _ List.mem_cons_self
        · exact List.mem_append_left _ (ih hv hfront)

/-- A back edge leads to a block that every path to its source has been through. -/
theorem Charted.back_dominates (hg : g.Charted m) (h : (b, c) ∈ g.backEdges) : g.Dominates c b :=
  hg.dominates (hg.back _ h).2

/-- What the search adds while the blocks of `stack` are open: new blocks, each of them once. A block
that dominates a new one is listed in front of it or is open, and the edges that are no back
edges lead to blocks further behind. -/
structure Searched (g : Graph) (stack : List Nat) (before : List Nat × List Nat) (new : List Nat)
    (after : List Nat × List Nat) : Prop where
  order : after.2 = new ++ before.2
  distinct : new.Nodup
  fresh : ∀ x ∈ new, x ∉ before.1
  seen : ∀ x, x ∈ after.1 ↔ x ∈ before.1 ∨ x ∈ new
  dominated : ∀ x ∈ new, ∀ v, g.Dominates v x → v ∈ stack ∨ v = x ∨ [v, x] <+ new
  ahead : ∀ x ∈ new, ∀ c ∈ g.successors x, (x, c) ∉ g.backEdges → [x, c] <+ after.2

/-- The blocks of `stack` are the ones that have been seen and are not finished. -/
structure Midway (stack : List Nat) (acc : List Nat × List Nat) : Prop where
  seen : stack ⊆ acc.1
  finished : ∀ x ∈ acc.1, x ∈ stack ∨ x ∈ acc.2

namespace Searched

variable {stack new more : List Nat} {before mid after : List Nat × List Nat}

theorem refl (stack : List Nat) (acc : List Nat × List Nat) : g.Searched stack acc [] acc :=
  ⟨rfl, List.nodup_nil, by simp, by simp, by simp, by simp⟩

theorem trans (h : g.Searched stack before new mid) (k : g.Searched stack mid more after) :
    g.Searched stack before (more ++ new) after := by
  have hkept : mid.2 <+ after.2 := k.order ▸ List.sublist_append_right more mid.2
  refine ⟨?_, ?_, fun x hx => ?_, fun x => ?_, fun x hx v hv => ?_, fun x hx c hc hforward => ?_⟩
  · rw [k.order, h.order, List.append_assoc]
  · refine List.nodup_append.mpr ⟨k.distinct, h.distinct, ?_⟩
    rintro x hx y hy rfl
    exact k.fresh x hx ((h.seen x).mpr (.inr hy))
  · rcases List.mem_append.mp hx with hx | hx
    · exact fun hold => k.fresh x hx ((h.seen x).mpr (.inl hold))
    · exact h.fresh x hx
  · rw [k.seen, h.seen, List.mem_append]
    tauto
  · rcases List.mem_append.mp hx with hx | hx
    · exact (k.dominated x hx v hv).imp_right fun hlisted =>
        hlisted.imp_right fun hfront => hfront.trans (List.sublist_append_left more new)
    · exact (h.dominated x hx v hv).imp_right fun hlisted =>
        hlisted.imp_right fun hfront => hfront.trans (List.sublist_append_right more new)
  · rcases List.mem_append.mp hx with hx | hx
    · exact k.ahead x hx c hc hforward
    · exact (h.ahead x hx c hc hforward).trans hkept

theorem midway (h : g.Searched stack before new after) (hm : Midway stack before) : Midway stack after := by
  refine ⟨fun x hx => (h.seen x).mpr (.inl (hm.seen hx)), fun x hx => ?_⟩
  rw [h.order, List.mem_append]
  rcases (h.seen x).mp hx with hold | hnew
  · exact (hm.finished x hold).imp_right .inr
  · exact .inr (.inl hnew)

end Searched

variable {stack : List Nat}

/-- Searching from successors one after the other. -/
theorem searched_foldl {visit : List Nat × List Nat → Nat → List Nat × List Nat} (bound : Nat) (cs : List Nat)
    (hv : ∀ acc, ∀ c ∈ cs, g.unseen acc.1 ≤ bound → Midway stack acc →
      (∃ new, g.Searched stack acc new (visit acc c)) ∧ c ∈ (visit acc c).1)
    (acc : List Nat × List Nat) (hb : g.unseen acc.1 ≤ bound) (hm : Midway stack acc) :
    (∃ new, g.Searched stack acc new (cs.foldl visit acc)) ∧ ∀ c ∈ cs, c ∈ (cs.foldl visit acc).1 := by
  induction cs generalizing acc with
  | nil => exact ⟨⟨[], .refl stack acc⟩, by simp⟩
  | cons c cs ih =>
    obtain ⟨⟨new, hc⟩, hmem⟩ := hv acc c List.mem_cons_self hb hm
    have hsub : acc.1 ⊆ (visit acc c).1 := fun x hx => (hc.seen x).mpr (.inl hx)
    obtain ⟨⟨more, hrest⟩, hall⟩ := ih (fun acc x hx => hv acc x (List.mem_cons_of_mem c hx)) (visit acc c)
      (Nat.le_trans (unseen_mono hsub) hb) (hc.midway hm)
    refine ⟨⟨more ++ new, hc.trans hrest⟩, fun x hx => ?_⟩
    rcases List.mem_cons.mp hx with rfl | hx
    · exact (hrest.seen x).mpr (.inl hmem)
    · exact hall x hx

/-- A block is finished when the search has been through its successors. Each of them is seen by
then, and finished unless it lies behind. -/
theorem Searched.finish {seen order new : List Nat} {after : List Nat × List Nat} (hg : g.Charted m)
    (h : g.Searched (stack ++ [b]) (b :: seen, order) new after) (hm : Midway (stack ++ [b]) (b :: seen, order))
    (hb : b ∉ seen) (hpath : g.PathTo (stack ++ [b]) b) (hrank : ∀ s ∈ stack, (m s).position < (m b).position)
    (hall : ∀ c ∈ g.successors b, c ∈ after.1) :
    g.Searched stack (seen, order) (b :: new) (after.1, b :: after.2) := by
  have hunseen : ∀ x ∈ new, x ≠ b ∧ x ∉ seen := fun x hx => by simpa using h.fresh x hx
  refine ⟨?_, ?_, fun x hx => ?_, fun x => ?_, fun x hx v hv => ?_, fun x hx c hc hforward => ?_⟩
  · rw [h.order]
    rfl
  · exact List.nodup_cons.mpr ⟨fun hin => (hunseen b hin).1 rfl, h.distinct⟩
  · rcases List.mem_cons.mp hx with rfl | hx
    · exact hb
    · exact (hunseen x hx).2
  · rw [h.seen x, List.mem_cons, List.mem_cons]
    tauto
  · rcases List.mem_cons.mp hx with rfl | hx
    · rcases List.mem_append.mp (hv _ hpath) with hopen | hself
      · exact .inl hopen
      · exact .inr (.inl (List.mem_singleton.mp hself))
    · rcases h.dominated x hx v hv with hopen | hself | hfront
      · rcases List.mem_append.mp hopen with hopen | hlast
        · exact .inl hopen
        · rw [List.mem_singleton.mp hlast]
          exact .inr (.inr ((List.singleton_sublist.mpr hx).cons_cons b))
      · exact .inr (.inl hself)
      · exact .inr (.inr (hfront.cons b))
  · rcases List.mem_cons.mp hx with rfl | hx
    · have hlt := (hg.leads x c hc).ahead.resolve_left hforward
      refine List.Sublist.cons_cons x (List.singleton_sublist.mpr ?_)
      rcases (h.midway hm).finished c (hall c hc) with hopen | hdone
      · rcases List.mem_append.mp hopen with hopen | hlast
        · exact absurd (hlt.trans (hrank c hopen)) (lt_irrefl _)
        · rw [List.mem_singleton.mp hlast] at hlt
          exact absurd hlt (lt_irrefl _)
      · exact hdone
    · exact (h.ahead x hx c hc hforward).cons b

/-- With more fuel than there are blocks left to see, the search finishes what it finds. -/
theorem visit_searched (hg : g.Charted m) (fuel : Nat) (stack : List Nat) (acc : List Nat × List Nat) (b : Nat)
    (hfuel : g.unseen acc.1 < fuel) (hm : Midway stack acc) (hpath : g.PathTo (stack ++ [b]) b)
    (hrank : b ∉ acc.1 → ∀ s ∈ stack, (m s).position < (m b).position) :
    (∃ new, g.Searched stack acc new (g.visit fuel acc b)) ∧ b ∈ (g.visit fuel acc b).1 := by
  induction fuel generalizing stack acc b with
  | zero => omega
  | succ fuel ih =>
    obtain ⟨seen, order⟩ := acc
    by_cases hs : b ∈ seen
    · rw [visit, if_pos (by simpa using hs)]
      exact ⟨⟨[], .refl _ _⟩, hs⟩
    rw [visit, if_neg (by simpa using hs)]
    have hbehind := hrank hs
    have hmid : Midway (stack ++ [b]) (b :: seen, order) := by
      refine ⟨fun x hx => ?_, fun x hx => ?_⟩
      · rcases List.mem_append.mp hx with hx | hx
        · exact List.mem_cons_of_mem b (hm.seen hx)
        · exact List.mem_singleton.mp hx ▸ List.mem_cons_self
      · rcases List.mem_cons.mp hx with rfl | hx
        · exact .inl (List.mem_append_right _ List.mem_cons_self)
        · exact (hm.finished x hx).imp_left fun hin => List.mem_append_left _ hin
    have hfold : (∃ new, g.Searched (stack ++ [b]) (b :: seen, order) new
          ((g.successors b).foldl (g.visit fuel) (b :: seen, order))) ∧
        ∀ c ∈ g.successors b, c ∈ ((g.successors b).foldl (g.visit fuel) (b :: seen, order)).1 := by
      by_cases hb : b < g.blocks.length
      · have hlt := unseen_cons_lt hb hs
        refine searched_foldl (g.unseen (b :: seen)) _ (fun acc c hc hle hacc => ?_) _ (Nat.le_refl _) hmid
        refine ih _ acc c (by simp only at hfuel; omega) hacc (hpath.snoc hc) fun hunseen => ?_
        have hforward : (b, c) ∉ g.backEdges := fun hback =>
          hunseen (hacc.seen (hg.back_dominates hback _ hpath))
        have hahead := (hg.leads b c hc).ahead.resolve_left hforward
        intro s hin
        rcases List.mem_append.mp hin with hin | hin
        · exact (hbehind s hin).trans hahead
        · exact List.mem_singleton.mp hin ▸ hahead
      · rw [successors_of_stray (by omega)]
        exact ⟨⟨[], .refl _ _⟩, by simp⟩
    obtain ⟨⟨new, hnew⟩, hall⟩ := hfold
    exact ⟨⟨b :: new, hnew.finish hg hmid hs hpath hbehind hall⟩, (hnew.seen b).mpr (.inl List.mem_cons_self)⟩

theorem Charted.searched (hg : g.Charted m) :
    ∃ seen, g.Searched [] ([], []) g.reachable (seen, g.reachable) := by
  have hfuel : g.unseen [] < g.blocks.length + 1 := by
    have hle : g.unseen [] ≤ (List.range g.blocks.length).length := List.length_filter_le _ _
    rw [List.length_range] at hle
    exact Nat.lt_succ_of_le hle
  obtain ⟨⟨new, hnew⟩, _⟩ := visit_searched hg (g.blocks.length + 1) [] ([], []) g.entry hfuel ⟨by simp, by simp⟩
    (.entry g) (by simp)
  have hreachable : g.reachable = new := hnew.order.trans (List.append_nil new)
  refine ⟨(g.visit (g.blocks.length + 1) ([], []) g.entry).1, ?_⟩
  rw [← hreachable] at hnew
  exact hnew

/-- Of two blocks listed one after the other, the first has the lower index. -/
theorem idxOf_lt_of_sublist {a b : Nat} {l : List Nat} (h : [a, b] <+ l) (hl : l.Nodup) : l.idxOf a < l.idxOf b := by
  induction l with
  | nil => cases h
  | cons x l ih =>
    obtain ⟨hx, hl⟩ := List.nodup_cons.mp hl
    cases h with
    | cons _ h =>
      have ha : x ≠ a := fun hxa => hx (hxa ▸ h.subset List.mem_cons_self)
      have hb : x ≠ b := fun hxb => hx (hxb ▸ h.subset (by simp))
      rw [List.idxOf_cons_ne _ ha, List.idxOf_cons_ne _ hb]
      exact Nat.succ_lt_succ (ih h hl)
    | cons_cons _ h =>
      have hb : a ≠ b := fun hab => hx (hab ▸ h.subset List.mem_cons_self)
      rw [List.idxOf_cons_self, List.idxOf_cons_ne _ hb]
      exact Nat.succ_pos _

/-- An edge leads to a block that is listed no later exactly if it is a back edge. -/
theorem Charted.idxOf_le_iff (hg : g.Charted m) (hb : b ∈ g.reachable) (hc : c ∈ g.successors b) :
    g.reachable.idxOf c ≤ g.reachable.idxOf b ↔ (b, c) ∈ g.backEdges := by
  obtain ⟨seen, hsearched⟩ := hg.searched
  constructor
  · intro hle
    by_contra hforward
    exact Nat.not_lt.mpr hle (idxOf_lt_of_sublist (hsearched.ahead b hb c hc hforward) hsearched.distinct)
  · intro hback
    rcases hsearched.dominated b hb c (hg.back_dominates hback) with hnone | rfl | hfront
    · cases hnone
    · exact Nat.le_refl _
    · exact Nat.le_of_lt (idxOf_lt_of_sublist hfront hsearched.distinct)

/-- Without its back edges, a graph has no cycles. -/
theorem Charted.acyclic (hg : g.Charted m) (b : Nat) :
    ¬Relation.TransGen (fun a c => c ∈ g.successors a ∧ (a, c) ∉ g.backEdges) b b := by
  have hahead : ∀ {a c}, Relation.TransGen (fun a c => c ∈ g.successors a ∧ (a, c) ∉ g.backEdges) a c →
      (m a).position < (m c).position := by
    intro a c h
    induction h with
    | single h => exact (hg.leads _ _ h.1).ahead.resolve_left h.2
    | tail _ h ih => exact ih.trans ((hg.leads _ _ h.1).ahead.resolve_left h.2)
  exact fun hcycle => lt_irrefl _ (hahead hcycle)

end Graph

/-- The search lists the blocks that can be reached, each once, and the others are marked
unreachable. Without the back edges the graph has no cycle; an edge from a listed block leads to one
that is listed no later exactly if it is a back edge, and then to the header of a loop that every path to
the block goes through. -/
theorem backEdges_retreat {f : Function} {g : Graph} (h : f.graph = .ok g) :
    g.reachable.Nodup ∧ (∀ b, b ∈ g.reachable ↔ ∃ p, g.PathTo p b) ∧
      (∀ b, b ∈ g.unreachable ↔ b < g.blocks.length ∧ b ∉ g.reachable) ∧
      (∀ b, ¬Relation.TransGen (fun a c => c ∈ g.successors a ∧ (a, c) ∉ g.backEdges) b b) ∧
      ∀ u ∈ g.reachable, ∀ v ∈ g.successors u,
        (g.reachable.idxOf v ≤ g.reachable.idxOf u ↔ (u, v) ∈ g.backEdges) ∧
        ((u, v) ∈ g.backEdges → (g.block v).loopHeader = true ∧ g.Dominates v u) := by
  obtain ⟨m, hg⟩ := Function.graph_charted h
  obtain ⟨seen, hsearched⟩ := hg.searched
  refine ⟨hsearched.distinct, fun b => Graph.mem_reachable_iff, Function.mem_unreachable_of_graph h, hg.acyclic,
    fun u hu v hv => ⟨hg.idxOf_le_iff hu hv, fun hback => ⟨?_, hg.back_dominates hback⟩⟩⟩
  have hinside : u < g.blocks.length := Graph.reachable_induction (· < g.blocks.length) (Function.graph_entry_lt h)
    (fun a c _ hc => hg.inside a c hc) hu
  exact hg.headed u hinside v (hg.back _ hback).2

/-- A loop in a loop, with jumps back to both headers. -/
def retry : Function where
  name := "retry"
  params := [⟨"x", 1, 1, {}⟩]
  ret := none
  body := .mk [.loop (.mk [
    .loop (.mk [.branch (.var "x" 1 {}) (.mk [.continueLoop {}] {}) (some (.mk [.breakLoop {}] {})) {}] {}) {},
    .branch (.var "x" 1 {}) (.mk [.continueLoop {}] {}) none {}, .ret none {}] {}) {}] {}
  bindings := .ofList [(1, ⟨1, "x", 1, .param, {}⟩)]

def retryGraph : Graph := retry.graph.toOption.getD default

/-- The jumps back are listed after the headers of their loops; the ones in dead code are recorded
too, though no path leads there. -/
theorem backEdges_retreat_retry : retry.graph = .ok retryGraph ∧
    (retryGraph.reachable, retryGraph.backEdges) =
      ([0, 2, 3, 5, 6, 9, 7, 14, 15, 1, 13, 8], [(8, 5), (10, 5), (13, 2), (17, 2)]) ∧
    retryGraph.Dominates 5 8 ∧ retryGraph.Dominates 2 13 ∧ (∀ p, ¬retryGraph.PathTo p 10) ∧
    10 ∈ retryGraph.unreachable := by
  have hg : retry.graph = .ok retryGraph := eq_ok_getD default (by decide +kernel)
  have hlists : (retryGraph.reachable, retryGraph.backEdges, retryGraph.blocks.length, retryGraph.successors 8,
      retryGraph.successors 13) =
      ([0, 2, 3, 5, 6, 9, 7, 14, 15, 1, 13, 8], [(8, 5), (10, 5), (13, 2), (17, 2)], 18, [5], [2]) := by
    decide +kernel
  simp only [Prod.mk.injEq] at hlists
  obtain ⟨hreachable, hback, hlength, hinner, houter⟩ := hlists
  obtain ⟨_, hpaths, hrest, _, hedges⟩ := backEdges_retreat hg
  refine ⟨hg, by rw [hreachable, hback], ?_, ?_, fun p hp => ?_, ?_⟩
  · exact ((hedges 8 (by simp [hreachable]) 5 (by simp [hinner])).2 (by simp [hback])).2
  · exact ((hedges 13 (by simp [hreachable]) 2 (by simp [houter])).2 (by simp [hback])).2
  · have hlisted := (hpaths 10).mpr ⟨p, hp⟩
    simp [hreachable] at hlisted
  · exact (hrest 10).mpr ⟨by simp [hlength], by simp [hreachable]⟩

end Ownership
