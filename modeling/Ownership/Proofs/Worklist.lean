import Ownership.OrderedMap

/-!
Forward searches over blocks. A search knows a state for some blocks and has
blocks left to visit; a visit takes the state of a block to the states of its
successors, and a successor whose state changes is left to visit again. Once
nothing is left, the state of every successor accounts for what its
predecessors pass on. This does not need a visit to be monotone, since a block
that is not left to visit was last visited with the state it still has.
-/
namespace Ownership

/-- Adding what is not there yet, one after the other. -/
theorem mem_foldl_addNew {α : Type} [BEq α] [LawfulBEq α] {xs more : List α} {x : α} :
    x ∈ more.foldl (fun xs y => if xs.contains y then xs else xs ++ [y]) xs ↔ x ∈ xs ∨ x ∈ more := by
  induction more generalizing xs with
  | nil => simp
  | cons y more ih =>
    rw [List.foldl_cons, ih, List.mem_cons]
    split
    · rename_i h
      have hy : y ∈ xs := List.contains_iff_mem.mp h
      constructor
      · exact fun h => h.imp_right .inr
      · rintro (h | rfl | h)
        · exact .inl h
        · exact .inl hy
        · exact .inr h
    · simp [or_assoc]

/-- A search problem: where edges lead, what a visit passes on, when a state is
another one grown, and when the state of a block accounts for what was passed to it. -/
structure Worklist (σ : Type) where
  edges : Nat → List Nat
  transfer : Nat → σ → σ
  grown : σ → σ → Prop
  accepts : Nat → σ → σ → Prop
  grown_refl : ∀ x, grown x x
  grown_trans : ∀ {x y z}, grown x y → grown y z → grown x z
  accepts_grown : ∀ {c out x y}, accepts c out x → grown x y → accepts c out y

/-- The states known so far, and the blocks left to visit. -/
structure Frontier (σ : Type) where
  known : Nat → Option σ
  pending : List Nat

namespace Worklist

variable {σ : Type} {w : Worklist σ}

/-- What was passed to a block is accounted for there. -/
def Received (w : Worklist σ) (s : Frontier σ) (out : σ) (c : Nat) : Prop :=
  ∃ x, s.known c = some x ∧ w.accepts c out x

/-- Passing a state to blocks one after the other takes one frontier to another. -/
structure Advances (w : Worklist σ) (out : σ) (cs : List Nat) (s t : Frontier σ) : Prop where
  grows : ∀ c x, s.known c = some x → ∃ y, t.known c = some y ∧ w.grown x y
  changed : ∀ c y, t.known c = some y → s.known c = some y ∨ c ∈ t.pending
  kept : s.pending ⊆ t.pending
  added : ∀ c ∈ t.pending, c ∈ s.pending ∨ c ∈ cs
  received : ∀ c ∈ cs, w.Received t out c

namespace Advances

variable {out : σ} {s t u : Frontier σ}

theorem nil (s : Frontier σ) : w.Advances out [] s s :=
  ⟨fun _ x h => ⟨x, h, w.grown_refl x⟩, fun _ _ h => .inl h, fun _ h => h, fun _ h => .inl h, by simp⟩

theorem unchanged {c : Nat} (h : w.Received s out c) : w.Advances out [c] s s := by
  refine ⟨fun _ x h => ⟨x, h, w.grown_refl x⟩, fun _ _ h => .inl h, fun _ h => h, fun _ h => .inl h, ?_⟩
  intro d hd
  rw [List.mem_singleton.mp hd]
  exact h

/-- A successor that gets a new state is left to visit. -/
theorem insert {states : OrderedMap Nat σ} {pending : List Nat} {c : Nat} {x : σ}
    (hgrown : ∀ y, states.get? c = some y → w.grown y x) (haccepts : w.accepts c out x) :
    w.Advances out [c] ⟨states.get?, pending⟩
      ⟨(states.insert c x).get?, if pending.contains c then pending else pending ++ [c]⟩ := by
  have hpending : ∀ d, d ∈ (if pending.contains c then pending else pending ++ [c]) ↔
      d ∈ pending ∨ d = c := by
    intro d
    by_cases hc : c ∈ pending
    · simp only [List.contains_eq_mem, hc, decide_true, if_true]
      exact ⟨.inl, fun h => h.elim id fun he => he ▸ hc⟩
    · simp [hc]
  refine ⟨?_, ?_, fun d hd => (hpending d).mpr (.inl hd), ?_, ?_⟩
  · intro d y hy
    by_cases hd : d = c
    · subst hd
      exact ⟨x, OrderedMap.get?_insert_self states d x, hgrown y hy⟩
    · exact ⟨y, (OrderedMap.get?_insert_other states x hd).trans hy, w.grown_refl y⟩
  · intro d y hy
    by_cases hd : d = c
    · exact .inr ((hpending d).mpr (.inr hd))
    · exact .inl ((OrderedMap.get?_insert_other states x hd).symm.trans hy)
  · intro d hd
    exact ((hpending d).mp hd).imp_right fun h => List.mem_singleton.mpr h
  · intro d hd
    rw [List.mem_singleton.mp hd]
    exact ⟨x, OrderedMap.get?_insert_self states c x, haccepts⟩

theorem receives {cs : List Nat} (h : w.Advances out cs s t) {more : σ} {c : Nat} (hr : w.Received s more c) :
    w.Received t more c := by
  obtain ⟨x, hx, haccepts⟩ := hr
  obtain ⟨y, hy, hgrown⟩ := h.grows c x hx
  exact ⟨y, hy, w.accepts_grown haccepts hgrown⟩

theorem cons {c : Nat} {cs : List Nat} (h : w.Advances out [c] s t) (k : w.Advances out cs t u) :
    w.Advances out (c :: cs) s u := by
  refine ⟨?_, ?_, fun _ hx => k.kept (h.kept hx), ?_, ?_⟩
  · intro d x hx
    obtain ⟨y, hy, hxy⟩ := h.grows d x hx
    obtain ⟨z, hz, hyz⟩ := k.grows d y hy
    exact ⟨z, hz, w.grown_trans hxy hyz⟩
  · intro d z hz
    rcases k.changed d z hz with ht | hp
    · exact (h.changed d z ht).imp_right fun hp => k.kept hp
    · exact .inr hp
  · intro d hd
    rcases k.added d hd with ht | hc
    · exact (h.added d ht).imp_right fun hc => by simp_all
    · exact .inr (List.mem_cons_of_mem c hc)
  · intro d hd
    rcases List.mem_cons.mp hd with rfl | hd
    · exact k.receives (h.received d List.mem_cons_self)
    · exact k.received d hd

/-- A pass that advances for each block, and keeps what it relies on, advances for all of them. -/
theorem foldl {S : Type} (view : S → Frontier σ) (inv : S → Prop) {pass : S → Nat → S}
    (hpass : ∀ s c, inv s → w.Advances out [c] (view s) (view (pass s c)) ∧ inv (pass s c))
    (cs : List Nat) (s : S) (hs : inv s) :
    w.Advances out cs (view s) (view (cs.foldl pass s)) ∧ inv (cs.foldl pass s) := by
  induction cs generalizing s with
  | nil => exact ⟨.nil _, hs⟩
  | cons c cs ih =>
    obtain ⟨hstep, hinv⟩ := hpass s c hs
    obtain ⟨hrest, hend⟩ := ih (pass s c) hinv
    exact ⟨hstep.cons hrest, hend⟩

end Advances

/-- What a search keeps: it stays among the listed blocks, the entry's state accounts for the
start, and blocks that are not left to visit have passed on their states. -/
structure Settling (w : Worklist σ) (listed : List Nat) (entry : Nat) (start : σ) (s : Frontier σ) :
    Prop where
  start : ∃ x, s.known entry = some x ∧ w.grown start x
  pending : ∀ b ∈ s.pending, b ∈ listed
  known : ∀ b x, s.known b = some x → b ∈ listed
  passed : ∀ b x, s.known b = some x → b ∉ s.pending → ∀ c ∈ w.edges b, w.Received s (w.transfer b x) c

namespace Settling

variable {listed : List Nat} {entry : Nat} {start : σ} {s t : Frontier σ}

theorem initial {known : Nat → Option σ} (hentry : known entry = some start)
    (hother : ∀ b, b ≠ entry → known b = none) (hlisted : entry ∈ listed) :
    w.Settling listed entry start ⟨known, [entry]⟩ := by
  refine ⟨⟨start, hentry, w.grown_refl start⟩, by simp [hlisted], ?_, ?_⟩
  · intro b x hx
    by_cases hb : b = entry
    · exact hb ▸ hlisted
    · exact absurd hx (by simp [hother b hb])
  · intro b x hx hb
    have hne : b ≠ entry := by simpa using hb
    exact absurd hx (by simp [hother b hne])

/-- Visiting a block with the state it has keeps a search settling. -/
theorem visit (h : w.Settling listed entry start s) {b : Nat} (hb : b ∈ listed)
    (hclosed : ∀ c ∈ w.edges b, c ∈ listed) {rest : List Nat}
    (hrest : ∀ c ∈ s.pending, c = b ∨ c ∈ rest) (hsub : rest ⊆ s.pending) {out : σ}
    (hout : ∀ x, s.known b = some x → out = w.transfer b x)
    (ht : w.Advances out (w.edges b) ⟨s.known, rest⟩ t) : w.Settling listed entry start t := by
  have hpending : ∀ c ∈ t.pending, c ∈ listed := by
    intro c hc
    rcases ht.added c hc with hr | he
    · exact h.pending c (hsub hr)
    · exact hclosed c he
  refine ⟨?_, hpending, ?_, ?_⟩
  · obtain ⟨x, hx, hgrown⟩ := h.start
    obtain ⟨y, hy, hxy⟩ := ht.grows entry x hx
    exact ⟨y, hy, w.grown_trans hgrown hxy⟩
  · intro c x hx
    rcases ht.changed c x hx with hs | hp
    · exact h.known c x hs
    · exact hpending c hp
  · intro c x hx hc d hd
    have hs := (ht.changed c x hx).resolve_right hc
    by_cases hcb : c = b
    · subst hcb
      exact hout x hs ▸ ht.received d hd
    · have hnot : c ∉ s.pending := fun hp => hc (ht.kept ((hrest c hp).resolve_left hcb))
      exact ht.receives (h.passed c x hs hnot d hd)

end Settling

end Worklist

end Ownership
