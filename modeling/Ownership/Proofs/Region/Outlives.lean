import Mathlib.Data.List.Perm.Subperm
import Mathlib.Data.List.ProdSigma
import Mathlib.Logic.Function.Iterate
import Mathlib.Logic.Relation
import Ownership.Proofs.Worklist
import Ownership.Region.Outlives

/-!
The outlives relation that checking uses is the transitive closure of the pairs
that hold at once. A round adds only what two pairs in a row give, and one that
adds nothing leaves a transitive relation. Every other round makes the relation
longer, and it stays one between the names that were there at first, so the
rounds come to an end by themselves.
-/
namespace Ownership.Outlives

variable {r s pairs : Outlives} {a b c : String} {p : String × String}

theorem mem_union {more : Outlives} : p ∈ r.union more ↔ p ∈ r ∨ p ∈ more :=
  mem_foldl_addNew

theorem mem_base {params : List String} {declared : Outlives} : (a, b) ∈ base params declared ↔
    a = b ∧ (a = staticRegion ∨ a ∈ params) ∨ a = staticRegion ∧ b ∈ params ∨ (a, b) ∈ declared := by
  simp only [base, mem_union, List.mem_append, List.mem_map, List.mem_cons, Prod.mk.injEq, List.not_mem_nil,
    false_or]
  constructor
  · rintro ((⟨n, hn, rfl, rfl⟩ | ⟨n, rfl | hn, rfl, rfl⟩) | h)
    · exact .inl ⟨rfl, hn⟩
    · exact .inl ⟨rfl, .inl rfl⟩
    · exact .inr (.inl ⟨rfl, hn⟩)
    · exact .inr (.inr h)
  · rintro (⟨rfl, ha⟩ | ⟨rfl, hb⟩ | h)
    · exact .inl (.inl ⟨a, ha, rfl, rfl⟩)
    · exact .inl (.inr ⟨b, .inr hb, rfl, rfl⟩)
    · exact .inr h

theorem mem_extensions : (a, c) ∈ r.extensions p ↔ a = p.1 ∧ (p.2, c) ∈ r := by
  simp only [extensions, List.mem_map, List.mem_filter, decide_eq_true_eq, Prod.mk.injEq]
  constructor
  · rintro ⟨⟨b, d⟩, ⟨hmem, rfl⟩, rfl, rfl⟩
    exact ⟨rfl, hmem⟩
  · rintro ⟨rfl, hmem⟩
    exact ⟨(p.2, c), ⟨hmem, rfl⟩, rfl, rfl⟩

/-- What is added stands behind what was there. -/
theorem prefix_union (r more : Outlives) : r <+: r.union more := by
  induction more generalizing r with
  | nil => exact List.prefix_rfl
  | cons p more ih =>
    refine List.IsPrefix.trans ?_ (ih _)
    dsimp only
    split
    · exact List.prefix_rfl
    · exact List.prefix_append r [p]

theorem nodup_union (h : r.Nodup) (more : Outlives) : (r.union more).Nodup := by
  induction more generalizing r with
  | nil => exact h
  | cons p more ih =>
    refine ih ?_
    dsimp only
    split
    · exact h
    · rename_i hnew
      refine List.nodup_append.mpr ⟨h, by simp, ?_⟩
      rintro q hq _ hp rfl
      exact hnew (List.contains_iff_mem.mpr (List.mem_singleton.mp hp ▸ hq))

theorem nodup_base (params : List String) (declared : Outlives) : (base params declared).Nodup :=
  nodup_union List.nodup_nil _

theorem prefix_extendAll (r pairs : Outlives) : r <+: r.extendAll pairs := by
  induction pairs generalizing r with
  | nil => exact List.prefix_rfl
  | cons p pairs ih => exact (prefix_union r _).trans (ih _)

theorem nodup_round (h : r.Nodup) : r.round.Nodup := by
  have hall : ∀ {s : Outlives} (pairs : Outlives), s.Nodup → (s.extendAll pairs).Nodup := by
    intro s pairs hs
    induction pairs generalizing s with
    | nil => exact hs
    | cons p pairs ih => exact ih (nodup_union hs _)
  exact hall r h

theorem subset_round (r : Outlives) : r ⊆ r.round := (prefix_extendAll r r).subset

/-- A pair whose turn has come is joined with every pair that goes on where it ends. -/
theorem mem_extendAll (hab : (a, b) ∈ pairs) (hbc : (b, c) ∈ r) : (a, c) ∈ r.extendAll pairs := by
  induction pairs generalizing r with
  | nil => cases hab
  | cons p pairs ih =>
    rcases List.mem_cons.mp hab with rfl | hab
    · exact (prefix_extendAll _ pairs).subset (mem_union.mpr (.inr (mem_extensions.mpr ⟨rfl, hbc⟩)))
    · exact ih hab (mem_union.mpr (.inl hbc))

/-- What a round leads to belongs to every transitive relation that has the pairs before it. -/
theorem of_mem_round {T : String → String → Prop} (htrans : ∀ x y z, T x y → T y z → T x z)
    (hr : ∀ x y, (x, y) ∈ r → T x y) (h : (a, b) ∈ r.round) : T a b := by
  have hall : ∀ (pairs s : Outlives), (∀ x y, (x, y) ∈ pairs → T x y) → (∀ x y, (x, y) ∈ s → T x y) →
      ∀ x y, (x, y) ∈ s.extendAll pairs → T x y := by
    intro pairs
    induction pairs with
    | nil => exact fun _ _ hs => hs
    | cons p pairs ih =>
      intro s hpairs hs
      refine ih _ (fun x y hxy => hpairs x y (List.mem_cons_of_mem p hxy)) fun x y hxy => ?_
      rcases mem_union.mp hxy with hxy | hxy
      · exact hs x y hxy
      · obtain ⟨rfl, hy⟩ := mem_extensions.mp hxy
        exact htrans p.1 p.2 y (hpairs p.1 p.2 List.mem_cons_self) (hs p.2 y hy)
  exact hall r r hr hr a b h

/-- A relation that a round leaves alone is transitive. -/
theorem trans_of_round_eq (h : r.round = r) (hab : (a, b) ∈ r) (hbc : (b, c) ∈ r) : (a, c) ∈ r :=
  h ▸ mem_extendAll hab hbc

/-- The relation is one between the names of another one. -/
def Within (r s : Outlives) : Prop := r ⊆ s.map Prod.fst ×ˢ s.map Prod.snd

theorem mem_product_names : (a, b) ∈ s.map Prod.fst ×ˢ s.map Prod.snd ↔
    (∃ y, (a, y) ∈ s) ∧ ∃ x, (x, b) ∈ s := by
  simp [List.mem_product]

theorem within_refl (r : Outlives) : r.Within r :=
  fun p hp => mem_product_names.mpr ⟨⟨p.2, hp⟩, p.1, hp⟩

theorem Within.round (h : r.Within s) : r.round.Within s := by
  intro p hp
  refine of_mem_round (T := fun x y => (x, y) ∈ s.map Prod.fst ×ˢ s.map Prod.snd) ?_
    (fun x y hxy => h hxy) hp
  intro x y z hxy hyz
  exact mem_product_names.mpr ⟨(mem_product_names.mp hxy).1, (mem_product_names.mp hyz).2⟩

theorem Within.length_le (h : r.Within s) (hr : r.Nodup) : r.length ≤ s.pairBound := by
  have hle := (hr.subperm h).length_le
  rwa [List.length_product, List.length_map, List.length_map] at hle

/-- Rounds that are not cut short leave a relation that a further round leaves alone. -/
theorem round_settle {n : Nat} (hr : r.Nodup) (h : r.Within s) (hn : s.pairBound ≤ r.length + n) :
    (r.settle n).round = r.settle n := by
  induction n generalizing r with
  | zero =>
    have hle := h.round.length_le (nodup_round hr)
    exact ((prefix_extendAll r r).eq_of_length_le (Nat.le_trans hle hn)).symm
  | succ n ih =>
    rw [settle]
    split
    · assumption
    · rename_i hne
      have hlonger : r.length < r.round.length := by
        refine Nat.lt_of_le_of_ne (prefix_extendAll r r).length_le fun heq => ?_
        exact hne ((prefix_extendAll r r).eq_of_length heq).symm
      exact ih (nodup_round hr) h.round (by omega)

/-- Settling goes round as long as this changes something. -/
theorem settle_eq_iterate (n : Nat) (r : Outlives) : ∃ k, r.settle n = round^[k] r ∧
    ∀ i < k, round^[i + 1] r ≠ round^[i] r := by
  induction n generalizing r with
  | zero => exact ⟨0, rfl, fun i hi => absurd hi (Nat.not_lt_zero i)⟩
  | succ n ih =>
    rw [settle]
    split
    · exact ⟨0, rfl, fun i hi => absurd hi (Nat.not_lt_zero i)⟩
    · rename_i hne
      obtain ⟨k, hk, hchanges⟩ := ih r.round
      refine ⟨k + 1, hk, fun i hi => ?_⟩
      cases i with
      | zero => exact hne
      | succ i => exact hchanges i (Nat.lt_of_succ_lt_succ hi)

/-- What every round keeps is kept to the end. -/
theorem settle_induction {P : Outlives → Prop} (hround : ∀ s, P s → P s.round) (n : Nat) (hr : P r) :
    P (r.settle n) := by
  induction n generalizing r with
  | zero => exact hr
  | succ n ih =>
    rw [settle]
    split
    · exact hr
    · exact ih (hround r hr)

variable {params : List String} {declared : Outlives}

theorem round_closure (params : List String) (declared : Outlives) :
    (closure params declared).round = closure params declared :=
  round_settle (nodup_base params declared) (within_refl _) (Nat.le_add_left _ _)

/-- The closure is what chains of the pairs that hold at once lead to. -/
theorem mem_closure : (a, b) ∈ closure params declared ↔
    Relation.TransGen (fun x y => (x, y) ∈ base params declared) a b := by
  constructor
  · have hsound : ∀ x y, (x, y) ∈ closure params declared →
        Relation.TransGen (fun x y => (x, y) ∈ base params declared) x y := by
      refine settle_induction (P := fun s => ∀ x y, (x, y) ∈ s → Relation.TransGen _ x y) ?_ _
        fun x y hxy => .single hxy
      exact fun s hs x y hxy => of_mem_round (fun _ _ _ => Relation.TransGen.trans) hs hxy
    exact hsound a b
  · have hbase : base params declared ⊆ closure params declared :=
      settle_induction (P := (base params declared ⊆ ·)) (fun s hs => List.Subset.trans hs (subset_round s))
        _ (List.Subset.refl _)
    intro h
    induction h with
    | single hstep => exact hbase hstep
    | tail _ hstep ih => exact trans_of_round_eq (round_closure params declared) ih (hbase hstep)

/-- Chaining comes to an end: it goes round as long as a round adds something, and then not again. Its
result has each pair once, and exactly those that a chain leads to of the declared pairs, of every
region and itself, and of the static region and every other. -/
theorem closure_exact (params : List String) (declared : Outlives) :
    (∃ n, closure params declared = round^[n] (base params declared) ∧
      (∀ i < n, round^[i + 1] (base params declared) ≠ round^[i] (base params declared)) ∧
      round^[n + 1] (base params declared) = round^[n] (base params declared)) ∧
    (closure params declared).Nodup ∧
    ∀ a b, (a, b) ∈ closure params declared ↔ Relation.TransGen (fun x y =>
      (x, y) ∈ declared ∨ (x = y ∧ (x ∈ params ∨ x = staticRegion)) ∨ (x = staticRegion ∧ y ∈ params)) a b := by
  refine ⟨?_, ?_, fun a b => ?_⟩
  · obtain ⟨n, hn, hchanges⟩ := settle_eq_iterate (base params declared).pairBound (base params declared)
    refine ⟨n, hn, hchanges, ?_⟩
    rw [Function.iterate_succ_apply', ← hn]
    exact round_closure params declared
  · exact settle_induction (P := List.Nodup) (fun _ => nodup_round) _ (nodup_base params declared)
  · have hsame : (fun x y => (x, y) ∈ base params declared) = fun x y => (x, y) ∈ declared ∨
        (x = y ∧ (x ∈ params ∨ x = staticRegion)) ∨ (x = staticRegion ∧ y ∈ params) := by
      funext x y
      rw [mem_base]
      exact propext (by tauto)
    rw [mem_closure, hsame]

end Ownership.Outlives
