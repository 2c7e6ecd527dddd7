import Mathlib.Algebra.BigOperators.Group.Finset.Basic
import Mathlib.Algebra.Order.BigOperators.Group.Finset
import Mathlib.Algebra.Order.Ring.GeomSum
import Ownership.Budget

/-!
Searches that come to an end. A loop whose steps all make some number smaller never
makes more steps than that number, so it stops on its own or at the limit that is
set for it. The numbers are counts of what is still missing, and sums over blocks
where a block weighs more than all blocks of lower rank together.
-/
namespace Ownership

/-- A loop that makes a number smaller by every step, and may make that many steps, ends on its own;
if it does not, then because of the limit. -/
theorem Budget.settle_ends {σ : Type} {next : σ → Option σ} {inv : σ → Prop} (size : σ → Nat)
    (hstep : ∀ s t, inv s → next s = some t → inv t ∧ size t < size s) {fuel : Nat} {b : Budget} {s : σ}
    (hs : inv s) (hfuel : size s ≤ fuel) {f : Fault} (h : settle next fuel b s = .error f) :
    ∃ n, b.limit = some n ∧ f = .limit b.analysis n := by
  induction fuel generalizing b s with
  | zero =>
    unfold settle at h
    cases hn : next s with
    | none => simp [hn] at h
    | some t => exact absurd (hstep s t hs hn).2 (by omega)
  | succ fuel ih =>
    unfold settle at h
    cases hn : next s with
    | none => simp [hn] at h
    | some t =>
      obtain ⟨ht, hlt⟩ := hstep s t hs hn
      simp only [hn] at h
      split at h
      · rename_i hover
        obtain ⟨n, hlimit, _⟩ := (Option.any_eq_true _ _).mp hover
        rw [tick_limit] at hlimit
        refine ⟨n, hlimit, ?_⟩
        rw [← Except.error.inj h, fault, tick_limit, hlimit]
        rfl
      · exact ih (b := b.tick) ht (by omega) h

/-- The state that so many steps lead to, if all of them can be made. -/
def Budget.after {σ : Type} (next : σ → Option σ) : Nat → σ → Option σ
  | 0, s => some s
  | n + 1, s => (next s).bind (after next n)

/-- A loop that ends has made the steps that the budget counts, and there is no other left to make. -/
theorem Budget.settle_after {σ : Type} {next : σ → Option σ} {fuel : Nat} {b b' : Budget} {s t : σ}
    (h : settle next fuel b s = .ok (t, b')) :
    ∃ n ≤ fuel, after next n s = some t ∧ next t = none ∧ b' = { b with steps := b.steps + n } := by
  induction fuel generalizing b s with
  | zero =>
    unfold settle at h
    cases hn : next s with
    | none =>
      simp only [hn, Except.ok.injEq, Prod.mk.injEq] at h
      obtain ⟨rfl, rfl⟩ := h
      exact ⟨0, Nat.le_refl 0, rfl, hn, rfl⟩
    | some s' =>
      simp only [hn] at h
      split at h <;> cases h
  | succ fuel ih =>
    unfold settle at h
    cases hn : next s with
    | none =>
      simp only [hn, Except.ok.injEq, Prod.mk.injEq] at h
      obtain ⟨rfl, rfl⟩ := h
      exact ⟨0, Nat.zero_le _, rfl, hn, rfl⟩
    | some s' =>
      simp only [hn] at h
      split at h
      · cases h
      · obtain ⟨n, hle, hafter, hdone, rfl⟩ := ih h
        refine ⟨n + 1, Nat.succ_le_succ hle, by rw [after, hn, Option.bind_some, hafter], hdone, ?_⟩
        simp only [tick, Nat.add_assoc, Nat.add_comm 1]

section

variable {α : Type} {xs : List α} {p q : α → Bool}

theorem countP_lt_of_imp (h : ∀ x ∈ xs, p x = true → q x = true) {x : α} (hx : x ∈ xs) (hp : p x = false)
    (hq : q x = true) : xs.countP p < xs.countP q := by
  induction xs with
  | nil => cases hx
  | cons y ys ih =>
    have hys : ∀ x ∈ ys, p x = true → q x = true := fun x hx => h x (List.mem_cons_of_mem y hx)
    have hle := List.countP_mono_left hys
    rw [List.countP_cons, List.countP_cons]
    rcases List.mem_cons.mp hx with rfl | hx
    · simp only [hp, hq, Bool.false_eq_true, if_false, if_true]
      omega
    · have hlt := ih hys hx
      have hy := h y List.mem_cons_self
      by_cases hpy : p y = true
      · simp only [hpy, hy hpy, if_true]
        omega
      · simp only [hpy, Bool.false_eq_true, if_false]
        omega

/-- Of two tests of which one passes whatever the other does, equal counts make equal tests. -/
theorem eq_of_countP_eq (h : ∀ x ∈ xs, p x = true → q x = true) (hcount : xs.countP p = xs.countP q) {x : α}
    (hx : x ∈ xs) : p x = q x := by
  cases hp : p x with
  | true => exact (h x hx hp).symm
  | false =>
    cases hq : q x with
    | false => rfl
    | true => exact absurd hcount (countP_lt_of_imp h hx hp hq).ne

end

open Finset

variable {n : Nat} {rank : Nat → Nat}

/-- Blocks of lower rank weigh less than the block, all taken together. -/
theorem sum_ahead_lt (hrank : ∀ a < n, ∀ c < n, rank a = rank c → a = c) (b : Nat) :
    ∑ c ∈ (range n).filter (rank · < rank b), 2 ^ rank c < 2 ^ rank b := by
  have hinj : Set.InjOn rank ((range n).filter (rank · < rank b) : Finset Nat) := by
    intro a ha c hc
    exact hrank a (mem_range.mp (mem_filter.mp ha).1) c (mem_range.mp (mem_filter.mp hc).1)
  rw [← sum_image (f := fun k => 2 ^ k) hinj]
  refine Nat.geomSum_lt (Nat.le_refl 2) fun k hk => ?_
  obtain ⟨c, hc, rfl⟩ := mem_image.mp hk
  exact (mem_filter.mp hc).2

/-- A block gets lighter, no other gets heavier but those of lower rank, and these by at most one:
the whole gets lighter. -/
theorem weight_lt (hrank : ∀ a < n, ∀ c < n, rank a = rank c → a = c) {u v : Nat → Nat} {b : Nat} (hb : b < n)
    (h : ∀ c < n, u c + (if c = b then 1 else 0) ≤ v c ∨ rank c < rank b ∧ u c ≤ v c + 1) :
    ∑ c ∈ range n, u c * 2 ^ rank c < ∑ c ∈ range n, v c * 2 ^ rank c := by
  have hterm : ∀ c ∈ range n, u c * 2 ^ rank c + (if c = b then 2 ^ rank b else 0) ≤
      v c * 2 ^ rank c + (if rank c < rank b then 2 ^ rank c else 0) := by
    intro c hc
    by_cases hcb : c = b
    · subst hcb
      have hself := (h c hb).resolve_right (by simp)
      simp only [if_true, lt_irrefl, if_false, Nat.add_zero] at hself ⊢
      calc u c * 2 ^ rank c + 2 ^ rank c = (u c + 1) * 2 ^ rank c := (Nat.succ_mul _ _).symm
        _ ≤ v c * 2 ^ rank c := Nat.mul_le_mul_right _ hself
    · simp only [hcb, if_false, Nat.add_zero]
      rcases h c (mem_range.mp hc) with hle | ⟨hlt, hle⟩
      · exact (Nat.mul_le_mul_right _ (Nat.le_of_add_right_le hle)).trans (Nat.le_add_right _ _)
      · simp only [hlt, if_true]
        calc u c * 2 ^ rank c ≤ (v c + 1) * 2 ^ rank c := Nat.mul_le_mul_right _ hle
          _ = v c * 2 ^ rank c + 2 ^ rank c := Nat.succ_mul _ _
  have hsum := sum_le_sum hterm
  rw [sum_add_distrib, sum_add_distrib, sum_ite_eq', ← sum_filter] at hsum
  rw [if_pos (mem_range.mpr hb)] at hsum
  have hlt := sum_ahead_lt hrank b
  omega

theorem weight_le (hrank : ∀ a < n, ∀ c < n, rank a = rank c → a = c) (hbounded : ∀ c < n, rank c < n)
    {u : Nat → Nat} {k : Nat} (hu : ∀ c < n, u c ≤ k) : ∑ c ∈ range n, u c * 2 ^ rank c ≤ k * 2 ^ n := by
  have hinj : Set.InjOn rank (range n : Finset Nat) := by
    intro a ha c hc
    exact hrank a (mem_range.mp ha) c (mem_range.mp hc)
  have hranks : ∑ c ∈ range n, 2 ^ rank c < 2 ^ n := by
    rw [← sum_image (f := fun k => 2 ^ k) hinj]
    refine Nat.geomSum_lt (Nat.le_refl 2) fun r hr => ?_
    obtain ⟨c, hc, rfl⟩ := mem_image.mp hr
    exact hbounded c (mem_range.mp hc)
  calc ∑ c ∈ range n, u c * 2 ^ rank c
      ≤ ∑ c ∈ range n, k * 2 ^ rank c :=
        sum_le_sum fun c hc => Nat.mul_le_mul_right _ (hu c (mem_range.mp hc))
    _ = k * ∑ c ∈ range n, 2 ^ rank c := (mul_sum _ _ _).symm
    _ ≤ k * 2 ^ n := Nat.mul_le_mul_left k hranks.le

end Ownership
