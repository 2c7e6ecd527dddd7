import Ownership.Fault
import Ownership.Proofs.Outcome

/-!
Faults of computations. A computation fails only with faults of some kind if each of
its steps does; the step after one that succeeds may rely on what came out of it.
-/
namespace Ownership

/-- A breach of contract. -/
def Fault.IsBreach (f : Fault) : Prop := ∃ cause loc, f = .breach cause loc

namespace Outcome

variable {ε α β : Type} {P : ε → Prop}

/-- Every fault that may come out is of this kind. -/
def FailsOnly (P : ε → Prop) (x : Except ε α) : Prop := ∀ e, x = .error e → P e

theorem bind_eq_error {x : Except ε α} {f : α → Except ε β} {e : ε} :
    (x >>= f) = .error e ↔ x = .error e ∨ ∃ a, x = .ok a ∧ f a = .error e := by
  cases x with
  | error e' => simp [bind, Except.bind]
  | ok a => simp [bind, Except.bind]

/-- No fault may come out. -/
abbrev NeverFails (x : Except ε α) : Prop := FailsOnly (fun _ => False) x

/-- A computation that cannot fail succeeds. -/
theorem exists_ok {x : Except ε α} (h : NeverFails x) : ∃ a, x = .ok a := by
  cases x with
  | error e => exact (h e rfl).elim
  | ok a => exact ⟨a, rfl⟩

namespace FailsOnly

theorem ok (a : α) : FailsOnly P (.ok a : Except ε α) := fun _ h => by cases h

theorem of_eq_ok {x : Except ε α} {a : α} (h : x = .ok a) : FailsOnly P x := h ▸ ok a

theorem error {e : ε} (h : P e) : FailsOnly P (.error e : Except ε α) := fun _ he => Except.error.inj he ▸ h

theorem imp {Q : ε → Prop} {x : Except ε α} (h : FailsOnly P x) (himp : ∀ e, P e → Q e) : FailsOnly Q x :=
  fun e he => himp e (h e he)

theorem bind {x : Except ε α} {f : α → Except ε β} (hx : FailsOnly P x)
    (hf : ∀ a, x = .ok a → FailsOnly P (f a)) : FailsOnly P (x >>= f) := by
  intro e he
  rcases bind_eq_error.mp he with he | ⟨a, ha, he⟩
  · exact hx e he
  · exact hf a ha e he

theorem map {x : Except ε α} (hx : FailsOnly P x) (f : α → β) : FailsOnly P (x.map f) := by
  cases x with
  | error e => exact error (hx e rfl)
  | ok a => exact ok (f a)

theorem ite {c : Prop} [Decidable c] {x y : Except ε α} (hx : c → FailsOnly P x) (hy : ¬c → FailsOnly P y) :
    FailsOnly P (if c then x else y) := by
  split
  · rename_i h
    exact hx h
  · rename_i h
    exact hy h

theorem mapM {f : α → Except ε β} {xs : List α} (h : ∀ x ∈ xs, FailsOnly P (f x)) : FailsOnly P (xs.mapM f) := by
  induction xs with
  | nil => exact ok []
  | cons x xs ih =>
    rw [List.mapM_cons]
    refine (h x List.mem_cons_self).bind fun y _ => ?_
    exact (ih fun z hz => h z (List.mem_cons_of_mem x hz)).bind fun ys _ => ok _

theorem forM {f : α → Except ε PUnit} {xs : List α} (h : ∀ x ∈ xs, FailsOnly P (f x)) : FailsOnly P (xs.forM f) := by
  induction xs with
  | nil => exact ok _
  | cons x xs ih =>
    have hcons : (x :: xs).forM f = (f x >>= fun _ => xs.forM f) := rfl
    rw [hcons]
    exact (h x List.mem_cons_self).bind fun _ _ => ih fun z hz => h z (List.mem_cons_of_mem x hz)

theorem anyM {f : α → Except ε Bool} {xs : List α} (h : ∀ x ∈ xs, FailsOnly P (f x)) : FailsOnly P (xs.anyM f) := by
  induction xs with
  | nil => exact ok _
  | cons x xs ih =>
    rw [List.anyM]
    refine (h x List.mem_cons_self).bind fun found _ => ?_
    cases found with
    | true => exact ok true
    | false => exact ih fun z hz => h z (List.mem_cons_of_mem x hz)

/-- A fold may rely at each step on what the steps before it keep. -/
theorem foldlM {f : β → α → Except ε β} (inv : β → Prop) {xs : List α}
    (h : ∀ b, ∀ x ∈ xs, inv b → FailsOnly P (f b x) ∧ ∀ c, f b x = .ok c → inv c) {b : β} (hb : inv b) :
    FailsOnly P (xs.foldlM f b) := by
  induction xs generalizing b with
  | nil => exact ok b
  | cons x xs ih =>
    rw [List.foldlM_cons]
    obtain ⟨hx, hinv⟩ := h b x List.mem_cons_self hb
    exact hx.bind fun c hc => ih (fun b y hy => h b y (List.mem_cons_of_mem x hy)) (hinv c hc)

theorem filterAuxM {f : α → Except ε Bool} {xs : List α} (h : ∀ x ∈ xs, FailsOnly P (f x)) (acc : List α) :
    FailsOnly P (List.filterAuxM f xs acc) := by
  induction xs generalizing acc with
  | nil => exact ok acc
  | cons x xs ih =>
    rw [List.filterAuxM]
    exact (h x List.mem_cons_self).bind fun _ _ => ih (fun z hz => h z (List.mem_cons_of_mem x hz)) _

theorem filterM {f : α → Except ε Bool} {xs : List α} (h : ∀ x ∈ xs, FailsOnly P (f x)) :
    FailsOnly P (xs.filterM f) :=
  (filterAuxM h []).bind fun _ _ => ok _

theorem breach {cause : Breach} {loc : Span} :
    FailsOnly Fault.IsBreach (.error (.breach cause loc) : Except Fault α) :=
  error ⟨cause, loc, rfl⟩

/-- What stands behind a breach is never reached. -/
theorem breach_bind {cause : Breach} {loc : Span} {f : β → Except Fault α} :
    FailsOnly Fault.IsBreach ((throw (.breach cause loc) : Except Fault β) >>= f) :=
  breach.bind fun _ h => nomatch h

/-- A look-up in the type table that succeeds gives no fault. -/
theorem ofTypes {r : Except TypeFault α} {Q : Fault → Prop} (h : NeverFails r) :
    FailsOnly Q (Fault.ofTypes r) := by
  obtain ⟨a, rfl⟩ := exists_ok h
  exact ok a

end FailsOnly

end Outcome

end Ownership
