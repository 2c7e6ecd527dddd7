import Ownership.Fault

/-!
Iteration budgets. Every fixpoint counts its steps against a budget; a step
beyond the limit stops the analysis. `settle` is the loop that all of them
share: it repeats a step for as long as there is one to make.
-/
namespace Ownership

structure Config where
  jobs : Int := 1
  maxIterations : Option Int := none
  reportUnreachable : Bool := true
  deriving DecidableEq, Repr, Inhabited

inductive ConfigFault where
  | jobs
  | maxIterations
  deriving DecidableEq, Repr

def ConfigFault.message : ConfigFault → String
  | jobs => "jobs must be >= 1"
  | maxIterations => "max_iterations must be >= 1 when set"

/-- Accepts a configuration whose counts are positive. -/
def Config.check (c : Config) : Except ConfigFault Config :=
  if c.jobs < 1 then .error .jobs
  else if c.maxIterations.any (· < 1) then .error .maxIterations
  else .ok c

structure Budget where
  analysis : String
  limit : Option Int
  steps : Nat := 0
  deriving DecidableEq, Repr

namespace Budget

def tick (b : Budget) : Budget := { b with steps := b.steps + 1 }

def exceeded (b : Budget) : Bool := b.limit.any (· < (b.steps : Int))

def fault (b : Budget) : Fault := .limit b.analysis (b.limit.getD 0)

/-- Makes steps until none is left, at most `fuel` of them and none beyond the budget. -/
def settle {σ : Type} (next : σ → Option σ) : Nat → Budget → σ → Except Fault (σ × Budget)
  | fuel, b, s =>
    match next s with
    | none => .ok (s, b)
    | some s' =>
      if b.tick.exceeded then .error b.tick.fault
      else match fuel with
        | 0 => .error (.unsettled b.analysis)
        | fuel + 1 => settle next fuel b.tick s'

@[simp] theorem tick_steps (b : Budget) : b.tick.steps = b.steps + 1 := rfl
@[simp] theorem tick_limit (b : Budget) : b.tick.limit = b.limit := rfl

theorem settle_of_done {σ : Type} {next : σ → Option σ} {s : σ} (h : next s = none)
    (fuel : Nat) (b : Budget) : settle next fuel b s = .ok (s, b) := by
  unfold settle
  simp [h]

/-- What every step keeps holds of the state that is left, and no step is left to make there. -/
theorem settle_invariant {σ : Type} {next : σ → Option σ} {inv : σ → Prop}
    (hstep : ∀ s t, inv s → next s = some t → inv t) {fuel : Nat} {b b' : Budget} {s t : σ}
    (hs : inv s) (h : settle next fuel b s = .ok (t, b')) : inv t ∧ next t = none := by
  induction fuel generalizing b s with
  | zero =>
    unfold settle at h
    cases hn : next s with
    | none =>
      simp only [hn, Except.ok.injEq, Prod.mk.injEq] at h
      obtain ⟨rfl, _⟩ := h
      exact ⟨hs, hn⟩
    | some s' =>
      simp only [hn] at h
      split at h <;> simp at h
  | succ fuel ih =>
    unfold settle at h
    cases hn : next s with
    | none =>
      simp only [hn, Except.ok.injEq, Prod.mk.injEq] at h
      obtain ⟨rfl, _⟩ := h
      exact ⟨hs, hn⟩
    | some s' =>
      simp only [hn] at h
      split at h
      · simp at h
      · exact ih (hstep s s' hs hn) h

end Budget

end Ownership
