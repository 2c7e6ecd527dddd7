import Ownership.Proofs.Outcome
import Ownership.Verdict

/-!
The stages of an analysis that came to an end, and what acceptance says of
them. A report keeps the first of its findings, and all findings but those on
unreachable code are errors, so an accepted function has no other findings.
-/
namespace Ownership

open Outcome

/-- The results of the stages up to the loans. -/
structure Stages where
  graph : Graph
  effects : EffectMap
  frame : RegionFrame
  liveness : Liveness
  problem : ExtentProblem
  solution : RegionSolution
  moves : MoveResult
  loans : LoanResult

/-- Each stage succeeds with its result, from the results of the stages before it. -/
structure Context.Completes (cx : Context) (limit : Option Int) (s : Stages) : Prop where
  graph : cx.function.graph = .ok s.graph
  effects : cx.effects s.graph = .ok s.effects
  frame : cx.declareUniversals cx.ownSignature = .ok s.frame
  liveness : cx.liveness s.graph s.effects limit = .ok s.liveness
  problem : cx.extentProblem s.graph s.effects s.frame s.liveness = .ok s.problem
  solution : s.problem.solution cx.function limit = .ok s.solution
  moves : trackMoves s.graph cx.function s.effects limit = .ok s.moves
  loans : trackLoans s.graph s.effects s.solution limit = .ok s.loans

/-- There is only one way to complete. -/
theorem Context.Completes.unique {cx : Context} {limit : Option Int} {s t : Stages} (h : cx.Completes limit s)
    (k : cx.Completes limit t) : s = t := by
  obtain ⟨hg, hfx, hframe, hlive, hproblem, hsol, hmoves, hloans⟩ := h
  obtain ⟨kg, kfx, kframe, klive, kproblem, ksol, kmoves, kloans⟩ := k
  obtain ⟨_, _, _, _, _, _, _, _⟩ := s
  obtain ⟨_, _, _, _, _, _, _, _⟩ := t
  obtain rfl := Except.ok.inj (hg.symm.trans kg)
  obtain rfl := Except.ok.inj (hfx.symm.trans kfx)
  obtain rfl := Except.ok.inj (hframe.symm.trans kframe)
  obtain rfl := Except.ok.inj (hlive.symm.trans klive)
  obtain rfl := Except.ok.inj (hproblem.symm.trans kproblem)
  obtain rfl := Except.ok.inj (hsol.symm.trans ksol)
  obtain rfl := Except.ok.inj (hmoves.symm.trans kmoves)
  obtain rfl := Except.ok.inj (hloans.symm.trans kloans)
  rfl

namespace Context

variable {cx : Context} {config : Config}

theorem graph_of_analysis {g : Graph} (h : (cx.analysis config).graph = .ok g) :
    cx.function.graph = .ok g := by
  simp only [analysis, analyze, bind_eq_ok] at h
  obtain ⟨_, _, hg⟩ := h
  exact hg

theorem analysis_effects : (cx.analysis config).effects =
    (do cx.effects (← (cx.analysis config).graph)) := rfl

theorem analysis_frame : (cx.analysis config).frame =
    (do
      let _ ← (cx.analysis config).effects
      cx.declareUniversals cx.ownSignature) := rfl

theorem analysis_liveness : (cx.analysis config).liveness =
    (do
      let _ ← (cx.analysis config).frame
      cx.liveness (← (cx.analysis config).graph) (← (cx.analysis config).effects)
        config.maxIterations) := rfl

theorem analysis_solution : (cx.analysis config).solution =
    (do
      let problem ← cx.extentProblem (← (cx.analysis config).graph) (← (cx.analysis config).effects)
        (← (cx.analysis config).frame) (← (cx.analysis config).liveness)
      problem.solution cx.function config.maxIterations) := rfl

theorem analysis_moves : (cx.analysis config).moves =
    (do
      let _ ← (cx.analysis config).solution
      trackMoves (← (cx.analysis config).graph) cx.function (← (cx.analysis config).effects)
        config.maxIterations) := rfl

theorem analysis_loans : (cx.analysis config).loans =
    (do
      let _ ← (cx.analysis config).moves
      trackLoans (← (cx.analysis config).graph) (← (cx.analysis config).effects)
        (← (cx.analysis config).solution) config.maxIterations) := rfl

theorem analysis_validity : (cx.analysis config).validity =
    (do
      return validityFindings (← (cx.analysis config).effects) (← (cx.analysis config).solution)
        (← (cx.analysis config).loans).inScope) := rfl

/-- An analysis that reaches the loans has completed all stages before them. -/
theorem analysis_completes {r : LoanResult} (h : (cx.analysis config).loans = .ok r) :
    ∃ s : Stages, cx.Completes config.maxIterations s ∧ s.loans = r ∧
      (cx.analysis config).graph = .ok s.graph ∧ (cx.analysis config).effects = .ok s.effects ∧
      (cx.analysis config).frame = .ok s.frame ∧ (cx.analysis config).liveness = .ok s.liveness ∧
      (cx.analysis config).solution = .ok s.solution ∧ (cx.analysis config).moves = .ok s.moves := by
  have hloans := h
  simp only [analysis_loans, bind_eq_ok] at hloans
  obtain ⟨moves, hmoves, g, hg, fx, hfx, sol, hsol, hrun⟩ := hloans
  have heffects := hfx
  simp only [analysis_effects, hg, bind_eq_ok, Except.ok.injEq, exists_eq_left'] at heffects
  have hsolution := hsol
  simp only [analysis_solution, hg, hfx, bind_eq_ok, Except.ok.injEq, exists_eq_left'] at hsolution
  obtain ⟨frame, hframe, live, hlive, problem, hproblem, hsolve⟩ := hsolution
  have hframe' := hframe
  simp only [analysis_frame, hfx, bind_eq_ok, Except.ok.injEq, exists_eq_left'] at hframe'
  have hlive' := hlive
  simp only [analysis_liveness, hg, hfx, hframe, bind_eq_ok, Except.ok.injEq, exists_eq_left'] at hlive'
  have htrack := hmoves
  simp only [analysis_moves, hg, hfx, hsol, bind_eq_ok, Except.ok.injEq, exists_eq_left'] at htrack
  exact ⟨⟨g, fx, frame, live, problem, sol, moves, r⟩,
    ⟨graph_of_analysis hg, heffects, hframe', hlive', hproblem, hsolve, htrack, hrun⟩,
    rfl, hg, hfx, hframe, hlive, hsol, hmoves⟩

end Context

namespace Report

theorem mem_emitAll {r : Report} (ds : List Diagnostic) {d : Diagnostic} (h : d ∈ r.items) :
    d ∈ (r.emitAll ds).items := by
  induction ds generalizing r with
  | nil => exact h
  | cons e ds ih => exact ih (mem_emit h)

/-- The first finding is always kept, so a report without errors starts with no error. -/
theorem nil_of_errors {ds more : List Diagnostic} (hds : ∀ d ∈ ds, d.isError = true)
    (h : (({} : Report).emitAll (ds ++ more)).errors = []) : ds = [] := by
  cases ds with
  | nil => rfl
  | cons d ds =>
    exfalso
    have hfirst : d ∈ (({} : Report).emit d).items := by simp [emit]
    have hkept : d ∈ (({} : Report).emitAll (d :: ds ++ more)).items := mem_emitAll (ds ++ more) hfirst
    have hmem : d ∈ (({} : Report).emitAll (d :: ds ++ more)).errors :=
      List.mem_filter.mpr ⟨hkept, hds d List.mem_cons_self⟩
    rw [h] at hmem
    cases hmem

end Report

theorem MoveState.isError_complaint {s : MoveState} {f : Function} {p : Place} {a : Access} {allow : Bool}
    {what : String} {d : Diagnostic} (h : s.complaint f p a allow what = some d) : d.isError = true := by
  unfold complaint at h
  split at h
  · simp at h
  · rw [← Option.some.inj h]
    rfl
  · split at h
    · simp at h
    · rw [← Option.some.inj h]
      rfl
  · rw [← Option.some.inj h]
    rfl

theorem MoveState.isError_objection {s : MoveState} {f : Function} {a : Access} {d : Diagnostic}
    (h : s.objection f a = some d) : d.isError = true := by
  unfold objection at h
  split at h
  · simp at h
  · simp at h
  · simp at h
  · obtain ⟨parent, _, hd⟩ := Option.bind_eq_some_iff.mp h
    exact isError_complaint hd
  · exact isError_complaint h
  · exact isError_complaint h
  · exact isError_complaint h
  · exact isError_complaint h
  · split at h
    · rw [← Option.some.inj h]
      rfl
    · exact isError_complaint h

theorem MoveProblem.isError_objections {m : MoveProblem} {as : List Access} {s : MoveState}
    {d : Diagnostic} (h : d ∈ m.objections as s) : d.isError = true := by
  induction as generalizing s with
  | nil => simp [objections] at h
  | cons a as ih =>
    rcases List.mem_append.mp h with ha | hrest
    · exact MoveState.isError_objection (Option.mem_toList.mp ha)
    · exact ih hrest

theorem Access.isError_clash {a : Access} {l : Loan} {d : Diagnostic} (h : a.clash l = some d) :
    d.isError = true := by
  unfold clash at h
  split at h
  · simp at h
  cases hk : a.kind with
  | init | declare | storageDead => simp [hk] at h
  | borrowMut | move =>
    simp only [hk, Option.some.injEq] at h
    rw [← h]
    rfl
  | borrowShared | read | inspect =>
    simp only [hk] at h
    split at h
    · rw [← Option.some.inj h]
      rfl
    · cases h
  | write =>
    simp only [hk] at h
    split at h
    · cases h
    · rw [← Option.some.inj h]
      rfl

theorem isError_clashes {as : List Access} {loans : List Loan} {d : Diagnostic}
    (h : d ∈ clashes as loans) : d.isError = true := by
  induction as generalizing loans with
  | nil => simp [clashes] at h
  | cons a as ih =>
    rcases List.mem_append.mp h with ha | hrest
    · obtain ⟨l, _, hl⟩ := List.exists_of_findSome?_eq_some (Option.mem_toList.mp ha)
      exact Access.isError_clash hl
    · exact ih hrest

theorem trackMoves_isError {g : Graph} {f : Function} {fx : EffectMap} {limit : Option Int} {r : MoveResult}
    (h : trackMoves g f fx limit = .ok r) {d : Diagnostic} (hd : d ∈ r.findings) : d.isError = true := by
  simp only [trackMoves, trackMovesBy, bind_eq_ok, pure_eq, Except.ok.injEq] at h
  obtain ⟨_, _, rfl⟩ := h
  obtain ⟨_, _, hd⟩ := List.mem_flatMap.mp hd
  exact MoveProblem.isError_objections hd

theorem trackLoans_isError {g : Graph} {fx : EffectMap} {sol : RegionSolution} {limit : Option Int}
    {r : LoanResult} (h : trackLoans g fx sol limit = .ok r) {d : Diagnostic} (hd : d ∈ r.findings) :
    d.isError = true := by
  simp only [trackLoans, bind_eq_ok, pure_eq, Except.ok.injEq] at h
  obtain ⟨_, _, rfl⟩ := h
  obtain ⟨_, _, hd⟩ := List.mem_flatMap.mp hd
  exact isError_clashes hd

theorem isError_validityFindings {fx : EffectMap} {sol : RegionSolution}
    {inScope : List (Point × List Loan)} {d : Diagnostic} (h : d ∈ validityFindings fx sol inScope) :
    d.isError = true := by
  rcases List.mem_append.mp h with h | h
  · obtain ⟨⟨p, loans⟩, _, h⟩ := List.mem_flatMap.mp h
    obtain ⟨a, _, h⟩ := List.mem_flatMap.mp h
    unfold danglingAt at h
    split at h
    · obtain ⟨l, _, rfl⟩ := List.mem_map.mp h
      rfl
    · cases h
  · obtain ⟨name, _, h⟩ := List.mem_flatMap.mp h
    obtain ⟨marker, _, rfl⟩ := List.mem_map.mp h
    rfl

/-- The analyses of a function found nothing. -/
structure Stages.Clean (s : Stages) : Prop where
  moves : s.moves.findings = []
  loans : s.loans.findings = []
  validity : validityFindings s.effects s.solution s.loans.inScope = []

theorem Context.accept_of_verdict {cx : Context} {config : Config} {v : Verdict} {log : List LogLine}
    (h : cx.verdict config = .ok (v, log)) (ha : v.accepted = true) :
    cx.accept (cx.analysis config) config = .ok v := by
  unfold verdict at h
  simp only at h
  split at h
  · rename_i w hw
    simp only [Except.ok.injEq, Prod.mk.injEq] at h
    rw [hw, h.1]
  · split at h
    · simp only [Except.ok.injEq, Prod.mk.injEq] at h
      rw [← h.1] at ha
      cases ha
    · cases h

/-- An accepted function has completed every stage, and none of them found anything. -/
theorem Context.accepted_clean {cx : Context} {config : Config} {v : Verdict} {log : List LogLine}
    (h : cx.verdict config = .ok (v, log)) (ha : v.accepted = true) :
    ∃ s : Stages, cx.Completes config.maxIterations s ∧ s.Clean ∧
      v.graph = some s.graph ∧ v.solution = some s.solution := by
  have haccept := accept_of_verdict h ha
  simp only [accept, bind_eq_ok, pure_eq, Except.ok.injEq] at haccept
  obtain ⟨report, hreport, sol, hsol, g, hg, rfl⟩ := haccept
  simp only [Analysis.report, bind_eq_ok, pure_eq, Except.ok.injEq] at hreport
  obtain ⟨g', hg', moves, hmoves, loans, hloans, valid, hvalid, rfl⟩ := hreport
  obtain ⟨s, hs, rfl, hsg, hsfx, _, _, hssol, hsmoves⟩ := analysis_completes hloans
  rw [analysis_validity] at hvalid
  simp only [hsfx, hssol, hloans, bind_eq_ok, pure_eq, Except.ok.injEq, exists_eq_left'] at hvalid
  obtain rfl := Except.ok.inj (hmoves.symm.trans hsmoves)
  obtain rfl := Except.ok.inj (hg.symm.trans hsg)
  obtain rfl := Except.ok.inj (hsol.symm.trans hssol)
  subst hvalid
  have hnil := Report.nil_of_errors ?_ (List.isEmpty_iff.mp ha)
  · rw [List.append_eq_nil_iff, List.append_eq_nil_iff] at hnil
    exact ⟨s, hs, ⟨hnil.1.1, hnil.1.2, hnil.2⟩, rfl, rfl⟩
  · intro d hd
    rcases List.mem_append.mp hd with hd | hd
    · rcases List.mem_append.mp hd with hd | hd
      · exact trackMoves_isError hs.moves hd
      · exact trackLoans_isError hs.loans hd
    · exact isError_validityFindings hd

end Ownership
