import Ownership.Proofs.Region.Exact
import Ownership.Proofs.Verdict.Survival

/-!
A limit is a threshold. A search that nothing limits makes some number of steps; a limit
that allows them changes nothing, and a smaller one stops the search. The searches of a
function come one after the other, each with what those before it have found, so the
longest of them decides what a limit does to the verdict.
-/
namespace Ownership

open Outcome

namespace Budget

variable {σ : Type} {next : σ → Option σ} {s t : σ} {k : Nat} {b : Budget}

/-- The last state that so many steps lead to, unless there are fewer to make. -/
theorem exists_after (next : σ → Option σ) (fuel : Nat) (s : σ) :
    ∃ k rest t, fuel = k + rest ∧ after next k s = some t ∧ (next t = none ∨ rest = 0) := by
  induction fuel generalizing s with
  | zero => exact ⟨0, 0, s, rfl, rfl, .inr rfl⟩
  | succ fuel ih =>
    cases hn : next s with
    | none => exact ⟨0, fuel + 1, s, (Nat.zero_add _).symm, rfl, .inl hn⟩
    | some s' =>
      obtain ⟨k, rest, t, hfuel, hafter, hend⟩ := ih s'
      exact ⟨k + 1, rest, t, by omega, by rw [after, hn, Option.bind_some, hafter], hend⟩

/-- The first steps of a search are made, or the limit falls within them. -/
theorem settle_add (fuel : Nat) (h : after next k s = some t) (hb : b.exceeded = false) :
    settle next (k + fuel) b s =
      if b.limit.any (· < ((b.steps + k : Nat) : Int)) then .error (.limit b.analysis (b.limit.getD 0))
      else settle next fuel { b with steps := b.steps + k } t := by
  induction k generalizing s b with
  | zero =>
    obtain rfl := Option.some.inj h
    have hnot : ¬b.limit.any (· < ((b.steps + 0 : Nat) : Int)) = true := by
      rw [Nat.add_zero]
      exact Bool.eq_false_iff.mp hb
    rw [if_neg hnot, Nat.zero_add, Nat.add_zero]
  | succ k ih =>
    obtain ⟨s', hs', h⟩ := Option.bind_eq_some_iff.mp h
    rw [Nat.succ_add, settle]
    simp only [hs']
    split
    · rename_i hover
      have hwithin : b.limit.any (· < ((b.steps + (k + 1) : Nat) : Int)) = true := by
        obtain ⟨n, hn, hlt⟩ := (Option.any_eq_true _ _).mp hover
        refine (Option.any_eq_true _ _).mpr ⟨n, hn, ?_⟩
        have hlt : n < ((b.steps + 1 : Nat) : Int) := of_decide_eq_true hlt
        exact decide_eq_true (by omega)
      rw [if_pos hwithin]
      rfl
    · rename_i hunder
      have hsteps : b.tick.steps + k = b.steps + (k + 1) := by
        rw [tick_steps]
        omega
      rw [ih h (Bool.eq_false_iff.mpr hunder), hsteps]
      rfl

end Budget

/-- The names of the searches in the order in which they run. -/
def searchNames : List String := ["liveness", "region inference", "move tracking", "borrow lattice"]

/-- A limit leaves a computation as it is or stops one of its searches, and which of the two
it does depends on a number of steps alone: `cost` of the result, if there is one. -/
def Limited {α : Type} (cost : α → Nat) (x : Option Int → Except Fault α) : Prop :=
  ∃ least : Nat,
    (∀ n : Int, 1 ≤ n → (least ≤ n → x (some n) = x none) ∧
      (n < least → ∃ name ∈ searchNames, x (some n) = .error (.limit name n))) ∧
    ∀ a, x none = .ok a → least = cost a

namespace Limited

variable {α β σ : Type} {cost : α → Nat} {whole : β → Nat} {x : Option Int → Except Fault α}

/-- What no limit applies to may come first. -/
theorem of_free {y : Except Fault α} {f : α → Option Int → Except Fault β} (h : ∀ a, Limited whole (f a)) :
    Limited whole fun limit => y >>= (f · limit) := by
  cases y with
  | ok a => exact h a
  | error fault => exact ⟨0, fun n hn => ⟨fun _ => rfl, fun hlt => by omega⟩, fun b hb => by cases hb⟩

theorem of_ok (b : β) : Limited (fun _ => 0) fun _ => .ok b :=
  ⟨0, fun n hn => ⟨fun _ => rfl, fun hlt => by omega⟩, fun _ _ => rfl⟩

/-- Of two computations in a row the longer one counts, unless there is no second one. -/
theorem bind {f : α → Option Int → Except Fault β} (rest : β → Nat) (hx : Limited cost x)
    (hf : ∀ a, Limited rest (f a)) (hwhole : ∀ a b, f a none = .ok b → whole b = max (cost a) (rest b)) :
    Limited whole fun limit => x limit >>= (f · limit) := by
  obtain ⟨first, hfirst, hcost⟩ := hx
  unfold Limited
  beta_reduce
  cases hx : x none with
  | error fault =>
    refine ⟨first, fun n hn => ⟨fun hle => ?_, fun hlt => ?_⟩, fun b hb => ?_⟩
    · rw [(hfirst n hn).1 hle, hx]
      rfl
    · obtain ⟨name, hname, hstop⟩ := (hfirst n hn).2 hlt
      exact ⟨name, hname, by rw [hstop]; rfl⟩
    · cases hb
  | ok a =>
    obtain ⟨second, hsecond, hrest⟩ := hf a
    refine ⟨max first second, fun n hn => ⟨fun hle => ?_, fun hlt => ?_⟩, fun b hb => ?_⟩
    · rw [(hfirst n hn).1 (by omega), hx]
      exact (hsecond n hn).1 (by omega)
    · by_cases hstops : n < first
      · obtain ⟨name, hname, hstop⟩ := (hfirst n hn).2 hstops
        exact ⟨name, hname, by rw [hstop]; rfl⟩
      · obtain ⟨name, hname, hstop⟩ := (hsecond n hn).2 (by omega)
        exact ⟨name, hname, by rw [(hfirst n hn).1 (by omega), hx]; exact hstop⟩
    · rw [hwhole a b hb, hcost a hx, hrest b hb]

/-- A search, with what is made of its last state and of its number of steps. -/
theorem of_settle (next : σ → Option σ) (fuel : Nat) (s : σ) (name : String) (f : σ → Nat → α)
    (hname : name ∈ searchNames) (hcost : ∀ t k, cost (f t k) = k)
    (hx : ∀ limit, x limit =
      Budget.settle next fuel { analysis := name, limit := limit } s >>= fun r => .ok (f r.1 r.2.steps)) :
    Limited cost x := by
  obtain ⟨k, more, t, rfl, hafter, hend⟩ := Budget.exists_after next fuel s
  have hfree := Budget.settle_add more (b := { analysis := name, limit := none }) hafter rfl
  have hcapped : ∀ n : Int, 1 ≤ n → _ := fun n hn =>
    Budget.settle_add more (b := { analysis := name, limit := some n }) hafter
      (decide_eq_false (by simp only [Nat.cast_zero]; omega))
  simp only [Option.any_none, Option.any_some, Bool.false_eq_true, if_false, Nat.zero_add, decide_eq_true_eq,
    Option.getD_some] at hfree hcapped
  cases hn : next t with
  | none =>
    simp only [Budget.settle_of_done hn] at hfree hcapped
    refine ⟨k, fun n hn => ⟨fun hle => ?_, fun hlt => ⟨name, hname, ?_⟩⟩, fun a ha => ?_⟩
    · rw [hx, hx, hcapped n hn, hfree, if_neg (by omega)]
      rfl
    · rw [hx, hcapped n hn, if_pos hlt]
      rfl
    · rw [hx, hfree] at ha
      rw [← Except.ok.inj ha, hcost]
  | some u =>
    obtain rfl := hend.resolve_left (by simp [hn])
    have hlast : ∀ b : Budget, Budget.settle next 0 b t =
        if b.tick.exceeded then .error b.tick.fault else .error (.unsettled b.analysis) := by
      intro b
      rw [Budget.settle, hn]
    simp only [hlast] at hfree hcapped
    refine ⟨k + 1, fun n hn => ⟨fun hle => ?_, fun hlt => ⟨name, hname, ?_⟩⟩, fun a ha => ?_⟩
    · have hunder : ({ analysis := name, limit := some n, steps := k } : Budget).tick.exceeded = false :=
        decide_eq_false (by simp only [Budget.tick_steps]; omega)
      rw [hx, hx, hcapped n hn, hfree, if_neg (by omega), hunder]
      rfl
    · rw [hx, hcapped n hn]
      split
      · rfl
      · have hover : ({ analysis := name, limit := some n, steps := k } : Budget).tick.exceeded = true :=
          decide_eq_true (by simp only [Budget.tick_steps]; omega)
        rw [hover]
        rfl
    · rw [hx, hfree] at ha
      cases ha

end Limited

theorem Context.liveness_limited (cx : Context) (g : Graph) (fx : EffectMap) :
    Limited Liveness.steps (cx.liveness g fx) := by
  refine .of_free fun tracked => ?_
  let l : LiveProblem := { graph := g, effects := fx, tracked := tracked }
  exact .of_settle l.next l.stepBound l.start "liveness"
    (fun t k => { tracked := tracked, live := t.live, steps := k })
    (by simp [searchNames]) (fun _ _ => rfl) fun _ => rfl

theorem ExtentProblem.solution_limited (e : ExtentProblem) (f : Function) :
    Limited RegionSolution.steps (e.solution f) :=
  .of_settle (ExtentSearch.next e.constraints) e.stepBound e.start "region inference"
    (fun t k =>
      { function := f
        frame := e.frame
        constraints := e.constraints
        extents := .tabulate t.extent (RegionVar.sort t.extents.keys)
        causes := t.causes.filter (·.2.isKnown)
        outlives := Outlives.closure f.regionParams (f.outlives ++ e.frame.implied)
        steps := k })
    (by simp [searchNames]) (fun _ _ => rfl) fun _ => rfl

theorem trackMoves_limited (g : Graph) (f : Function) (fx : EffectMap) :
    Limited MoveResult.visits (trackMoves g f fx) := by
  let m := MoveProblem.ofEffects f g fx
  refine .of_settle m.next m.visitBound m.start "move tracking"
    (fun t k =>
      { states := m.statesBefore t.states
        findings := (m.statesBefore t.states).flatMap fun x => m.objections (fx.accesses x.1) x.2
        visits := k })
    (by simp [searchNames]) (fun _ _ => rfl) fun limit => ?_
  simp only [trackMoves, trackMovesBy, MoveProblem.solveBy, bind_assoc]
  rfl

theorem trackLoans_limited (g : Graph) (fx : EffectMap) (sol : RegionSolution) :
    Limited LoanResult.visits (trackLoans g fx sol) := by
  let l := LoanProblem.ofSolution g fx sol
  refine .of_settle l.next l.visitBound l.start "borrow lattice"
    (fun t k =>
      { loans := l.loans
        inScope := l.scopes t.states
        findings := (l.scopes t.states).flatMap fun x => clashes (fx.accesses x.1) x.2
        visits := k })
    (by simp [searchNames]) (fun _ _ => rfl) fun limit => ?_
  simp only [trackLoans, LoanProblem.solve, bind_assoc]
  rfl

/-- The steps of the longest search. -/
def Stages.longest (s : Stages) : Nat :=
  max s.liveness.steps (max s.solution.steps (max s.moves.visits s.loans.visits))

namespace Context

/-- The stages up to the loans, one after the other. -/
def stages (cx : Context) (limit : Option Int) : Except Fault Stages := do
  cx.ownSignature.validate cx.types
  let graph ← cx.function.graph
  let effects ← cx.effects graph
  let frame ← cx.declareUniversals cx.ownSignature
  let liveness ← cx.liveness graph effects limit
  let problem ← cx.extentProblem graph effects frame liveness
  let solution ← problem.solution cx.function limit
  let moves ← trackMoves graph cx.function effects limit
  let loans ← trackLoans graph effects solution limit
  return { graph, effects, frame, liveness, problem, solution, moves, loans }

theorem stages_limited (cx : Context) : Limited Stages.longest cx.stages := by
  refine .of_free fun _ => .of_free fun g => .of_free fun fx => .of_free fun frame => ?_
  refine .bind (fun s => max s.solution.steps (max s.moves.visits s.loans.visits)) (cx.liveness_limited g fx)
    (fun live => .of_free fun problem => ?_) fun live s hs => ?_
  · refine .bind (fun s => max s.moves.visits s.loans.visits) (problem.solution_limited cx.function)
      (fun sol => ?_) fun sol s hs => ?_
    · refine .bind (fun s => s.loans.visits) (trackMoves_limited g cx.function fx)
        (fun moves => ?_) fun moves s hs => ?_
      · refine .bind (fun _ => 0) (trackLoans_limited g fx sol) (fun loans => .of_ok _) fun loans s hs => ?_
        obtain rfl := Except.ok.inj hs
        exact (Nat.max_zero _).symm
      · obtain ⟨_, _, hs⟩ := bind_eq_ok.mp hs
        obtain rfl := Except.ok.inj hs
        rfl
    · simp only [bind_eq_ok] at hs
      obtain ⟨_, _, _, _, hs⟩ := hs
      obtain rfl := Except.ok.inj hs
      rfl
  · simp only [bind_eq_ok] at hs
    obtain ⟨_, _, _, _, _, _, _, _, hs⟩ := hs
    obtain rfl := Except.ok.inj hs
    rfl

end Context

/-- The verdict on a function whose stages came to their end. -/
def Stages.verdict (s : Stages) (name : String) (reportUnreachable : Bool) : Verdict :=
  let dead := if reportUnreachable then unreachableFindings s.graph else []
  let report := ({} : Report).emitAll (s.moves.findings ++ s.loans.findings ++
    validityFindings s.effects s.solution s.loans.inScope ++ dead)
  { name := name
    accepted := report.errors.isEmpty
    diagnostics := report.errors
    warnings := report.warnings
    regions := s.solution.regionMap
    graph := some s.graph
    solution := some s.solution }

theorem Context.accept_eq_stages (cx : Context) (config : Config) : cx.accept (cx.analysis config) config =
    (cx.stages config.maxIterations).map (·.verdict cx.function.name config.reportUnreachable) := by
  have hgraph : (cx.analysis config).graph =
      cx.ownSignature.validate cx.types >>= fun _ => cx.function.graph := rfl
  have hok {α β : Type} (a : α) (f : α → Except Fault β) : (Except.ok a >>= f) = f a := rfl
  simp only [accept, Analysis.report, analysis_validity, analysis_loans, analysis_moves, analysis_solution,
    analysis_liveness, analysis_frame, analysis_effects, hgraph, stages]
  cases cx.ownSignature.validate cx.types with
  | error fault => rfl
  | ok _ =>
  cases cx.function.graph with
  | error fault => rfl
  | ok g =>
  simp only [hok]
  cases cx.effects g with
  | error fault => rfl
  | ok fx =>
  simp only [hok]
  cases cx.declareUniversals cx.ownSignature with
  | error fault => rfl
  | ok frame =>
  simp only [hok]
  cases cx.liveness g fx config.maxIterations with
  | error fault => rfl
  | ok live =>
  simp only [hok]
  cases cx.extentProblem g fx frame live with
  | error fault => rfl
  | ok problem =>
  simp only [hok]
  cases problem.solution cx.function config.maxIterations with
  | error fault => rfl
  | ok sol =>
  simp only [hok]
  cases trackMoves g cx.function fx config.maxIterations with
  | error fault => rfl
  | ok moves =>
  simp only [hok]
  cases trackLoans g fx sol config.maxIterations with
  | error fault => rfl
  | ok loans => rfl

namespace Context

variable {cx : Context} {config : Config}

/-- The verdict on a function from what its stages come to. -/
def conclude (cx : Context) (reportUnreachable : Bool) : Except Fault Stages → Except Fault Verdict
  | .ok s => .ok (s.verdict cx.function.name reportUnreachable)
  | .error fault => if fault.isLocal then .ok (cx.reject fault) else .error fault

theorem verdict_eq_stages (cx : Context) (config : Config) :
    (cx.verdict config).map Prod.fst = cx.conclude config.reportUnreachable (cx.stages config.maxIterations) := by
  simp only [verdict, accept_eq_stages]
  cases cx.stages config.maxIterations with
  | ok s => rfl
  | error fault => cases fault <;> rfl

theorem exists_verdict_iff (config : Config) {w : Verdict} : (∃ log, cx.verdict config = .ok (w, log)) ↔
    cx.conclude config.reportUnreachable (cx.stages config.maxIterations) = .ok w := by
  rw [← verdict_eq_stages]
  cases cx.verdict config with
  | error fault => simp [Except.map]
  | ok r => simp [Except.map, Prod.ext_iff]

/-- A function that is rejected without a limit has broken its contract: no search goes on for ever. -/
theorem breach_of_contractError (htyped : cx.Typed)
    (hlimit : config.maxIterations = none) {v : Verdict} {log : List LogLine}
    (h : cx.verdict config = .ok (v, log)) (hfail : v.contractError.isSome = true) :
    ∃ fault : Fault, fault.IsBreach ∧ v = cx.reject fault := by
  have hv := (exists_verdict_iff config).mp ⟨log, h⟩
  have hmay : FailsOnly (cx.function.MayFail config.maxIterations) (cx.accept (cx.analysis config) config) :=
    accept_mayFail htyped
  rw [accept_eq_stages, hlimit] at hmay
  rw [hlimit] at hv
  cases hs : cx.stages none with
  | ok s =>
    rw [hs] at hv
    rw [← Except.ok.inj hv] at hfail
    cases hfail
  | error fault =>
    rw [hs] at hv hmay
    cases hmay fault rfl with
    | breach hbreach =>
      obtain ⟨cause, loc, rfl⟩ := hbreach
      exact ⟨_, ⟨cause, loc, rfl⟩, (Except.ok.inj hv).symm⟩
    | limit hnone => cases hnone
    | part _ => cases hv

end Context

/-- A limit on the searches is a threshold. Where a function has a verdict without a limit, some number
of steps is enough for it: under every limit from there on the verdict is the same, and under every
smaller one the function is rejected for the search that was stopped, with nothing else reported.
If the stages come to their end, the number is that of the longest search. Without a limit no search
of a typed function is stopped. -/
theorem limit_threshold {cx : Context} (config : Config) {v : Verdict} {log : List LogLine}
    (h : cx.verdict { config with maxIterations := none } = .ok (v, log)) :
    ∃ least : Nat, 1 ≤ least ∧
      (∀ n : Int, 1 ≤ n → ∃ w log', cx.verdict { config with maxIterations := some n } = .ok (w, log') ∧
        (least ≤ n → w = v) ∧
        (n < least → w.accepted = false ∧ w.diagnostics = [] ∧ w.warnings = [] ∧ w.regions = {} ∧
          ∃ name ∈ searchNames, w.contractError = some (Fault.limit name n).message)) ∧
      (∀ s, cx.stages none = .ok s → least = max 1 s.longest) ∧
      (cx.Typed → v.contractError.isSome = true →
        ∃ fault : Fault, fault.IsBreach ∧ v = cx.reject fault) := by
  obtain ⟨least, hleast, hcost⟩ := cx.stages_limited
  have hv := (Context.exists_verdict_iff { config with maxIterations := none }).mp ⟨log, h⟩
  refine ⟨max 1 least, Nat.le_max_left .., fun n hn => ?_, fun s hs => by rw [hcost s hs], fun htyped =>
    Context.breach_of_contractError htyped rfl h⟩
  obtain ⟨hsame, hstops⟩ := hleast n hn
  by_cases hle : (least : Int) ≤ n
  · obtain ⟨log', hw⟩ := (Context.exists_verdict_iff { config with maxIterations := some n }).mpr
      (by rw [hsame hle]; exact hv)
    exact ⟨v, log', hw, fun _ => rfl, fun hlt => by omega⟩
  · obtain ⟨name, hname, hstop⟩ := hstops (by omega)
    obtain ⟨log', hw⟩ := (Context.exists_verdict_iff { config with maxIterations := some n }).mpr
      (by rw [hstop]; rfl)
    exact ⟨_, log', hw, fun hle' => by omega, fun _ => ⟨rfl, rfl, rfl, rfl, name, hname, rfl⟩⟩

/-- Its longest search makes nine steps, so one step less is too few and the verdict stays as it is from there. -/
theorem limit_threshold_renew :
    ∃ v log, renew.verdict {} = .ok (v, log) ∧ v.accepted = true ∧
      (∃ w log', renew.verdict { maxIterations := some 9 } = .ok (w, log') ∧ w = v) ∧
      ∃ w log', renew.verdict { maxIterations := some 8 } = .ok (w, log') ∧ w.accepted = false ∧
        w.diagnostics = [] ∧ ∃ name ∈ searchNames, w.contractError = some (Fault.limit name 8).message := by
  have hverdict : (renew.verdict {}).toOption.map (·.1.accepted) = some true := by decide +kernel
  have hstages : (renew.stages none).toOption.map Stages.longest = some 9 := by decide +kernel
  obtain ⟨⟨v, log⟩, hv, haccepted⟩ := Option.map_eq_some_iff.mp hverdict
  obtain ⟨s, hs, hlongest⟩ := Option.map_eq_some_iff.mp hstages
  obtain ⟨least, _, hlimit, hleast, _⟩ := limit_threshold {} (eq_ok_of_toOption hv)
  have hnine : least = 9 := (hleast s (eq_ok_of_toOption hs)).trans (by rw [hlongest]; rfl)
  subst hnine
  obtain ⟨w, log₉, hw, hsame, _⟩ := hlimit 9 (by decide)
  obtain ⟨u, log₈, hu, _, hstop⟩ := hlimit 8 (by decide)
  obtain ⟨hrejected, hnone, _, _, hname⟩ := hstop (by decide)
  exact ⟨v, log, eq_ok_of_toOption hv, haccepted, ⟨w, log₉, hw, hsame (by decide)⟩, u, log₈, hu, hrejected, hnone,
    hname⟩

end Ownership
