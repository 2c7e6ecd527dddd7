import Ownership.Proofs.Loan.Termination
import Ownership.Proofs.Move.Termination
import Ownership.Proofs.Region.Faults
import Ownership.Proofs.Region.Termination
import Ownership.Proofs.Verdict.Stages

/-!
What the reader accepts, the checker survives. Every stage of the analysis of a function of a
program text comes to an end, finds all that it looks up, and fails only with a breach of
contract or at a configured limit, which reject that function alone. The one other fault is the
use by value of a part of something that is no variable.
-/
namespace Ownership

open Outcome

mutual

theorem lowerStmt_failsOnly : ∀ (x : Stmt) {c : Surroundings} {d : Draft}, FailsOnly Fault.IsBreach (lowerStmt c x d)
  | .declare .., _, _ | .assign .., _, _ | .eval .., _, _ | .ret .., _, _ => .ok _
  | .block body, _, _ => lowerBlock_failsOnly body
  | .branch _ yes no _, _, _ =>
    (lowerBlock_failsOnly yes).bind fun _ _ => (lowerOptional_failsOnly no).bind fun _ _ => .ok _
  | .loop body _, _, _ => (lowerBlock_failsOnly body).bind fun _ _ => .ok _
  | .breakLoop _, c, _ | .continueLoop _, c, _ => by
    rw [lowerStmt, lowerStmtBy]
    cases c.loops with
    | nil => exact .breach
    | cons l rest => exact .ok _
  | .select scrutinee arms _, _, _ => by
    rw [lowerStmt, lowerStmtBy]
    refine FailsOnly.ite (fun _ => ?_) fun _ => .breach_bind
    refine FailsOnly.ite (fun _ => .breach_bind) fun _ => ?_
    exact (lowerArms_failsOnly arms).bind fun _ _ => .ok _
  | .storageDead .., _, _ | .foreign, _, _ => .breach

theorem lowerStmts_failsOnly : ∀ (xs : List Stmt) {c : Surroundings} {d : Draft},
    FailsOnly Fault.IsBreach (lowerStmts c xs d)
  | [], _, _ => .ok _
  | x :: rest, _, _ => (lowerStmt_failsOnly x).bind fun _ _ => lowerStmts_failsOnly rest

theorem lowerBlock_failsOnly : ∀ (b : Block) {c : Surroundings} {d : Draft},
    FailsOnly Fault.IsBreach (lowerBlock c b d)
  | .mk statements _, _, _ => (lowerStmts_failsOnly statements).bind fun _ _ => .ok _

theorem lowerOptional_failsOnly : ∀ (b : Option Block) {c : Surroundings} {d : Draft},
    FailsOnly Fault.IsBreach (lowerOptional c b d)
  | none, _, _ => .ok _
  | some b, _, _ => lowerBlock_failsOnly b

theorem lowerArms_failsOnly : ∀ (arms : List Arm) {c : Surroundings} {scrutinee : Expr} {join start : Nat} {d : Draft},
    FailsOnly Fault.IsBreach (lowerArms c scrutinee join start arms d)
  | [], _, _, _, _, _ => .ok _
  | .mk variant body bindings loc :: rest, _, _, _, _, _ => by
    rw [lowerArms, lowerArmsBy]
    refine FailsOnly.ite (fun _ => .breach_bind) fun _ => ?_
    exact (lowerBlock_failsOnly body).bind fun _ _ => lowerArms_failsOnly rest

end

theorem Function.graph_failsOnly (f : Function) : FailsOnly Fault.IsBreach f.graph :=
  (lowerStmts_failsOnly f.body.statements).bind fun _ _ => .ok _

/-- A source whose region depends on the result of the call at a site. -/
inductive Source.Mentions : Source → Site → Prop where
  | call (site : Site) : Mentions (.call site) site
  | part {whole site : Site} {parts : List Value} {part : Value} {src : Source} (hpart : part ∈ parts)
      (hsrc : src ∈ part) (h : Mentions src site) : Mentions (.aggregate whole parts) site

/-- The sources of all that a point stores or passes on. -/
def Effects.sources (fx : Effects) : List Source :=
  fx.flows.flatMap Flow.value ++ (fx.calls.flatMap CallSite.args).flatten

/-- What the analyses of a function look up is there: blocks in the graph, calls at their sites, the
bindings that hold a region, and what moves and loans know of the start of a block. -/
structure Context.Finds (cx : Context) (limit : Option Int) (g : Graph) (fx : EffectMap) : Prop where
  blocks : ∀ b ∈ g.reachable, b < g.blocks.length
  calls : ∀ p ∈ g.allPoints, ∀ src ∈ (fx.get p).sources, ∀ site, src.Mentions site →
    ∃ c ∈ (fx.get site.point).calls, c.site = site
  holders : ∀ frame live, cx.declareUniversals cx.ownSignature = .ok frame → cx.liveness g fx limit = .ok live →
    ∀ id ∈ (cx.declareLocals live.tracked frame).holders.keys, ∃ b, cx.function.bindings.get? id = some b
  moves : ∀ starts budget, (MoveProblem.ofEffects cx.function g fx).solve limit = .ok (starts, budget) →
    ∀ b ∈ g.reachable, ∃ s, starts.get? b = some s
  loans : ∀ (sol : RegionSolution) starts budget,
    (LoanProblem.ofSolution g fx sol).solve limit = .ok (starts, budget) →
      ∀ b ∈ g.reachable, ∃ s, starts.get? b = some s

theorem Grounded.call_of_mentions {cx : Context} {w : Walk} {src : Source} {site : Site} (hm : src.Mentions site)
    (hs : Grounded cx w src) : ∃ c ∈ w.effects.calls, c.site = site := by
  induction hm with
  | call site =>
    cases hs with
    | call hc hsite => exact ⟨_, hc, hsite⟩
  | part hpart hsrc _ ih =>
    cases hs with
    | aggregate hparts => exact ih (hparts _ hpart _ hsrc)

/-- What is passed along every edge from the entry on comes to all blocks that can be reached. -/
theorem Graph.known_of_passed {σ : Type} {g : Graph} (hg : g.Pruned) {starts : OrderedMap Nat σ}
    (hentry : ∃ s, starts.get? g.entry = some s)
    (hpassed : ∀ b s, starts.get? b = some s → ∀ c ∈ (g.successors b).filter g.isReachable,
      ∃ t, starts.get? c = some t) {b : Nat} (hb : b ∈ g.reachable) : ∃ s, starts.get? b = some s := by
  refine (reachable_induction (fun b => b ∈ g.reachable ∧ ∃ s, starts.get? b = some s)
    ⟨g.entry_mem_reachable, hentry⟩ (fun a c ⟨ha, s, hs⟩ hc => ?_) hb).2
  have hreach := successors_reachable ha hc
  exact ⟨hreach, hpassed a s hs c (List.mem_filter.mpr ⟨hc, hg c hreach⟩)⟩

namespace Context

variable {cx : Context}

theorem finds (hbound : cx.function.WellBound) {limit : Option Int} {g : Graph} {fx : EffectMap}
    (hg : cx.function.graph = .ok g) (hfx : cx.effects g = .ok fx) : cx.Finds limit g fx := by
  obtain ⟨rank, hrank⟩ := Function.graph_ranked hg
  have hpruned := Graph.pruned_of_graph hg
  refine ⟨fun b hb => hrank.reachable_lt (Function.graph_entry_lt hg) hb, fun p hp src hsrc site hm => ?_,
    fun frame live hframe _ id hid => ?_, fun starts budget hsolve b hb => ?_, fun sol starts budget hsolve b hb => ?_⟩
  · obtain ⟨w, rfl, hget, hw⟩ := effects_collected hfx hp
    rw [hget] at hsrc
    have hground : Grounded cx w src := by
      rcases List.mem_append.mp hsrc with hsrc | hsrc
      · obtain ⟨f, hf, hsrc⟩ := List.mem_flatMap.mp hsrc
        exact hw.values f hf src hsrc
      · obtain ⟨arg, harg, hsrc⟩ := List.mem_flatten.mp hsrc
        obtain ⟨c, hc, harg⟩ := List.mem_flatMap.mp harg
        exact hw.args c hc arg harg src hsrc
    obtain ⟨c, hc, rfl⟩ := hground.call_of_mentions hm
    exact ⟨c, by rw [hw.calls c hc, hget]; exact hc, rfl⟩
  · obtain ⟨⟨id, v⟩, hentry, rfl⟩ := List.mem_map.mp hid
    exact declareLocals_bears (declareUniversals_bears hbound hframe) live.tracked id v
      (OrderedMap.get?_eq_some_of_mem hentry)
  · have hset := MoveProblem.solve_settled (m := MoveProblem.ofEffects cx.function g fx) rfl hsolve
    obtain ⟨s, hs, _⟩ := hset.entry
    refine Graph.known_of_passed hpruned ⟨s, hs⟩ (fun a s hs c hc => ?_) hb
    obtain ⟨t, ht, _⟩ := hset.passed a s hs c hc
    exact ⟨t, ht⟩
  · have hset := LoanProblem.solve_settled rfl hsolve
    refine Graph.known_of_passed hpruned hset.entry (fun a s hs c hc => ?_) hb
    obtain ⟨t, ht, _⟩ := hset.passed a s hs c hc
    exact ⟨t, ht⟩

end Context

/-- The faults that checking a function may end with. -/
inductive Function.MayFail (f : Function) (limit : Option Int) : Fault → Prop where
  | breach {fault : Fault} (h : fault.IsBreach) : MayFail f limit fault
  | limit {analysis : String} {n : Int} (h : limit = some n) : MayFail f limit (.limit analysis n)
  | part (h : f.UsesPartOfValue) : MayFail f limit .projectionOfValue

theorem Outcome.FailsOnly.mayFail {α : Type} {x : Except Fault α} (h : FailsOnly Fault.IsBreach x) {f : Function}
    {limit : Option Int} : FailsOnly (f.MayFail limit) x :=
  h.imp fun _ => .breach

namespace Context

variable {cx : Context} {config : Config}

theorem effects_of_analysis {g : Graph} {fx : EffectMap} (hg : (cx.analysis config).graph = .ok g)
    (hfx : (cx.analysis config).effects = .ok fx) : cx.effects g = .ok fx := by
  rw [analysis_effects, hg] at hfx
  exact hfx

theorem liveness_of_analysis {g : Graph} {fx : EffectMap} {live : Liveness}
    (hg : (cx.analysis config).graph = .ok g) (hfx : (cx.analysis config).effects = .ok fx)
    (hlive : (cx.analysis config).liveness = .ok live) : cx.liveness g fx config.maxIterations = .ok live := by
  rw [analysis_liveness, hg, hfx] at hlive
  obtain ⟨_, _, hlive⟩ := bind_eq_ok.mp hlive
  exact hlive

section

variable (h : cx.Typed)

include h

theorem graph_mayFail : FailsOnly (cx.function.MayFail config.maxIterations) (cx.analysis config).graph :=
  ((Signature.validate_failsOnly h.ownSignature h.founded).bind fun _ _ => cx.function.graph_failsOnly).mayFail

theorem effects_mayFail : FailsOnly (cx.function.MayFail config.maxIterations) (cx.analysis config).effects := by
  rw [analysis_effects]
  refine (graph_mayFail h).bind fun g hg => (effects_failsOnly h g).imp ?_
  rintro fault (hbreach | ⟨rfl, e, he, hpart⟩)
  · exact .breach hbreach
  · obtain ⟨p, hp, he⟩ := List.mem_flatMap.mp he
    exact .part ⟨g, graph_of_analysis hg, p, hp, e, he, hpart⟩

theorem frame_mayFail : FailsOnly (cx.function.MayFail config.maxIterations) (cx.analysis config).frame := by
  rw [analysis_frame]
  exact (effects_mayFail h).bind fun _ _ => (declareUniversals_failsOnly h h.ownSignature).mayFail

theorem liveness_mayFail : FailsOnly (cx.function.MayFail config.maxIterations) (cx.analysis config).liveness := by
  rw [analysis_liveness]
  refine (frame_mayFail h).bind fun _ _ => (graph_mayFail h).bind fun g hg => (effects_mayFail h).bind fun fx _ => ?_
  exact liveness_failsOnly (graph_of_analysis hg) ((trackedLocals_neverFails h).imp fun _ => False.elim)
    fun _ => .limit

/-- A binding is live before points of the graph only, so extents grow inside its points. -/
theorem solution_mayFail : FailsOnly (cx.function.MayFail config.maxIterations) (cx.analysis config).solution := by
  rw [analysis_solution]
  refine (graph_mayFail h).bind fun g hg => (effects_mayFail h).bind fun fx hfx => (frame_mayFail h).bind fun r _ =>
    (liveness_mayFail h).bind fun live hlive => ?_
  refine (extentProblem_failsOnly h (effects_of_analysis hg hfx) r live).mayFail.bind fun problem hproblem => ?_
  refine ExtentProblem.solution_failsOnly (fun b p hp => ?_) fun _ => .limit
  simp only [extentProblem, bind_eq_ok, pure_eq, Except.ok.injEq] at hproblem
  obtain ⟨_, _, rfl⟩ := hproblem
  exact pointsOf_subset (graph_of_analysis hg) (liveness_of_analysis hg hfx hlive) hp

theorem moves_mayFail : FailsOnly (cx.function.MayFail config.maxIterations) (cx.analysis config).moves := by
  rw [analysis_moves]
  refine (solution_mayFail h).bind fun _ _ => (graph_mayFail h).bind fun g hg =>
    (effects_mayFail h).bind fun fx hfx => ?_
  exact trackMoves_failsOnly (graph_of_analysis hg) (effects_of_analysis hg hfx) fun _ => .limit

theorem loans_mayFail : FailsOnly (cx.function.MayFail config.maxIterations) (cx.analysis config).loans := by
  rw [analysis_loans]
  refine (moves_mayFail h).bind fun _ _ => (graph_mayFail h).bind fun g hg =>
    (effects_mayFail h).bind fun fx hfx => (solution_mayFail h).bind fun sol _ => ?_
  obtain ⟨rank, hrank⟩ := Function.graph_ranked (graph_of_analysis hg)
  exact trackLoans_failsOnly hrank.inside fun _ => .limit

/-- The analyses of a function come to an end, and fail only as they may. -/
theorem accept_mayFail :
    FailsOnly (cx.function.MayFail config.maxIterations) (cx.accept (cx.analysis config) config) := by
  refine FailsOnly.bind ?_ fun _ _ => (solution_mayFail h).bind fun _ _ =>
    (graph_mayFail h).bind fun _ _ => .ok _
  refine (graph_mayFail h).bind fun _ _ => (moves_mayFail h).bind fun _ _ =>
    (loans_mayFail h).bind fun _ _ => FailsOnly.bind ?_ fun _ _ => .ok _
  rw [analysis_validity]
  exact (effects_mayFail h).bind fun _ _ => (solution_mayFail h).bind fun _ _ =>
    (loans_mayFail h).bind fun _ _ => .ok _

end

/-- A function whose analyses come to their end is accepted just if they report no error. -/
theorem accepted_of_accept {v : Verdict} (h : cx.accept (cx.analysis config) config = .ok v) :
    v.name = cx.function.name ∧ (v.accepted = true ↔ v.contractError = none ∧ v.diagnostics = []) := by
  simp only [accept, bind_eq_ok, pure_eq, Except.ok.injEq] at h
  obtain ⟨report, _, sol, _, g, _, rfl⟩ := h
  simp

theorem verdict_spec {v : Verdict} {log : List LogLine} (h : cx.verdict config = .ok (v, log)) :
    v.name = cx.function.name ∧ (v.accepted = true ↔ v.contractError = none ∧ v.diagnostics = []) := by
  unfold verdict at h
  simp only at h
  split at h
  · rename_i w hw
    simp only [Except.ok.injEq, Prod.mk.injEq] at h
    exact h.1 ▸ accepted_of_accept hw
  · split at h
    · simp only [Except.ok.injEq, Prod.mk.injEq] at h
      simp [← h.1, reject]
    · cases h

/-- Only the use of a part of a value ends the checking of other functions too. -/
theorem verdict_failsOnly (h : cx.Typed) :
    FailsOnly (fun fault => fault = .projectionOfValue ∧ cx.function.UsesPartOfValue) (cx.verdict config) := by
  unfold verdict
  simp only
  cases haccept : cx.accept (cx.analysis config) config with
  | ok v => exact .ok _
  | error fault =>
    refine FailsOnly.ite (fun _ => .ok _) fun hlocal => .error ?_
    cases accept_mayFail h fault haccept with
    | breach hbreach =>
      obtain ⟨cause, loc, rfl⟩ := hbreach
      exact absurd rfl hlocal
    | limit => exact absurd rfl hlocal
    | part hpart => exact ⟨rfl, hpart⟩

end Context

namespace Program

variable {p : Program} {config : Config}

theorem names_prepare (p : Program) : p.prepare.functions.map Function.name = p.functions.map Function.name :=
  (List.map_map ..).trans rfl

/-- There is one verdict for each function, in the order of the program. -/
theorem verify_spec {v : ProgramVerdict} (h : p.verify config = .ok v) :
    v.functions.map Verdict.name = p.functions.map Function.name ∧
      ∀ r ∈ v.functions, (r.accepted = true ↔ r.contractError = none ∧ r.diagnostics = []) := by
  simp only [verify, bind_eq_ok, pure_eq, Except.ok.injEq] at h
  obtain ⟨table, _, results, hresults, rfl⟩ := h
  refine ⟨?_, fun r hr => ?_⟩
  · rw [List.map_map, ← p.names_prepare]
    exact map_of_mapM hresults fun f _ r hr => (Context.verdict_spec hr).1
  · obtain ⟨⟨r, log⟩, hmem, rfl⟩ := List.mem_map.mp hr
    obtain ⟨f, _, hverdict⟩ := (mapM_eq_ok hresults).2 _ hmem
    exact (Context.verdict_spec hverdict).2

theorem Typed.verify_failsOnly (h : p.Typed) :
    FailsOnly (fun fault => fault = .projectionOfValue ∧ ∃ f ∈ p.prepare.functions, f.UsesPartOfValue)
      (p.verify config) := by
  refine FailsOnly.bind (.of_eq_ok h.signatures) fun table htable => ?_
  refine FailsOnly.bind (.mapM fun f hf => ?_) fun _ _ => .ok _
  exact (Context.verdict_failsOnly (h.context htable hf)).imp
    fun fault ⟨hfault, hpart⟩ => ⟨hfault, f, hf, hpart⟩

end Program

/-- Whatever the reader accepts, the checker survives. No name has two signatures. The analyses of a
function find what they look up, come to an end, and fail only with a breach of contract, at the
configured limit, or where code that can be reached uses by value a part of what is no variable.
Only the last ends the whole check; otherwise each function gets its verdict, in the order of the
program, and is accepted just if there is neither a breach nor an error to report. -/
theorem verify_survives {text : String} {file : Option String} {p : Program} (hread : readProgram text file = .ok p)
    (config : Config) :
    ∃ table, p.signatures = .ok table ∧
      (∀ f ∈ p.prepare.functions,
        FailsOnly (f.MayFail config.maxIterations)
          ((p.prepare.context table f).accept ((p.prepare.context table f).analysis config) config) ∧
        ∀ g fx, f.graph = .ok g → (p.prepare.context table f).effects g = .ok fx →
          (p.prepare.context table f).Finds config.maxIterations g fx) ∧
      ((∃ v, p.verify config = .ok v ∧ v.functions.map Verdict.name = p.functions.map Function.name ∧
          ∀ r ∈ v.functions, (r.accepted = true ↔ r.contractError = none ∧ r.diagnostics = [])) ∨
        p.verify config = .error .projectionOfValue ∧ ∃ f ∈ p.prepare.functions, f.UsesPartOfValue) := by
  have htyped := readProgram_typed hread
  obtain ⟨table, htable⟩ : ∃ table, p.signatures = .ok table := ⟨_, htyped.signatures⟩
  have hbound : ∀ f ∈ p.prepare.functions, f.WellBound := by
    intro f hf
    obtain ⟨f₀, hf₀, rfl⟩ := List.mem_map.mp hf
    exact ((readProgram_spec hread).2 f₀ hf₀).withReturnSlot _
  refine ⟨table, htable, fun f hf => ⟨?_, fun g fx hg hfx => ?_⟩, ?_⟩
  · exact Context.accept_mayFail (htyped.context htable hf)
  · exact Context.finds (hbound f hf) hg hfx
  · cases hverify : p.verify config with
    | ok v => exact .inl ⟨v, rfl, Program.verify_spec hverify⟩
    | error fault =>
      obtain ⟨rfl, hpart⟩ := htyped.verify_failsOnly fault hverify
      exact .inr ⟨rfl, hpart⟩

/-- A text with a function of this body, and the signature of one that returns a reference. -/
def besideRefer (body : String) : String :=
  "extern fn g() -> &'static Int; fn f() -> Int \x7b " ++ body ++ " \x7d"

/-- To read what the result of a call refers to ends the check, unless that code cannot be reached. -/
theorem verify_survives_besideRefer :
    (∃ p v, readProgram (besideRefer "return 1; *g();") none = .ok p ∧ p.verify {} = .ok v ∧
        v.functions.map Verdict.name = ["f"]) ∧
      ∃ p, readProgram (besideRefer "return *g();") none = .ok p ∧ p.verify {} = .error .projectionOfValue ∧
        ∃ f ∈ p.prepare.functions, f.UsesPartOfValue := by
  have hdead : (readProgram (besideRefer "return 1; *g();") none).toOption.map
      (fun p => (p.functions.map Function.name, (p.verify {}).toOption.isSome)) = some (["f"], true) := by
    decide +kernel
  have hlive : (readProgram (besideRefer "return *g();") none).toOption.map
      (fun p => (p.verify {}).toOption.isSome) = some false := by
    decide +kernel
  constructor
  · obtain ⟨p, hread, hp⟩ := Option.map_eq_some_iff.mp hdead
    obtain ⟨hname, hends⟩ := Prod.mk.inj hp
    obtain ⟨_, _, _, ⟨v, hv, hnames, _⟩ | ⟨hfail, _⟩⟩ := verify_survives (eq_ok_of_toOption hread) {}
    · exact ⟨p, v, eq_ok_of_toOption hread, hv, hnames.trans hname⟩
    · rw [hfail] at hends
      cases hends
  · obtain ⟨p, hread, hstops⟩ := Option.map_eq_some_iff.mp hlive
    obtain ⟨_, _, _, ⟨v, hv, _⟩ | hpart⟩ := verify_survives (eq_ok_of_toOption hread) {}
    · rw [hv] at hstops
      cases hstops
    · exact ⟨p, eq_ok_of_toOption hread, hpart⟩

end Ownership
