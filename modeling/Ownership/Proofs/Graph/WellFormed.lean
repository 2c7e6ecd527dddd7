import Ownership.Proofs.Graph.Nesting

/-!
Well-formed graphs. Every block of a lowered function ends, and is given its end
once; the entry, the exit and the headers of loops have the edges they should
have. Lowering fails only for statements that are wrong where they stand.
-/
namespace Ownership

open Outcome

namespace Graph

variable {g : Graph}

/-- The blocks, their ends and their edges are as they should be. -/
structure WellFormed (g : Graph) : Prop where
  numbered : ∀ b < g.blocks.length, (g.block b).id = b
  ended : ∀ b < g.blocks.length, (g.block b).terminator.isSome = true
  inside : ∀ b, ∀ t ∈ g.successors b, t < g.blocks.length
  exit : g.exit < g.blocks.length ∧ ∀ b < g.blocks.length,
    (g.successors b = [] ↔ b = g.exit) ∧ ((g.block b).terminator.map Terminator.kind = some .ret ↔ b = g.exit)
  entry : g.entry < g.blocks.length ∧ g.predecessors g.entry = []
  header : ∀ h < g.blocks.length, (g.block h).loopHeader = true →
    (g.block h).statements = [] ∧ ∃ body, g.successors h = [body] ∧ g.predecessors body = [h]
  edges : ∀ u v, (g.predecessors v).count u = (g.successors u).count v

theorem filterMap_eq_replicate (u v : Nat) (xs : List Nat) :
    (xs.filterMap fun x => if x = v then some u else none) = List.replicate (xs.count v) u := by
  induction xs with
  | nil => rfl
  | cons x xs ih =>
    by_cases hx : x = v
    · simp [hx, ih, List.replicate_succ]
    · simp [hx, ih]

theorem count_flatMap_replicate (n u : Nat) (k : Nat → Nat) :
    ((List.range n).flatMap fun x => List.replicate (k x) x).count u = if u < n then k u else 0 := by
  induction n with
  | zero => rfl
  | succ n ih =>
    rw [List.range_succ, List.flatMap_append, List.count_append, ih, List.flatMap_singleton, List.count_replicate]
    rcases Nat.lt_trichotomy u n with hlt | rfl | hgt
    · simp [hlt, Nat.ne_of_gt hlt, Nat.lt_succ_of_lt hlt]
    · simp
    · simp [Nat.not_lt_of_gt hgt, Nat.ne_of_lt hgt, Nat.not_lt.mpr hgt]

/-- A block is listed among the predecessors of another once for each edge to it. -/
theorem count_predecessors (g : Graph) (u v : Nat) : (g.predecessors v).count u = (g.successors u).count v := by
  simp only [predecessors, filterMap_eq_replicate]
  rw [count_flatMap_replicate]
  split
  · rfl
  · rename_i hout
    rw [successors_of_stray (Nat.not_lt.mp hout), List.count_nil]

theorem predecessors_eq_nil {v : Nat} (h : ∀ u, v ∉ g.successors u) : g.predecessors v = [] := by
  refine List.eq_nil_iff_forall_not_mem.mpr fun u hu => ?_
  rw [← List.count_pos_iff, count_predecessors, List.count_pos_iff] at hu
  exact h u hu

theorem predecessors_eq_singleton {u v : Nat} (hu : g.successors u = [v]) (hsole : ∀ a, v ∈ g.successors a → a = u) :
    g.predecessors v = [u] := by
  refine List.perm_singleton.mp (List.perm_iff_count.mpr fun a => ?_)
  rw [count_predecessors]
  by_cases ha : a = u
  · rw [ha, hu]
    simp
  · rw [List.count_eq_zero_of_not_mem fun hin => ha (hsole a hin),
      List.count_eq_zero_of_not_mem fun hin => ha (List.mem_singleton.mp hin)]

theorem Charted.wellFormed {m : Nat → Plot} (hg : g.Charted m) (hids : ∀ b, (g.block b).id = b)
    (hentry : g.entry < g.blocks.length) (hexit : g.exit < g.blocks.length)
    (hlast : (g.block g.exit).terminator.map Terminator.kind = some .ret) (hends : g.successors g.exit = []) :
    g.WellFormed where
  numbered b _ := hids b
  ended b hb := by
    obtain ⟨t, ht, _⟩ := hg.ended b hb
    rw [ht]
    rfl
  inside := hg.inside
  exit := by
    refine ⟨hexit, fun b hb => ?_⟩
    obtain ⟨t, ht, hcase⟩ := hg.ended b hb
    by_cases hsame : b = g.exit
    · simp [hsame, hlast, hends]
    · obtain ⟨hkind, hedges⟩ := hcase.resolve_left hsame
      simp [successors, BasicBlock.successors, ht, hkind, hedges, hsame]
  entry := ⟨hentry, predecessors_eq_nil hg.entry⟩
  header h _ hflag := by
    obtain ⟨hempty, hsucc, hkept⟩ := hg.heads h hflag
    exact ⟨hempty, h + 1, hsucc, predecessors_eq_singleton hsucc fun a ha => (hg.leads a _ ha).sole h hkept⟩
  edges := g.count_predecessors

end Graph

theorem Function.graph_wellFormed {f : Function} {g : Graph} (h : f.graph = .ok g) : g.WellFormed := by
  obtain ⟨m, hg⟩ := graph_charted h
  obtain ⟨hret, _, _, last, _, _, hjump⟩ := graph_laid h
  have hedge : g.exit ∈ g.successors last.block := by
    rw [Graph.successors, BasicBlock.successors, hjump.terminator]
    exact List.mem_cons_self
  refine hg.wellFormed (graph_numbered h) (graph_entry_lt h) (hg.inside _ _ hedge) ?_ ?_
  · simp [hret.terminator]
  · simp [Graph.successors, BasicBlock.successors, hret.terminator]

open Draft

/-- What follows a step only has to agree where the step leads. -/
theorem Outcome.bind_congr_ok {ε α β : Type} {x : Except ε α} {k l : α → Except ε β}
    (h : ∀ a, x = .ok a → k a = l a) : (x >>= k) = (x >>= l) := by
  cases x with
  | error e => rfl
  | ok a => exact h a rfl

section

variable {close : Draft → Terminator → Draft}

theorem Draft.jumpBy_eq (hclose : ∀ d t, d.Open → close d t = d.terminate t) {d : Draft}
    (hd : d.Open) (c : Surroundings) (target : Nat) (label : String) :
    d.jumpBy close c target label = d.jump c target label := by
  rw [jumpBy, hclose d _ hd]
  rfl

theorem Draft.leaveBy_eq (hclose : ∀ d t, d.Open → close d t = d.terminate t) {d : Draft}
    (hd : d.Open) (c : Surroundings) (depth target : Nat) (label : String) (loc : Span) :
    d.leaveBy close c depth target label loc = d.leave c depth target label loc := by
  rw [leaveBy, jumpBy_eq hclose (Lays.endStorage hd _ loc).opened]
  rfl

mutual

theorem lowerStmtBy_eq (hclose : ∀ d t, d.Open → close d t = d.terminate t) :
    ∀ (s : Stmt) {c : Surroundings} {d : Draft}, d.Open →
    lowerStmtBy close c s d = lowerStmt c s d
  | .declare .., _, _, _ | .assign .., _, _, _
    | .eval .., _, _, _ | .storageDead .., _, _, _ | .foreign, _, _, _ => rfl
  | .block body, c, d, hd => lowerBlockBy_eq hclose body hd
  | .branch cond yes no loc, c, d, hd => by
    rw [lowerStmtBy, lowerStmt, lowerStmtBy]
    simp only []
    have hstart : ∀ t, (d.forked t).Open := fun t =>
      ((reserved_addBlocks hd.inside (Nat.le_refl _) (by omega)).terminate t).open_moveTo
    rw [hclose _ _ (Lays.addBlocks hd 3).opened]
    change (lowerBlockBy close c yes (d.forked _) >>= _) = (lowerBlock c yes (d.forked _) >>= _)
    rw [lowerBlockBy_eq hclose yes (hstart _)]
    refine bind_congr_ok fun d₁ hyes => ?_
    have hfirst := lowerBlock_lays yes (hstart _) hyes
    have hkept : ∀ b, d.next < b → b < d.next + 3 → d₁.Reserved b := fun b hgt hlt =>
      hfirst.grows.reserved (by simpa [Draft.forked] using hlt) (reserved_forked hd _ hgt hlt)
    have hmid := ((hkept (d.next + 1) (by omega) (by omega)).jump c (d.next + 2) "join").open_moveTo
    rw [Draft.jumpBy_eq hclose hfirst.opened, lowerOptionalBy_eq hclose no hmid]
    refine bind_congr_ok fun d₂ hno => ?_
    rw [Draft.jumpBy_eq hclose (lowerOptional_lays no hmid hno).opened]
  | .loop body loc, c, d, hd => by
    rw [lowerStmtBy, lowerStmt, lowerStmtBy]
    have hhead : (d.loopHead c).Open := (reserved_addLoop hd (Nat.le_refl _) (by omega)).jump c d.next "loop"
      |>.open_moveTo
    have hbody := ((reserved_loopHead hd c (b := d.next + 1) (by omega) (by omega)).jump
      (c.enterLoop d.next (d.next + 2)) (d.next + 1) "body").open_moveTo
    rw [Draft.jumpBy_eq hclose (Lays.addBlocks (Lays.addBlock hd true).opened 2).opened]
    change (lowerBlockBy close _ body
        (((d.loopHead c).jumpBy close _ (d.next + 1) "body").moveTo (d.next + 1)) >>= _) =
      (lowerBlock _ body (((d.loopHead c).jump _ (d.next + 1) "body").moveTo (d.next + 1)) >>= _)
    rw [Draft.jumpBy_eq hclose hhead, lowerBlockBy_eq hclose body hbody]
    refine bind_congr_ok fun d₁ hlow => ?_
    rw [Draft.jumpBy_eq hclose (lowerBlock_lays body hbody hlow).opened]
  | .breakLoop loc, c, d, hd | .continueLoop loc, c, d, hd => by
    rw [lowerStmtBy, lowerStmt, lowerStmtBy]
    cases c.loops with
    | nil => rfl
    | cons l rest => exact congrArg Except.ok (Draft.leaveBy_eq hclose hd c l.depth _ _ loc)
  | .ret value loc, c, d, hd => by
    cases value with
    | none => exact congrArg Except.ok (Draft.leaveBy_eq hclose hd c 0 _ _ loc)
    | some value => exact congrArg Except.ok (Draft.leaveBy_eq hclose (Lays.emit hd _).opened c 0 _ _ loc)
  | .select scrutinee arms loc, c, d, hd => by
    rw [lowerStmtBy, lowerStmt, lowerStmtBy]
    simp only []
    have hset : ∀ t, ∀ i < arms.length, ((d.addBlocks (arms.length + 1)).terminate t).Reserved (d.next + 1 + i) :=
      fun t i hi => (reserved_addBlocks hd.inside (by omega) (by omega)).terminate t
    rw [hclose _ _ (Lays.addBlocks hd (arms.length + 1)).opened, lowerArmsBy_eq hclose arms (hset _)]

theorem lowerStmtsBy_eq (hclose : ∀ d t, d.Open → close d t = d.terminate t) :
    ∀ (ss : List Stmt) {c : Surroundings} {d : Draft}, d.Open →
    lowerStmtsBy close c ss d = lowerStmts c ss d
  | [], _, _, _ => rfl
  | s :: rest, c, d, hd => by
    rw [lowerStmtsBy, lowerStmts, lowerStmtsBy, lowerStmtBy_eq hclose s hd]
    refine bind_congr_ok fun d₁ hs => ?_
    exact lowerStmtsBy_eq hclose rest (lowerStmt_lays s hd hs).opened

theorem lowerBlockBy_eq (hclose : ∀ d t, d.Open → close d t = d.terminate t) :
    ∀ (b : Block) {c : Surroundings} {d : Draft}, d.Open →
    lowerBlockBy close c b d = lowerBlock c b d
  | .mk statements loc, c, d, hd => by
    rw [lowerBlockBy, lowerBlock, lowerBlockBy, lowerStmtsBy_eq hclose statements hd]

theorem lowerOptionalBy_eq (hclose : ∀ d t, d.Open → close d t = d.terminate t) :
    ∀ (b : Option Block) {c : Surroundings} {d : Draft}, d.Open →
    lowerOptionalBy close c b d = lowerOptional c b d
  | none, _, _, _ => rfl
  | some b, _, _, hd => lowerBlockBy_eq hclose b hd

theorem lowerArmsBy_eq (hclose : ∀ d t, d.Open → close d t = d.terminate t) :
    ∀ (arms : List Arm) {c : Surroundings} {scrutinee : Expr} {join start : Nat} {d : Draft},
    (∀ i < arms.length, d.Reserved (start + i)) →
    lowerArmsBy close c scrutinee join start arms d = lowerArms c scrutinee join start arms d
  | [], _, _, _, _, _, _ => rfl
  | .mk variant body bindings loc :: rest, c, scrutinee, join, start, d, hr => by
    rw [lowerArmsBy, lowerArms, lowerArmsBy]
    split
    · rfl
    simp only []
    have hstart : d.Reserved start := hr 0 (by simp)
    have hlets := Lays.emitAll hstart.open_moveTo
      (fun b : PayloadBinding => b.declaration scrutinee (variant.getD "")) bindings
    rw [lowerBlockBy_eq hclose body hlets.opened]
    refine bind_congr_ok fun d₁ hbody => ?_
    have hlaid := lowerBlock_lays body hlets.opened hbody
    have harm := (hlets.seq hlaid).seq
      (Lays.endStorage hlaid.opened (bindings.map fun b => (b.id, b.name)) body.loc)
    rw [Draft.jumpBy_eq hclose harm.opened]
    refine lowerArmsBy_eq hclose rest fun i hi => ?_
    have hlater : d.Reserved (start + 1 + i) := by
      have hnext := hr (i + 1) (by simpa using hi)
      rwa [show start + (i + 1) = start + 1 + i by omega] at hnext
    exact (harm.grows.reserved hlater.inside (hlater.moveTo (by omega))).jump c join "join"

end

/-- Lowering only ends blocks that have no end yet: what `close` does to others makes no difference. -/
theorem Function.graphBy_eq (hclose : ∀ d t, d.Open → close d t = d.terminate t) (f : Function) :
    f.graphBy close = f.graph := by
  rw [graphBy, lowerStmtsBy_eq hclose _ f.open_firstDraft]
  refine bind_congr_ok fun d hd => ?_
  have hbody := lowerStmts_lays f.body.statements f.open_firstDraft hd
  rw [Draft.jumpBy_eq hclose (Lays.endStorage hbody.opened _ f.body.loc).opened]

end

namespace Stmt

/-- The first statement occurs in the second, inside a loop of it or not. -/
inductive Occurs : Bool → Stmt → Stmt → Prop where
  | self (s : Stmt) : Occurs false s s
  | block {k : Bool} {s t : Stmt} {body : Block} (ht : t ∈ body.statements) (h : Occurs k s t) :
      Occurs k s (.block body)
  | yes {k : Bool} {s t : Stmt} {cond : Expr} {yes : Block} {no : Option Block} {loc : Span}
      (ht : t ∈ yes.statements) (h : Occurs k s t) : Occurs k s (.branch cond yes no loc)
  | no {k : Bool} {s t : Stmt} {cond : Expr} {yes no : Block} {loc : Span} (ht : t ∈ no.statements)
      (h : Occurs k s t) : Occurs k s (.branch cond yes (some no) loc)
  | loop {k : Bool} {s t : Stmt} {body : Block} {loc : Span} (ht : t ∈ body.statements) (h : Occurs k s t) :
      Occurs true s (.loop body loc)
  | arm {k : Bool} {s t : Stmt} {scrutinee : Expr} {arms : List Arm} {loc : Span} {a : Arm} (ha : a ∈ arms)
      (ht : t ∈ a.body.statements) (h : Occurs k s t) : Occurs k s (.select scrutinee arms loc)

/-- The statement is wrong where it stands, inside a loop or not, whatever the statements in it are. -/
def Unfit (inLoop : Bool) : Stmt → Prop
  | .breakLoop _ => inLoop = false
  | .continueLoop _ => inLoop = false
  | .select scrutinee arms _ =>
    scrutinee.isPlace = false ∨ arms = [] ∨ ∃ a ∈ arms, a.variant = none ∧ a.bindings ≠ []
  | .storageDead .. => True
  | .foreign => True
  | _ => False

/-- Nothing in the statement is wrong where it stands. -/
def Fits (inLoop : Bool) (t : Stmt) : Prop := ∀ k s, Occurs k s t → ¬s.Unfit (inLoop || k)

variable {inLoop : Bool} {cond scrutinee : Expr} {body yes : Block} {no : Option Block} {arms : List Arm} {loc : Span}

theorem Fits.self {t : Stmt} (h : t.Fits inLoop) : ¬t.Unfit inLoop := by
  have hself := h false t (.self t)
  rwa [Bool.or_false] at hself

theorem fits_block : (Stmt.block body).Fits inLoop ↔ ∀ t ∈ body.statements, t.Fits inLoop := by
  refine ⟨fun h t ht k s hs => h k s (.block ht hs), fun h k s hs => ?_⟩
  cases hs with
  | self => exact id
  | block ht hs => exact h _ ht k s hs

theorem fits_branch : (Stmt.branch cond yes no loc).Fits inLoop ↔
    (∀ t ∈ yes.statements, t.Fits inLoop) ∧ ∀ b ∈ no, ∀ t ∈ b.statements, t.Fits inLoop := by
  refine ⟨fun h => ⟨fun t ht k s hs => h k s (.yes ht hs), ?_⟩, fun h k s hs => ?_⟩
  · rintro b rfl t ht k s hs
    exact h k s (.no ht hs)
  · cases hs with
    | self => exact id
    | yes ht hs => exact h.1 _ ht k s hs
    | no ht hs => exact h.2 _ rfl _ ht k s hs

theorem fits_loop : (Stmt.loop body loc).Fits inLoop ↔ ∀ t ∈ body.statements, t.Fits true := by
  refine ⟨fun h t ht k s hs => ?_, fun h k s hs => ?_⟩
  · have hinner := h true s (.loop ht hs)
    rwa [Bool.or_true] at hinner
  · cases hs with
    | self => exact id
    | @loop k _ _ _ _ ht hs =>
      rw [Bool.or_true]
      exact h _ ht k s hs

theorem fits_select : (Stmt.select scrutinee arms loc).Fits inLoop ↔
    ¬(Stmt.select scrutinee arms loc).Unfit inLoop ∧
      ∀ a ∈ arms, ∀ t ∈ a.body.statements, t.Fits inLoop := by
  refine ⟨fun h => ⟨h.self, fun a ha t ht k s hs => h k s (.arm ha ht hs)⟩, fun h k s hs => ?_⟩
  cases hs with
  | self => exact h.1
  | arm ha ht hs => exact h.2 _ ha _ ht k s hs

end Stmt

/-- Some loop is around the statement. -/
def Surroundings.inLoop (c : Surroundings) : Bool := !c.loops.isEmpty

theorem Surroundings.inLoop_declaring (c : Surroundings) (bs : List (BindingId × String)) :
    (c.declaring bs).inLoop = c.inLoop := by
  unfold declaring
  split <;> rfl

mutual

theorem lowerStmt_ok_iff : ∀ (s : Stmt) {c : Surroundings} {d : Draft},
    (∃ e, lowerStmt c s d = .ok e) ↔ s.Fits c.inLoop
  | .declare .., c, d | .assign .., c, d | .eval .., c, d => by
    refine ⟨fun _ k s hs => ?_, fun _ => ⟨_, rfl⟩⟩
    cases hs
    exact id
  | .block body, c, d => by
    rw [Stmt.fits_block]
    exact lowerBlock_ok_iff body
  | .branch cond yes no loc, c, d => by
    simp only [lowerStmtBy, bind_eq_ok, pure_eq, Except.ok.injEq, Stmt.fits_branch]
    constructor
    · rintro ⟨e, d₁, hyes, d₂, hno, _⟩
      exact ⟨(lowerBlock_ok_iff yes).mp ⟨d₁, hyes⟩, (lowerOptional_ok_iff no).mp ⟨d₂, hno⟩⟩
    · rintro ⟨hyes, hno⟩
      obtain ⟨d₁, hd₁⟩ := (lowerBlock_ok_iff yes).mpr hyes
      obtain ⟨d₂, hd₂⟩ := (lowerOptional_ok_iff no).mpr hno
      exact ⟨_, d₁, hd₁, d₂, hd₂, rfl⟩
  | .loop body loc, c, d => by
    simp only [lowerStmtBy, bind_eq_ok, pure_eq, Except.ok.injEq, Stmt.fits_loop]
    have hinner : (c.enterLoop d.next (d.next + 2)).inLoop = true := rfl
    rw [← hinner]
    constructor
    · rintro ⟨e, d₁, hbody, _⟩
      exact (lowerBlock_ok_iff body).mp ⟨d₁, hbody⟩
    · intro hbody
      obtain ⟨d₁, hd₁⟩ := (lowerBlock_ok_iff body).mpr hbody
      exact ⟨_, d₁, hd₁, rfl⟩
  | .breakLoop loc, c, d | .continueLoop loc, c, d => by
    unfold lowerStmtBy
    cases hloops : c.loops with
    | nil =>
      have hout : c.inLoop = false := by rw [Surroundings.inLoop, hloops]; rfl
      exact ⟨fun ⟨_, he⟩ => (by cases he), fun h => absurd hout h.self⟩
    | cons l rest =>
      have hin : c.inLoop = true := by rw [Surroundings.inLoop, hloops]; rfl
      refine ⟨fun _ k s hs => ?_, fun _ => ⟨_, rfl⟩⟩
      cases hs
      simp [Stmt.Unfit, hin]
  | .ret value loc, c, d => by
    refine ⟨fun _ k s hs => ?_, fun _ => ?_⟩
    · cases hs
      exact id
    · cases value with
      | none => exact ⟨_, rfl⟩
      | some value => exact ⟨_, rfl⟩
  | .select scrutinee arms loc, c, d => by
    rw [Stmt.fits_select]
    constructor
    · rintro ⟨e, he⟩
      obtain ⟨d₁, _, harms⟩ := lowerStmt_select he
      have hall := (lowerArms_ok_iff arms).mp ⟨d₁, harms⟩
      refine ⟨?_, fun a ha => (hall a ha).2⟩
      rintro (hplace | rfl | ⟨a, ha, hbinds⟩)
      · simp [lowerStmtBy, hplace] at he
      · cases hplace : scrutinee.isPlace <;> simp [lowerStmtBy, hplace] at he
      · exact (hall a ha).1 hbinds
    · rintro ⟨hfit, hbodies⟩
      simp only [Stmt.Unfit, not_or, Bool.not_eq_false, not_exists] at hfit
      obtain ⟨hplace, hsome, hbinds⟩ := hfit
      have hempty : arms.isEmpty = false := by simpa using hsome
      obtain ⟨d₁, hd₁⟩ : ∃ d₁, lowerArms c scrutinee d.next (d.next + 1) arms
          ((d.addBlocks (arms.length + 1)).terminate
            { kind := .switch, edges := arms.mapIdx fun i a => ⟨d.next + 1 + i, a.label⟩,
              scrutinee := some scrutinee, loc := loc }) = .ok d₁ :=
        (lowerArms_ok_iff arms).mpr fun a ha => ⟨fun hwild => hbinds a ⟨ha, hwild⟩, hbodies a ha⟩
      refine ⟨d₁.moveTo d.next, ?_⟩
      simp [lowerStmtBy, hplace, hempty, hd₁, bind_eq_ok]
  | .storageDead id name loc, c, d => ⟨fun ⟨_, he⟩ => (by cases he), fun h => absurd trivial h.self⟩
  | .foreign, c, d => ⟨fun ⟨_, he⟩ => (by cases he), fun h => absurd trivial h.self⟩

theorem lowerStmts_ok_iff : ∀ (ss : List Stmt) {c : Surroundings} {d : Draft},
    (∃ e, lowerStmts c ss d = .ok e) ↔ ∀ t ∈ ss, t.Fits c.inLoop
  | [], c, d => ⟨fun _ t ht => (by cases ht), fun _ => ⟨d, rfl⟩⟩
  | s :: rest, c, d => by
    simp only [lowerStmtsBy, bind_eq_ok, List.forall_mem_cons]
    rw [← c.inLoop_declaring s.declared]
    constructor
    · rintro ⟨e, d₁, hs, hrest⟩
      refine ⟨?_, (lowerStmts_ok_iff rest).mp ⟨e, hrest⟩⟩
      rw [c.inLoop_declaring]
      exact (lowerStmt_ok_iff s).mp ⟨d₁, hs⟩
    · rintro ⟨hs, hrest⟩
      rw [c.inLoop_declaring] at hs
      obtain ⟨d₁, hd₁⟩ := (lowerStmt_ok_iff s).mpr hs
      obtain ⟨e, he⟩ := (lowerStmts_ok_iff rest).mpr hrest
      exact ⟨e, d₁, hd₁, he⟩

theorem lowerBlock_ok_iff : ∀ (b : Block) {c : Surroundings} {d : Draft},
    (∃ e, lowerBlock c b d = .ok e) ↔ ∀ t ∈ b.statements, t.Fits c.inLoop
  | .mk statements loc, c, d => by
    simp only [lowerBlockBy, bind_eq_ok, pure_eq, Except.ok.injEq]
    rw [show c.inLoop = c.enterScope.inLoop from rfl]
    constructor
    · rintro ⟨e, d₁, hall, _⟩
      exact (lowerStmts_ok_iff statements).mp ⟨d₁, hall⟩
    · intro hall
      obtain ⟨d₁, hd₁⟩ := (lowerStmts_ok_iff statements).mpr hall
      exact ⟨_, d₁, hd₁, rfl⟩

theorem lowerOptional_ok_iff : ∀ (b : Option Block) {c : Surroundings} {d : Draft},
    (∃ e, lowerOptional c b d = .ok e) ↔ ∀ x ∈ b, ∀ t ∈ x.statements, t.Fits c.inLoop
  | none, c, d => ⟨fun _ x hx => (by cases hx), fun _ => ⟨d, rfl⟩⟩
  | some b, c, d => by
    rw [lowerOptional, lowerOptionalBy, lowerBlock_ok_iff b]
    exact ⟨fun h x hx => Option.some.inj hx ▸ h, fun h => h b rfl⟩

theorem lowerArms_ok_iff : ∀ (arms : List Arm) {c : Surroundings} {scrutinee : Expr} {join start : Nat} {d : Draft},
    (∃ e, lowerArms c scrutinee join start arms d = .ok e) ↔
      ∀ a ∈ arms, ¬(a.variant = none ∧ a.bindings ≠ []) ∧ ∀ t ∈ a.body.statements, t.Fits c.inLoop
  | [], c, scrutinee, join, start, d => ⟨fun _ a ha => (by cases ha), fun _ => ⟨d, rfl⟩⟩
  | .mk variant body bindings loc :: rest, c, scrutinee, join, start, d => by
    have hinner : (c.enterScope.declaring (bindings.map fun b => (b.id, b.name))).inLoop = c.inLoop :=
      c.enterScope.inLoop_declaring _
    have hwild : (variant.isNone && !bindings.isEmpty) = true ↔ variant = none ∧ bindings ≠ [] := by simp
    rw [List.forall_mem_cons, ← hinner]
    constructor
    · rintro ⟨e, he⟩
      have hbinds : ¬(variant = none ∧ bindings ≠ []) := by
        intro hbad
        rw [← hwild] at hbad
        unfold lowerArmsBy at he
        simp [hbad] at he
      obtain ⟨d₁, hbody, hrest⟩ := lowerArms_cons he
      refine ⟨⟨hbinds, (lowerBlock_ok_iff body).mp ⟨d₁, hbody⟩⟩, ?_⟩
      rw [hinner]
      exact (lowerArms_ok_iff rest).mp ⟨e, hrest⟩
    · rintro ⟨⟨hbinds, hbody⟩, hrest⟩
      obtain ⟨d₁, hd₁⟩ := (lowerBlock_ok_iff body (d := bindings.foldl
        (fun d b => d.emit (b.declaration scrutinee (variant.getD ""))) (d.moveTo start))).mpr hbody
      rw [hinner] at hrest
      obtain ⟨e, he⟩ := (lowerArms_ok_iff rest).mpr hrest
      refine ⟨e, ?_⟩
      unfold lowerArmsBy
      rw [if_neg (fun hbad => hbinds (hwild.mp hbad))]
      simp only [bind_eq_ok]
      exact ⟨d₁, hd₁, he⟩

end

/-- Lowering fails exactly if some statement is wrong where it stands. -/
theorem Function.graph_error_iff (f : Function) : (∃ e, f.graph = .error e) ↔
    ∃ t ∈ f.body.statements, ∃ k s, Stmt.Occurs k s t ∧ s.Unfit k := by
  have hok : (∃ g, f.graph = .ok g) ↔ ∀ t ∈ f.body.statements, t.Fits false := by
    rw [← show f.surroundings.inLoop = false from rfl, ← lowerStmts_ok_iff (d := f.firstDraft)]
    constructor
    · rintro ⟨g, hg⟩
      obtain ⟨d, hd, _⟩ := graph_draft hg
      exact ⟨d, hd⟩
    · rintro ⟨d, hd⟩
      simp only [graph, graphBy, bind_eq_ok, pure_eq, Except.ok.injEq]
      exact ⟨_, d, hd, rfl⟩
  have herror : (∃ e, f.graph = .error e) ↔ ¬∃ g, f.graph = .ok g := by
    cases f.graph with
    | error e => simp
    | ok g => simp
  rw [herror, hok]
  simp only [Stmt.Fits, Bool.false_or, not_forall, not_not, exists_prop]

/-- The graph of a function is well formed, each block being given its end while it has none; and there
is a graph unless a statement anywhere in the body is wrong where it stands. -/
theorem lowering_wellFormed (f : Function) :
    (∀ g, f.graph = .ok g → g.WellFormed) ∧
      (∀ close : Draft → Terminator → Draft, (∀ d t, d.Open → close d t = d.terminate t) →
        f.graphBy close = f.graph) ∧
      ((∃ e, f.graph = .error e) ↔ ∃ t ∈ f.body.statements, ∃ k s, Stmt.Occurs k s t ∧ s.Unfit k) :=
  ⟨fun _ h => Function.graph_wellFormed h, fun _ hclose => Function.graphBy_eq hclose f, f.graph_error_iff⟩

/-- A loop that a match leaves, and dead code after it. -/
def drain : Function where
  name := "drain"
  params := [⟨"x", 1, 1, {}⟩]
  ret := none
  body := .mk [.loop (.mk [.select (.var "x" 1 {})
    [.mk (some "Full") (.mk [.continueLoop {}, .ret none {}] {}) [⟨"item", "y", 2, false, false, {}⟩] {},
      .mk none (.mk [.breakLoop {}] {}) [] {}] {}] {}) {}, .ret none {}] {}
  bindings := .ofList [(1, ⟨1, "x", 1, .param, {}⟩), (2, ⟨2, "y", 1, .localVar, {}⟩)]

def drainGraph : Graph := drain.graph.toOption.getD default

/-- Ends the current block unless it has an end already. -/
def keepFirst (d : Draft) (t : Terminator) : Draft :=
  if (d.block d.current).terminator.isNone then d.terminate t else d

/-- Three blocks lead to the header of the loop, one of them dead, and only the header leads to the
body. Ending no block twice makes no difference. -/
theorem lowering_wellFormed_drain : drain.graph = .ok drainGraph ∧ drainGraph.WellFormed ∧
    drainGraph.predecessors 2 = [0, 5, 6] ∧ drainGraph.predecessors 3 = [2] ∧
    drain.graphBy keepFirst = drain.graph := by
  have hg : drain.graph = .ok drainGraph := eq_ok_getD default (by decide +kernel)
  have hclose : ∀ d t, Draft.Open d → keepFirst d t = d.terminate t := fun d t hd => by simp [keepFirst, hd.ongoing]
  obtain ⟨hgraph, hends, _⟩ := lowering_wellFormed drain
  exact ⟨hg, hgraph drainGraph hg, by decide +kernel, by decide +kernel, hends keepFirst hclose⟩

end Ownership
