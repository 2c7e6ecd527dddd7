import Ownership.Proofs.Graph.Layout
import Ownership.Proofs.Graph.Paths

/-!
Storage follows the scopes. Which bindings are open where a block starts does not
depend on the path that led there: it can be written down per block while the
graph is drafted, and every block keeps to it. It opens a binding only where it
is closed, closes the one that was opened last, and hands on what is open to the
blocks it leads to.
-/
namespace Ownership

open Outcome

namespace Stmt

/-- The bindings that are open after a statement, the one opened last first. -/
def openAfter : Stmt → List BindingId → List BindingId
  | .declare _ id _ _, o => id :: o
  | .storageDead id _ _, o => o.erase id
  | _, o => o

/-- The statement opens what is closed, and closes what was opened last. -/
def Nests : Stmt → List BindingId → Prop
  | .declare _ id _ _, o => id ∉ o
  | .storageDead id _ _, o => o.head? = some id
  | _, _ => True

def openAfterAll (ss : List Stmt) (o : List BindingId) : List BindingId := ss.foldl (fun o s => s.openAfter o) o

@[simp] theorem openAfterAll_nil (o : List BindingId) : openAfterAll [] o = o := rfl

@[simp] theorem openAfterAll_cons (s : Stmt) (ss : List Stmt) (o : List BindingId) :
    openAfterAll (s :: ss) o = openAfterAll ss (s.openAfter o) := rfl

theorem openAfterAll_concat (ss : List Stmt) (s : Stmt) (o : List BindingId) :
    openAfterAll (ss ++ [s]) o = s.openAfter (openAfterAll ss o) := by simp [openAfterAll]

end Stmt

/-- What is asked of the open bindings by a statement, and by an expression that decides how a
block ends. The end of the storage that was opened last is always in order. -/
structure Discipline where
  stmt : Stmt → List BindingId → Prop
  test : Expr → List BindingId → Prop
  ends : ∀ id name loc o, stmt (.storageDead id name loc) (id :: o)

namespace Discipline

/-- Opening what is closed and closing what was opened last. -/
def nesting : Discipline := ⟨Stmt.Nests, fun _ _ => True, fun _ _ _ _ => rfl⟩

/-- Statements in a row, each of them in order where it stands. -/
def All (r : Discipline) : List Stmt → List BindingId → Prop
  | [], _ => True
  | s :: rest, o => r.stmt s o ∧ r.All rest (s.openAfter o)

theorem all_append (r : Discipline) (xs ys : List Stmt) (o : List BindingId) :
    r.All (xs ++ ys) o ↔ r.All xs o ∧ r.All ys (Stmt.openAfterAll xs o) := by
  induction xs generalizing o with
  | nil => simp [All]
  | cons s xs ih => simp [All, ih, and_assoc]

end Discipline

mutual

/-- The bindings that a statement makes, in it or inside it. -/
def Stmt.binds : Stmt → List BindingId
  | .declare _ id _ _ => [id]
  | .block body => body.binds
  | .branch _ yes no _ => yes.binds ++ Block.bindsOptional no
  | .loop body _ => body.binds
  | .select _ arms _ => Arm.bindsAll arms
  | _ => []

def Stmt.bindsAll : List Stmt → List BindingId
  | [] => []
  | s :: rest => s.binds ++ Stmt.bindsAll rest

def Block.binds : Block → List BindingId
  | .mk statements _ => Stmt.bindsAll statements

def Block.bindsOptional : Option Block → List BindingId
  | none => []
  | some b => b.binds

def Arm.bindsAll : List Arm → List BindingId
  | [] => []
  | .mk _ body bindings _ :: rest => bindings.map (·.id) ++ body.binds ++ Arm.bindsAll rest

end

/-- The parameters, and all that the body binds. -/
def Function.binds (f : Function) : List BindingId :=
  f.params.map Param.id ++ Stmt.bindsAll f.body.statements

/-- The bindings are distinct, and none of them is open. -/
structure Fresh (ids o : List BindingId) : Prop where
  nodup : ids.Nodup
  closed : ∀ id ∈ ids, id ∉ o

namespace Fresh

variable {a b o : List BindingId}

theorem left (h : Fresh (a ++ b) o) : Fresh a o :=
  ⟨(List.nodup_append.mp h.nodup).1, fun id hid => h.closed id (List.mem_append_left b hid)⟩

/-- What comes later is fresh even when some of what came before it is open. -/
theorem right {w : List BindingId} (h : Fresh (a ++ b) o) (hw : ∀ id ∈ w, id ∈ a ∨ id ∈ o) : Fresh b w := by
  refine ⟨(List.nodup_append.mp h.nodup).2.1, fun id hid hopen => ?_⟩
  rcases hw id hopen with ha | hold
  · exact (List.nodup_append.mp h.nodup).2.2 id ha id hid rfl
  · exact h.closed id (List.mem_append_right a hid) hold

end Fresh

namespace Surroundings

variable {c : Surroundings} {bs : List (BindingId × String)}

/-- The bindings of all open scopes, the one declared last first. -/
def opened (c : Surroundings) : List BindingId := c.scopes.flatMap fun scope => (scope.map Prod.fst).reverse

/-- The bindings of the outer `depth` scopes. -/
def openBelow (c : Surroundings) (depth : Nat) : List BindingId :=
  (c.scopes.drop (c.scopes.length - depth)).flatMap fun scope => (scope.map Prod.fst).reverse

/-- A statement stands in a scope of its own, inside of every loop around it. -/
structure Deep (c : Surroundings) : Prop where
  scope : c.scopes ≠ []
  loops : ∀ l ∈ c.loops, l.depth < c.scopes.length

theorem reverse_flatten_ids (scopes : List (List (BindingId × String))) :
    (scopes.reverse.flatten.map Prod.fst).reverse = scopes.flatMap fun scope => (scope.map Prod.fst).reverse := by
  induction scopes with
  | nil => rfl
  | cons scope scopes ih => simp [← ih]

/-- What leaving the inner scopes closes, and what then is left open. -/
theorem opened_eq (c : Surroundings) (depth : Nat) :
    c.opened = ((c.bindingsAbove depth).map Prod.fst).reverse ++ c.openBelow depth := by
  rw [bindingsAbove, reverse_flatten_ids, openBelow, ← List.flatMap_append, List.take_append_drop, opened]

@[simp] theorem openBelow_zero (c : Surroundings) : c.openBelow 0 = [] := by simp [openBelow]

theorem openBelow_length (c : Surroundings) : c.openBelow c.scopes.length = c.opened := by
  simp [openBelow, opened]

@[simp] theorem opened_enterScope (c : Surroundings) : c.enterScope.opened = c.opened := by
  simp [enterScope, opened]

theorem openBelow_enterScope {depth : Nat} (h : depth ≤ c.scopes.length) :
    c.enterScope.openBelow depth = c.openBelow depth := by
  simp [openBelow, enterScope, Nat.succ_sub h]

theorem opened_declaring (hc : c.scopes ≠ []) (bs : List (BindingId × String)) :
    (c.declaring bs).opened = (bs.map Prod.fst).reverse ++ c.opened := by
  unfold declaring opened
  split
  · rename_i h
    exact absurd h hc
  · rename_i scope outer h
    simp [h]

theorem length_declaring (c : Surroundings) (bs : List (BindingId × String)) :
    (c.declaring bs).scopes.length = c.scopes.length := by
  unfold declaring
  split
  · rfl
  · rename_i scope outer h
    simp [h]

theorem loops_declaring (c : Surroundings) (bs : List (BindingId × String)) :
    (c.declaring bs).loops = c.loops := by
  unfold declaring
  split <;> rfl

theorem exit_declaring (c : Surroundings) (bs : List (BindingId × String)) :
    (c.declaring bs).exit = c.exit := by
  unfold declaring
  split <;> rfl

theorem openBelow_declaring {depth : Nat} (h : depth < c.scopes.length) (bs : List (BindingId × String)) :
    (c.declaring bs).openBelow depth = c.openBelow depth := by
  unfold openBelow declaring
  split
  · rfl
  · rename_i scope outer hs
    rw [hs] at h ⊢
    have hsub : (scope :: outer).length - depth = outer.length - depth + 1 := by
      rw [List.length_cons] at h ⊢
      omega
    have hsub' : ((scope ++ bs) :: outer).length - depth = outer.length - depth + 1 := hsub
    rw [hsub, hsub', List.drop_succ_cons, List.drop_succ_cons]

theorem Deep.enterScope (h : ∀ l ∈ c.loops, l.depth ≤ c.scopes.length) : c.enterScope.Deep :=
  ⟨by simp [Surroundings.enterScope], fun l hl => Nat.lt_succ_of_le (h l hl)⟩

theorem Deep.declaring (h : c.Deep) (bs : List (BindingId × String)) : (c.declaring bs).Deep := by
  have hlength := c.length_declaring bs
  refine ⟨fun hnil => h.scope ?_, fun l hl => ?_⟩
  · rw [hnil] at hlength
    exact List.eq_nil_of_length_eq_zero hlength.symm
  · rw [loops_declaring] at hl
    rw [hlength]
    exact h.loops l hl

end Surroundings

namespace Draft

open Stmt

variable {r : Discipline} {d e : Draft} {st st' : Nat → List BindingId} {o : List BindingId} {b n : Nat}

/-- The tests of a terminator are in order, and all it leads to is there and starts with what is open. -/
structure Hands (r : Discipline) (d : Draft) (st : Nat → List BindingId) (t : Terminator)
    (o : List BindingId) : Prop where
  tests : ∀ e, t.cond = some e ∨ t.scrutinee = some e → r.test e o
  edges : ∀ e ∈ t.edges, e.target < d.next ∧ st e.target = o

/-- Every block is in order with what is open where it starts, and hands on what is open where it ends. -/
structure Nested (r : Discipline) (d : Draft) (st : Nat → List BindingId) : Prop where
  statements : ∀ b, r.All (d.block b).statements (st b)
  ends : ∀ b t, (d.block b).terminator = some t →
    d.Hands r st t (openAfterAll (d.block b).statements (st b))

/-- Drafting stands in an open block, with these bindings open. -/
structure At (r : Discipline) (d : Draft) (st : Nat → List BindingId) (o : List BindingId) : Prop where
  isOpen : d.Open
  nested : d.Nested r st
  here : openAfterAll (d.block d.current).statements (st d.current) = o

/-- What is written down for the first `n` blocks stays. -/
def Agree (n : Nat) (st st' : Nat → List BindingId) : Prop := ∀ b < n, st' b = st b

theorem Agree.refl (n : Nat) (st : Nat → List BindingId) : Agree n st st := fun _ _ => rfl

theorem Agree.trans {m : Nat} {st'' : Nat → List BindingId} (h : Agree n st st') (hle : n ≤ m)
    (k : Agree m st' st'') : Agree n st st'' := fun b hb => by
  rw [k b (Nat.lt_of_lt_of_le hb hle), h b hb]

/-- New blocks start with the bindings open. -/
def fill (st : Nat → List BindingId) (n : Nat) (o : List BindingId) : Nat → List BindingId :=
  fun b => if b < n then st b else o

theorem agree_fill (st : Nat → List BindingId) (n : Nat) (o : List BindingId) : Agree n st (fill st n o) :=
  fun _ hb => if_pos hb

theorem fill_of_le (st : Nat → List BindingId) (o : List BindingId) (h : n ≤ b) : fill st n o b = o :=
  if_neg (Nat.not_lt.mpr h)

theorem Hands.grow {t : Terminator} (h : d.Hands r st t o) (hn : d.next ≤ e.next) (ha : Agree d.next st st') :
    e.Hands r st' t o := by
  refine ⟨h.tests, fun x hx => ?_⟩
  obtain ⟨hlt, hst⟩ := h.edges x hx
  exact ⟨Nat.lt_of_lt_of_le hlt hn, (ha _ hlt).trans hst⟩

theorem Nested.agree (h : d.Nested r st) (ha : Agree d.next st st') : d.Nested r st' := by
  have hinside : ∀ b, (d.block b).statements ≠ [] ∨ (d.block b).terminator ≠ none → b < d.next := by
    intro b hb
    rcases Nat.lt_or_ge b d.next with hlt | hge
    · exact hlt
    · rw [block_of_next_le hge] at hb
      simp at hb
  refine ⟨fun b => ?_, fun b t ht => ?_⟩
  · by_cases hb : (d.block b).statements = []
    · rw [hb]
      trivial
    · rw [ha b (hinside b (.inl hb))]
      exact h.statements b
  · rw [ha b (hinside b (.inr (by simp [ht])))]
    exact (h.ends b t ht).grow (Nat.le_refl _) ha

theorem At.agree (h : d.At r st o) (ha : Agree d.next st st') : d.At r st' o := by
  refine ⟨h.isOpen, h.nested.agree ha, ?_⟩
  rw [ha _ h.isOpen.inside]
  exact h.here

theorem Nested.at_moveTo (h : d.Nested r st) (hb : d.Reserved b) : (d.moveTo b).At r st (st b) :=
  ⟨hb.open_moveTo, ⟨h.statements, fun b t ht => (h.ends b t ht).grow (Nat.le_refl _) (.refl _ st)⟩,
    by simp [hb.empty]⟩

theorem At.emit (h : d.At r st o) {s : Stmt} (hs : r.stmt s o) : (d.emit s).At r st (s.openAfter o) := by
  have hcurrent := block_emit h.isOpen.inside s
  refine ⟨(Lays.emit h.isOpen s).opened, ⟨fun b => ?_, fun b t ht => ?_⟩, ?_⟩
  · by_cases hb : b = d.current
    · rw [hb, hcurrent, Discipline.all_append, h.here]
      exact ⟨h.nested.statements _, hs, trivial⟩
    · rw [block_emit_other hb]
      exact h.nested.statements b
  · by_cases hb : b = d.current
    · rw [hb, hcurrent] at ht
      rw [h.isOpen.ongoing] at ht
      cases ht
    · rw [block_emit_other hb] at ht ⊢
      exact (h.nested.ends b t ht).grow (Nat.le_of_eq (next_emit d s).symm) (.refl _ st)
  · rw [current_emit, hcurrent, openAfterAll_concat, h.here]

theorem At.emitAll {α : Type} (h : d.At r st o) (stmt : α → Stmt) (xs : List α) (hs : r.All (xs.map stmt) o) :
    (xs.foldl (fun d x => d.emit (stmt x)) d).At r st (openAfterAll (xs.map stmt) o) := by
  induction xs generalizing d o with
  | nil => exact h
  | cons x xs ih => exact ih (h.emit hs.1) hs.2

/-- Ending the storage of the bindings that were opened last leaves the others open. -/
theorem At.endStorage (bs : List (BindingId × String)) (loc : Span)
    (h : d.At r st ((bs.map Prod.fst).reverse ++ o)) : (d.endStorage bs loc).At r st o := by
  unfold Draft.endStorage
  rw [← List.map_reverse] at h
  generalize bs.reverse = rs at h
  induction rs generalizing d with
  | nil => exact h
  | cons b rs ih =>
    apply ih
    have hnext := h.emit (r.ends b.1 b.2 loc _)
    simpa [openAfter] using hnext

theorem At.addBlocks (h : d.At r st o) (k : Nat) : (d.addBlocks k).At r st o := by
  refine ⟨(Lays.addBlocks h.isOpen k).opened, ⟨fun b => ?_, fun b t ht => ?_⟩, ?_⟩
  · rw [block_addBlocks]
    exact h.nested.statements b
  · rw [block_addBlocks] at ht ⊢
    exact (h.nested.ends b t ht).grow (by simp) (.refl _ st)
  · rw [current_addBlocks, block_addBlocks]
    exact h.here

theorem Nested.addBlock (h : d.Nested r st) (header : Bool) : (d.addBlock header).Nested r st := by
  have hnew : ∀ b, (d.addBlock header).block b = d.block b ∨
      (d.addBlock header).block b = { id := d.next, loopHeader := header } := by
    intro b
    rcases Nat.lt_trichotomy b d.next with hlt | rfl | hgt
    · exact .inl (block_addBlock hlt header)
    · exact .inr (by simp [block, Draft.addBlock, next])
    · have hbeyond : (d.addBlock header).next ≤ b := by
        rw [next_addBlock]
        exact hgt
      rw [block_of_next_le hbeyond, block_of_next_le (Nat.le_of_lt hgt)]
      exact .inl rfl
  refine ⟨fun b => ?_, fun b t ht => ?_⟩
  · rcases hnew b with hb | hb
    · rw [hb]
      exact h.statements b
    · rw [hb]
      trivial
  · rcases hnew b with hb | hb
    · rw [hb] at ht ⊢
      exact (h.ends b t ht).grow (by simp) (.refl _ st)
    · rw [hb] at ht
      cases ht

theorem At.addBlock (h : d.At r st o) (header : Bool) : (d.addBlock header).At r st o := by
  refine ⟨(Lays.addBlock h.isOpen header).opened, h.nested.addBlock header, ?_⟩
  rw [current_addBlock, block_addBlock h.isOpen.inside]
  exact h.here

/-- A block may end so if all it leads to starts with what is open. -/
theorem At.terminate (h : d.At r st o) (t : Terminator) (ht : d.Hands r st t o) :
    (d.terminate t).Nested r st := by
  have hcurrent := block_terminate h.isOpen.inside t
  have hnext := Nat.le_of_eq (next_terminate d t).symm
  refine ⟨fun b => ?_, fun b t' ht' => ?_⟩
  · by_cases hb : b = d.current
    · rw [hb, hcurrent]
      exact h.nested.statements _
    · rw [block_terminate_other hb]
      exact h.nested.statements b
  · by_cases hb : b = d.current
    · rw [hb, hcurrent] at ht' ⊢
      obtain rfl := Option.some.inj ht'
      rw [h.here]
      exact ht.grow hnext (.refl _ st)
    · rw [block_terminate_other hb] at ht' ⊢
      exact (h.nested.ends b t' ht').grow hnext (.refl _ st)

theorem At.jump (h : d.At r st o) (c : Surroundings) {target : Nat} (label : String) (hlt : target < d.next)
    (hst : st target = o) : (d.jump c target label).Nested r st := by
  have hended := h.terminate { kind := .jump, edges := [⟨target, label⟩] } ⟨by simp, by simp [hlt, hst]⟩
  refine ⟨fun b => ?_, fun b t ht => ?_⟩
  · rw [block_jump]
    exact hended.statements b
  · rw [block_jump] at ht ⊢
    exact (hended.ends b t ht).grow (by simp) (.refl _ st)

/-- The block is set aside, and starts with these bindings open. -/
structure Waits (d : Draft) (st : Nat → List BindingId) (b : Nat) (o : List BindingId) : Prop where
  reserved : d.Reserved b
  opened : st b = o

namespace Waits

theorem starts (h : d.Waits st b o) : b < d.next ∧ st b = o := ⟨h.reserved.inside, h.opened⟩

theorem grow (h : d.Waits st b o) (hg : Grows n d e) (hb : b < n) (ha : Agree d.next st st') : e.Waits st' b o :=
  ⟨hg.reserved hb h.reserved, (ha b h.reserved.inside).trans h.opened⟩

theorem jump (h : d.Waits st b o) (c : Surroundings) (target : Nat) (label : String) :
    (d.jump c target label).Waits st b o :=
  ⟨h.reserved.jump c target label, h.opened⟩

theorem moveTo {a : Nat} (h : d.Waits st b o) (hne : b ≠ a) : (d.moveTo a).Waits st b o :=
  ⟨h.reserved.moveTo hne, h.opened⟩

theorem at_moveTo (h : d.Waits st b o) (hd : d.Nested r st) : (d.moveTo b).At r st o := by
  have hat := hd.at_moveTo h.reserved
  rwa [h.opened] at hat

end Waits

end Draft

open Draft

namespace Surroundings

variable {c : Surroundings} {d e : Draft} {st st' : Nat → List BindingId}

/-- What the jumps out of a statement lead to is there, and starts with what they leave open. -/
structure Placed (c : Surroundings) (d : Draft) (st : Nat → List BindingId) : Prop where
  exit : c.exit < d.next ∧ st c.exit = []
  header : ∀ l ∈ c.loops, l.header < d.next ∧ st l.header = c.openBelow l.depth
  loopExit : ∀ l ∈ c.loops, l.exit < d.next ∧ st l.exit = c.openBelow l.depth
  depth : ∀ l ∈ c.loops, l.depth ≤ c.scopes.length

namespace Placed

theorem grow (h : c.Placed d st) (hn : d.next ≤ e.next) (ha : Agree d.next st st') : c.Placed e st' := by
  have hkept : ∀ {b o}, b < d.next ∧ st b = o → b < e.next ∧ st' b = o := fun hb =>
    ⟨Nat.lt_of_lt_of_le hb.1 hn, by rw [ha _ hb.1, hb.2]⟩
  exact ⟨hkept h.exit, fun l hl => hkept (h.header l hl), fun l hl => hkept (h.loopExit l hl), h.depth⟩

theorem enterScope (h : c.Placed d st) : c.enterScope.Placed d st where
  exit := h.exit
  header l hl := by
    rw [openBelow_enterScope (h.depth l hl)]
    exact h.header l hl
  loopExit l hl := by
    rw [openBelow_enterScope (h.depth l hl)]
    exact h.loopExit l hl
  depth l hl := Nat.le_succ_of_le (h.depth l hl)

theorem declaring (h : c.Placed d st) (hc : c.Deep) (bs : List (BindingId × String)) :
    (c.declaring bs).Placed d st := by
  refine ⟨?_, ?_, ?_, ?_⟩
  · rw [exit_declaring]
    exact h.exit
  · rw [loops_declaring]
    intro l hl
    rw [openBelow_declaring (hc.loops l hl)]
    exact h.header l hl
  · rw [loops_declaring]
    intro l hl
    rw [openBelow_declaring (hc.loops l hl)]
    exact h.loopExit l hl
  · rw [loops_declaring, length_declaring]
    exact h.depth

theorem enterLoop (h : c.Placed d st) {header exit : Nat} (hheader : header < d.next ∧ st header = c.opened)
    (hexit : exit < d.next ∧ st exit = c.opened) : (c.enterLoop header exit).Placed d st := by
  rw [← openBelow_length] at hheader hexit
  refine ⟨h.exit, ?_, ?_, ?_⟩
  · intro l hl
    rcases List.mem_cons.mp hl with rfl | hl
    · exact hheader
    · exact h.header l hl
  · intro l hl
    rcases List.mem_cons.mp hl with rfl | hl
    · exact hexit
    · exact h.loopExit l hl
  · intro l hl
    rcases List.mem_cons.mp hl with rfl | hl
    · exact Nat.le_refl _
    · exact h.depth l hl

end Placed

end Surroundings

namespace Draft

variable {r : Discipline} {d e : Draft} {st : Nat → List BindingId} {o : List BindingId}

/-- Leaving the inner scopes closes all that they opened; what comes after it is not led to. -/
theorem At.leave {c : Surroundings} (h : d.At r st c.opened) (depth : Nat) {target : Nat} (label : String)
    (loc : Span) (ht : target < d.next ∧ st target = c.openBelow depth) :
    ∃ st', Agree d.next st st' ∧ (d.leave c depth target label loc).At r st' c.opened := by
  rw [c.opened_eq depth] at h
  have hclosed := At.endStorage (c.bindingsAbove depth) loc h
  have hgrows := (Lays.endStorage h.isOpen (c.bindingsAbove depth) loc).grows.next
  rw [leave_eq]
  generalize d.endStorage (c.bindingsAbove depth) loc = e at hclosed hgrows
  have hjumped := hclosed.jump c label (Nat.lt_of_lt_of_le ht.1 hgrows) ht.2
  have hinside : (e.jump c target label).current < (e.jump c target label).next := by
    simpa using hclosed.isOpen.inside
  have hle : d.next ≤ (e.jump c target label).next := by simpa using hgrows
  generalize e.jump c target label = f at hjumped hinside hle
  have hagree := agree_fill st f.next c.opened
  refine ⟨fill st f.next c.opened, (Agree.refl d.next st).trans hle hagree, ?_⟩
  have hat := ((hjumped.agree hagree).addBlock false).at_moveTo (reserved_addBlock hinside false)
  rwa [fill_of_le st c.opened (Nat.le_refl f.next)] at hat

theorem At.jump_moveTo (h : d.At r st o) (c : Surroundings) {target b : Nat} (label : String)
    (ht : target < d.next ∧ st target = o) {w : List BindingId} (hb : d.Waits st b w) :
    ((d.jump c target label).moveTo b).At r st w :=
  (hb.jump c target label).at_moveTo (h.jump c label ht.1 ht.2)

/-- A block may end in any way that leads to new blocks only. -/
theorem At.branch (h : d.At r st o) (k : Nat) (t : Terminator)
    (htests : ∀ e, t.cond = some e ∨ t.scrutinee = some e → r.test e o)
    (ht : ∀ e ∈ t.edges, d.next ≤ e.target ∧ e.target < d.next + k) :
    ((d.addBlocks k).terminate t).Nested r (fill st d.next o) := by
  refine ((h.agree (agree_fill st d.next o)).addBlocks k).terminate t ⟨htests, fun e he => ?_⟩
  rw [next_addBlocks]
  exact ⟨(ht e he).2, fill_of_le st o (ht e he).1⟩

theorem At.forked (h : d.At r st o) (t : Terminator)
    (htests : ∀ e, t.cond = some e ∨ t.scrutinee = some e → r.test e o)
    (ht : ∀ e ∈ t.edges, d.next ≤ e.target ∧ e.target < d.next + 3) :
    (d.forked t).At r (fill st d.next o) o := by
  have hreserved := reserved_addBlocks h.isOpen.inside (Nat.le_refl d.next) (show d.next < d.next + 3 by omega)
  exact Waits.at_moveTo ⟨hreserved.terminate t, fill_of_le st o (Nat.le_refl d.next)⟩ (h.branch 3 t htests ht)

theorem At.loopBody (h : d.At r st o) (c inner : Surroundings) :
    (d.loopBody c inner).At r (fill st d.next o) o := by
  have hadd := ((h.agree (agree_fill st d.next o)).addBlock true).addBlocks 2
  have hheader : ((d.addBlock true).addBlocks 2).Waits (fill st d.next o) d.next o :=
    ⟨reserved_addLoop h.isOpen (Nat.le_refl d.next) (by omega), fill_of_le st o (Nat.le_refl d.next)⟩
  have hstart : (d.loopHead c).Waits (fill st d.next o) (d.next + 1) o :=
    ⟨reserved_loopHead h.isOpen c (Nat.lt_succ_self d.next) (by omega), fill_of_le st o (Nat.le_succ d.next)⟩
  have hhead : (d.loopHead c).At r (fill st d.next o) o := hadd.jump_moveTo c "loop" hheader.starts hheader
  exact hhead.jump_moveTo inner "body" hstart.starts hstart

/-- What is drafted here only adds to the draft, and ends with what is open where it starts. -/
def Keeps (r : Discipline) (c : Surroundings) (d e : Draft) : Prop :=
  ∀ {st : Nat → List BindingId}, c.Placed d st → d.At r st c.opened →
    Grows d.next d e ∧ ∃ st', Agree d.next st st' ∧ e.At r st' c.opened

section

variable {f : Draft} {c : Surroundings} (hat : d.At r st c.opened) (hp : c.Placed d st)

include hat hp

/-- Two ways that part in one block and meet in another. -/
theorem At.fork {t : Terminator} (ht : t.edges = [⟨d.next, "then"⟩, ⟨d.next + 1, "else"⟩])
    (htests : ∀ e, t.cond = some e ∨ t.scrutinee = some e → r.test e c.opened)
    (hyes : Keeps r c (d.forked t) e)
    (hno : Keeps r c ((e.jump c (d.next + 2) "join").moveTo (d.next + 1)) f) :
    ∃ st', Agree d.next st st' ∧ ((f.jump c (d.next + 2) "join").moveTo (d.next + 2)).At r st' c.opened := by
  have hfill := agree_fill st d.next c.opened
  have hnext : (d.forked t).next = d.next + 3 := by simp [Draft.forked]
  have hp₀ := hp.grow (e := d.forked t) (by omega) hfill
  obtain ⟨hgrows, st₁, hagree, hat₁⟩ := hyes hp₀ (hat.forked t htests (by simp [ht]))
  have hwaits : ∀ b, d.next < b → b < d.next + 3 → e.Waits st₁ b c.opened := by
    intro b hgt hlt
    have hnew : (d.forked t).Waits (fill st d.next c.opened) b c.opened :=
      ⟨reserved_forked hat.isOpen t hgt hlt, fill_of_le st _ (Nat.le_of_lt hgt)⟩
    exact hnew.grow hgrows (by omega) hagree
  have hsecond := hwaits (d.next + 1) (by omega) (by omega)
  have hjoin := hwaits (d.next + 2) (by omega) (by omega)
  have hmid := hat₁.jump_moveTo c "join" hjoin.starts hsecond
  have hle : (d.forked t).next ≤ ((e.jump c (d.next + 2) "join").moveTo (d.next + 1)).next := by
    simpa using hgrows.next
  obtain ⟨hgrows₂, st₂, hagree₂, hat₂⟩ := hno (hp₀.grow hle hagree) hmid
  have hjoin₁ := (hjoin.jump c (d.next + 2) "join").moveTo (show d.next + 2 ≠ d.next + 1 by omega)
  have hjoin₂ := hjoin₁.grow hgrows₂ hjoin₁.reserved.inside hagree₂
  refine ⟨st₂, ?_, hat₂.jump_moveTo c "join" hjoin₂.starts hjoin₂⟩
  exact (hfill.trans (by omega) hagree).trans (by omega) hagree₂

/-- A body that leads back to the header of its loop. -/
theorem At.cycle {inner : Surroundings} (hinner : c.enterLoop d.next (d.next + 2) = inner)
    (hbody : Keeps r inner (d.loopBody c inner) e) :
    ∃ st', Agree d.next st st' ∧ ((e.jump inner d.next "loop").moveTo (d.next + 2)).At r st' c.opened := by
  have hfill := agree_fill st d.next c.opened
  have hnext : (d.loopBody c inner).next = d.next + 3 := by simp [Draft.loopBody, loopHead]
  have hnew : ∀ b, d.next ≤ b → b < d.next + 3 →
      b < (d.loopBody c inner).next ∧ fill st d.next c.opened b = c.opened :=
    fun b hge hlt => ⟨by rwa [hnext], fill_of_le st _ hge⟩
  have hp₀ := (hp.grow (by omega) hfill).enterLoop (hnew d.next (by omega) (by omega))
    (hnew (d.next + 2) (by omega) (by omega))
  rw [hinner] at hp₀
  have hopened : inner.opened = c.opened := hinner ▸ rfl
  obtain ⟨hgrows, st₁, hagree, hat₁⟩ := hbody hp₀ (hopened ▸ hat.loopBody c inner)
  have hexit : (d.loopBody c inner).Waits (fill st d.next c.opened) (d.next + 2) c.opened :=
    ⟨reserved_loopBody hat.isOpen c inner, fill_of_le st _ (Nat.le_add_right _ _)⟩
  have hheader : d.next < e.next ∧ st₁ d.next = inner.opened := by
    obtain ⟨hinside, hstart⟩ := hnew d.next (by omega) (by omega)
    exact ⟨Nat.lt_of_lt_of_le hinside hgrows.next, by rw [hagree _ hinside, hstart, hopened]⟩
  refine ⟨st₁, hfill.trans (by omega) hagree, ?_⟩
  exact hat₁.jump_moveTo inner "loop" hheader (hexit.grow hgrows hexit.reserved.inside hagree)

end

end Draft

/-- Declarations open their bindings one after the other. -/
theorem openAfterAll_declarations (scrutinee : Expr) (variant : Option String) (bindings : List PayloadBinding)
    (o : List BindingId) : Stmt.openAfterAll (payloadDeclarations scrutinee variant bindings) o =
      (bindings.map (·.id)).reverse ++ o := by
  induction bindings generalizing o with
  | nil => rfl
  | cons b bindings ih =>
    rw [payloadDeclarations, List.map_cons, Stmt.openAfterAll_cons]
    exact (ih _).trans (by simp [Stmt.openAfter, PayloadBinding.declaration])

/-- Inside an arm, what its pattern binds is open as well. -/
theorem Surroundings.opened_arm {c : Surroundings} (hc : c.enterScope.Deep) (bindings : List PayloadBinding) :
    (c.enterScope.declaring (bindings.map fun b => (b.id, b.name))).opened =
      ((bindings.map fun b => (b.id, b.name)).map Prod.fst).reverse ++ c.opened := by
  rw [opened_declaring hc.scope, opened_enterScope]

/-- The start of an arm: its pattern has been declared. -/
theorem Draft.At.enterArm {r : Discipline} {d : Draft} {st : Nat → List BindingId} {c : Surroundings}
    (hat : d.At r st c.opened) (hp : c.Placed d st) (scrutinee : Expr) (variant : Option String)
    {bindings : List PayloadBinding} (hall : r.All (payloadDeclarations scrutinee variant bindings) c.opened) :
    Grows d.next d (bindings.foldl (fun d b => d.emit (b.declaration scrutinee (variant.getD ""))) d) ∧
      (c.enterScope.declaring (bindings.map fun b => (b.id, b.name))).Placed
        (bindings.foldl (fun d b => d.emit (b.declaration scrutinee (variant.getD ""))) d) st ∧
      (bindings.foldl (fun d b => d.emit (b.declaration scrutinee (variant.getD ""))) d).At r st
        (c.enterScope.declaring (bindings.map fun b => (b.id, b.name))).opened := by
  have hdeep := Surroundings.Deep.enterScope hp.depth
  have hgrows := (Lays.emitAll hat.isOpen
    (fun b : PayloadBinding => b.declaration scrutinee (variant.getD "")) bindings).grows
  have hlets := hat.emitAll (fun b : PayloadBinding => b.declaration scrutinee (variant.getD "")) bindings hall
  refine ⟨hgrows, ((hp.grow hgrows.next (.refl d.next st)).enterScope).declaring hdeep _, ?_⟩
  rw [Surroundings.opened_arm hdeep]
  have hopen := openAfterAll_declarations scrutinee variant bindings c.opened
  rw [payloadDeclarations] at hopen
  simpa [hopen, Function.comp_def] using hlets

theorem declared_subset_binds (s : Stmt) : ∀ id ∈ s.declared.map Prod.fst, id ∈ s.binds := by
  cases s <;> simp [Stmt.declared, Stmt.binds]

mutual

/-- Lowering the statement where these bindings are open keeps the discipline; `ret` is the name of
the return slot. -/
def Stmt.Obeys (r : Discipline) (ret : String) : Stmt → List BindingId → Prop
  | .declare name id value loc, o => r.stmt (.declare name id value loc) o
  | .assign target value loc, o => r.stmt (.assign target value loc) o
  | .eval expr loc, o => r.stmt (.eval expr loc) o
  | .block body, o => body.Obeys r ret o
  | .branch cond yes no _, o => r.test cond o ∧ yes.Obeys r ret o ∧ Block.ObeysOptional r ret no o
  | .loop body _, o => body.Obeys r ret o
  | .ret value loc, o => r.All (returnStores ret value loc) o
  | .select scrutinee arms _, o => r.test scrutinee o ∧ Arm.ObeysAll r ret scrutinee arms o
  | .breakLoop _, _ | .continueLoop _, _ | .storageDead .., _ | .foreign, _ => True

def Stmt.ObeysAll (r : Discipline) (ret : String) : List Stmt → List BindingId → Prop
  | [], _ => True
  | s :: rest, o => s.Obeys r ret o ∧ Stmt.ObeysAll r ret rest ((s.declared.map Prod.fst).reverse ++ o)

def Block.Obeys (r : Discipline) (ret : String) : Block → List BindingId → Prop
  | .mk statements _, o => Stmt.ObeysAll r ret statements o

def Block.ObeysOptional (r : Discipline) (ret : String) : Option Block → List BindingId → Prop
  | none, _ => True
  | some b, o => b.Obeys r ret o

def Arm.ObeysAll (r : Discipline) (ret : String) (scrutinee : Expr) : List Arm → List BindingId → Prop
  | [], _ => True
  | .mk variant body bindings _ :: rest, o => r.All (payloadDeclarations scrutinee variant bindings) o ∧
    body.Obeys r ret ((bindings.map (·.id)).reverse ++ o) ∧ Arm.ObeysAll r ret scrutinee rest o

end

mutual

theorem lowerStmt_at : ∀ (s : Stmt) {r : Discipline} {c : Surroundings} {d e : Draft}
    {st : Nat → List BindingId}, c.Placed d st → d.At r st c.opened → s.Obeys r c.returnName c.opened →
    lowerStmt c s d = .ok e →
    ∃ st', Agree d.next st st' ∧ e.At r st' ((s.declared.map Prod.fst).reverse ++ c.opened)
  | .declare .., r, c, d, e, st, hp, hat, hf, h | .assign .., r, c, d, e, st, hp, hat, hf, h
  | .eval .., r, c, d, e, st, hp, hat, hf, h => by
    obtain rfl := Except.ok.inj h
    exact ⟨st, .refl _ st, hat.emit hf⟩
  | .block body, r, c, d, e, st, hp, hat, hf, h => lowerBlock_at body hp hat hf h
  | .branch cond yes no loc, r, c, d, e, st, hp, hat, hf, h => by
    obtain ⟨t, d₁, d₂, ⟨hedges, hcond, hnone⟩, hyes, hno, rfl⟩ := lowerStmt_branch h
    obtain ⟨htest, hfYes, hfNo⟩ := hf
    exact hat.fork hp hedges (by simpa [hcond, hnone] using htest)
      (fun hp' hat' => ⟨(lowerBlock_lays yes hat'.isOpen hyes).grows, lowerBlock_at yes hp' hat' hfYes hyes⟩)
      (fun hp' hat' => ⟨(lowerOptional_lays no hat'.isOpen hno).grows, lowerOptional_at no hp' hat' hfNo hno⟩)
  | .loop body loc, r, c, d, e, st, hp, hat, hf, h => by
    simp only [lowerStmtBy, bind_eq_ok, pure_eq, Except.ok.injEq] at h
    obtain ⟨d₁, hbody, rfl⟩ := h
    exact hat.cycle hp rfl fun hp' hat' =>
      ⟨(lowerBlock_lays body hat'.isOpen hbody).grows, lowerBlock_at body hp' hat' hf hbody⟩
  | .breakLoop loc, r, c, d, e, st, hp, hat, hf, h => by
    unfold lowerStmtBy at h
    split at h
    · cases h
    · rename_i l rest hloops
      obtain rfl := Except.ok.inj h
      have hl : l ∈ c.loops := hloops ▸ List.mem_cons_self
      exact hat.leave l.depth "break" loc (hp.loopExit l hl)
  | .continueLoop loc, r, c, d, e, st, hp, hat, hf, h => by
    unfold lowerStmtBy at h
    split at h
    · cases h
    · rename_i l rest hloops
      obtain rfl := Except.ok.inj h
      have hl : l ∈ c.loops := hloops ▸ List.mem_cons_self
      exact hat.leave l.depth "continue" loc (hp.header l hl)
  | .ret value loc, r, c, d, e, st, hp, hat, hf, h => by
    have hexit : c.exit < d.next ∧ st c.exit = c.openBelow 0 := by
      rw [c.openBelow_zero]
      exact hp.exit
    cases value with
    | none =>
      obtain rfl := Except.ok.inj h
      exact hat.leave 0 "return" loc hexit
    | some value =>
      obtain rfl := Except.ok.inj h
      have hstored := hat.emit (s := .assign (.var c.returnName returnSlot loc) value loc) hf.1
      have hleft := hstored.leave 0 "return" loc (by rwa [next_emit])
      rwa [next_emit] at hleft
  | .select scrutinee arms loc, r, c, d, e, st, hp, hat, hf, h => by
    obtain ⟨d₁, rfl, harms⟩ := lowerStmt_select h
    obtain ⟨htest, hf⟩ := hf
    have hended := hat.branch (arms.length + 1)
      { kind := .switch, edges := arms.mapIdx fun i a => ⟨d.next + 1 + i, a.label⟩,
        scrutinee := some scrutinee, loc := loc } (by simpa using htest) (by
      intro e he
      obtain ⟨i, hi, rfl⟩ := List.mem_mapIdx.mp he
      dsimp only
      omega)
    generalize ({ kind := .switch, edges := arms.mapIdx fun i a => ⟨d.next + 1 + i, a.label⟩,
                  scrutinee := some scrutinee, loc := loc } : Terminator) = t at hended harms
    generalize hd₀ : (d.addBlocks (arms.length + 1)).terminate t = d₀ at hended harms
    have hnext : d₀.next = d.next + (arms.length + 1) := by simp [← hd₀]
    have hwaits : ∀ b, d.next ≤ b → b < d.next + (arms.length + 1) →
        d₀.Waits (fill st d.next c.opened) b c.opened := fun b hge hlt =>
      ⟨hd₀ ▸ (reserved_addBlocks hat.isOpen.inside hge hlt).terminate t, fill_of_le st _ hge⟩
    have hfill := agree_fill st d.next c.opened
    have hjoin := hwaits d.next (by omega) (by omega)
    have harmsWait : ∀ i < arms.length, d₀.Waits (fill st d.next c.opened) (d.next + 1 + i) c.opened :=
      fun i hi => hwaits _ (by omega) (by omega)
    obtain ⟨st₁, hagree, hnested⟩ :=
      lowerArms_at arms (hp.grow (by omega) hfill) hended harmsWait hjoin.starts hf harms
    have hgrows := (lowerArms_lays arms (fun i hi => (harmsWait i hi).reserved) harms).1
    refine ⟨st₁, hfill.trans (by omega) hagree, ?_⟩
    exact (hjoin.grow hgrows (Nat.lt_succ_self d.next) hagree).at_moveTo hnested
  | .storageDead id name loc, r, c, d, e, st, hp, hat, hf, h => by cases h
  | .foreign, r, c, d, e, st, hp, hat, hf, h => by cases h

theorem lowerStmts_at : ∀ (ss : List Stmt) {r : Discipline} {c : Surroundings} {d e : Draft}
    {st : Nat → List BindingId}, c.Deep → c.Placed d st → d.At r st c.opened →
    Stmt.ObeysAll r c.returnName ss c.opened → lowerStmts c ss d = .ok e →
    ∃ st', Agree d.next st st' ∧ e.At r st' (((declaredIn ss).map Prod.fst).reverse ++ c.opened)
  | [], r, c, d, e, st, hc, hp, hat, hf, h => by
    obtain rfl := Except.ok.inj h
    exact ⟨st, .refl _ st, hat⟩
  | s :: rest, r, c, d, e, st, hc, hp, hat, hf, h => by
    simp only [lowerStmtsBy, bind_eq_ok] at h
    obtain ⟨d₁, hs, hrest⟩ := h
    obtain ⟨hfHead, hfRest⟩ := hf
    obtain ⟨st₁, hagree, hat₁⟩ := lowerStmt_at s hp hat hfHead hs
    have hnext := (lowerStmt_lays s hat.isOpen hs).grows.next
    rw [← Surroundings.opened_declaring hc.scope] at hat₁ hfRest
    rw [← c.returnName_declaring s.declared] at hfRest
    obtain ⟨st₂, hagree₂, hat₂⟩ := lowerStmts_at rest (hc.declaring _)
      ((hp.grow hnext hagree).declaring hc _) hat₁ hfRest hrest
    refine ⟨st₂, hagree.trans hnext hagree₂, ?_⟩
    rw [Surroundings.opened_declaring hc.scope] at hat₂
    simpa [declaredIn] using hat₂

theorem lowerBlock_at : ∀ (b : Block) {r : Discipline} {c : Surroundings} {d e : Draft}
    {st : Nat → List BindingId}, c.Placed d st → d.At r st c.opened → b.Obeys r c.returnName c.opened →
    lowerBlock c b d = .ok e → ∃ st', Agree d.next st st' ∧ e.At r st' c.opened
  | .mk statements loc, r, c, d, e, st, hp, hat, hf, h => by
    simp only [lowerBlockBy, bind_eq_ok, pure_eq, Except.ok.injEq] at h
    obtain ⟨d₁, hall, rfl⟩ := h
    rw [← c.opened_enterScope] at hat hf
    obtain ⟨st', hagree, hat'⟩ := lowerStmts_at statements (.enterScope hp.depth) hp.enterScope hat hf hall
    rw [c.opened_enterScope] at hat'
    exact ⟨st', hagree, hat'.endStorage _ loc⟩

theorem lowerOptional_at : ∀ (b : Option Block) {r : Discipline} {c : Surroundings} {d e : Draft}
    {st : Nat → List BindingId}, c.Placed d st → d.At r st c.opened →
    Block.ObeysOptional r c.returnName b c.opened → lowerOptional c b d = .ok e →
    ∃ st', Agree d.next st st' ∧ e.At r st' c.opened
  | none, r, c, d, e, st, hp, hat, hf, h => by
    obtain rfl := Except.ok.inj h
    exact ⟨st, .refl _ st, hat⟩
  | some b, r, c, d, e, st, hp, hat, hf, h => lowerBlock_at b hp hat hf h

theorem lowerArms_at : ∀ (arms : List Arm) {r : Discipline} {c : Surroundings} {scrutinee : Expr}
    {join start : Nat} {d e : Draft} {st : Nat → List BindingId}, c.Placed d st → d.Nested r st →
    (∀ i < arms.length, d.Waits st (start + i) c.opened) → join < d.next ∧ st join = c.opened →
    Arm.ObeysAll r c.returnName scrutinee arms c.opened → lowerArms c scrutinee join start arms d = .ok e →
    ∃ st', Agree d.next st st' ∧ e.Nested r st'
  | [], r, c, scrutinee, join, start, d, e, st, hp, hd, hw, hj, hf, h => by
    obtain rfl := Except.ok.inj h
    exact ⟨st, .refl _ st, hd⟩
  | .mk variant body bindings loc :: rest, r, c, scrutinee, join, start, d, e, st, hp, hd, hw, hj, hf, h => by
    obtain ⟨d₁, hbody, hrest⟩ := lowerArms_cons h
    obtain ⟨hfLets, hfBody, hfRest⟩ := hf
    have hdeep := Surroundings.Deep.enterScope hp.depth
    have hopened := Surroundings.opened_arm hdeep bindings
    have hstart : d.Waits st start c.opened := hw 0 (by simp)
    have hp' := hp.grow (e := d.moveTo start) (Nat.le_refl d.next) (.refl d.next st)
    obtain ⟨hgrows₀, hp₀, hat₀⟩ := (hstart.at_moveTo hd).enterArm hp' scrutinee variant hfLets
    have hname := c.enterScope.returnName_declaring (bindings.map fun b => (b.id, b.name))
    obtain ⟨st₁, hagree, hat₁⟩ := lowerBlock_at body hp₀ hat₀
      (by rw [hname, hopened, List.map_map]; exact hfBody) hbody
    rw [hopened] at hat₁
    have hclosed := hat₁.endStorage _ body.loc
    have hgrows := (hgrows₀.trans ((lowerBlock_lays body hat₀.isOpen hbody).grows.mono hgrows₀.next)).trans
      ((Lays.endStorage hat₁.isOpen (bindings.map fun b => (b.id, b.name)) body.loc).grows.mono
        (Nat.le_trans hgrows₀.next (lowerBlock_lays body hat₀.isOpen hbody).grows.next))
    have hagree₁ : Agree d.next st st₁ := (Agree.refl d.next st).trans hgrows₀.next hagree
    generalize d₁.endStorage (bindings.map fun b => (b.id, b.name)) body.loc = d₂ at hclosed hgrows hrest
    have hjoin : join < d₂.next ∧ st₁ join = c.opened :=
      ⟨Nat.lt_of_lt_of_le hj.1 hgrows.next, (hagree₁ _ hj.1).trans hj.2⟩
    have hrestWait : ∀ i < rest.length, (d₂.jump c join "join").Waits st₁ (start + 1 + i) c.opened := by
      intro i hi
      have hlater := hw (i + 1) (by simpa using hi)
      rw [show start + (i + 1) = start + 1 + i by omega] at hlater
      exact ((hlater.moveTo (by omega)).grow hgrows hlater.reserved.inside hagree₁).jump c join "join"
    have hle : d.next ≤ (d₂.jump c join "join").next := by simpa using hgrows.next
    obtain ⟨st₂, hagree₂, hnested⟩ := lowerArms_at rest (hp.grow hle hagree₁)
      (hclosed.jump c "join" hjoin.1 hjoin.2) hrestWait ⟨by simpa using hjoin.1, hjoin.2⟩ hfRest hrest
    exact ⟨st₂, hagree₁.trans hle hagree₂, hnested⟩

end

theorem all_declarations_of_fresh {bindings : List PayloadBinding} {o : List BindingId} (scrutinee : Expr)
    (variant : Option String) (h : Fresh (bindings.map (·.id)) o) :
    Discipline.nesting.All (payloadDeclarations scrutinee variant bindings) o := by
  induction bindings generalizing o with
  | nil => trivial
  | cons b bindings ih =>
    refine ⟨h.closed b.id (by simp), ih ?_⟩
    exact Fresh.right (a := [b.id]) h fun id hid => by
      simpa [Stmt.openAfter, PayloadBinding.declaration] using hid

mutual

/-- Bindings that are made once each are opened where they are closed. -/
theorem Stmt.obeys_of_fresh : ∀ (s : Stmt) {ret : String} {o : List BindingId}, Fresh s.binds o →
    s.Obeys .nesting ret o
  | .declare name id value loc, ret, o, h => h.closed id (by simp [Stmt.binds])
  | .block body, ret, o, h => body.obeys_of_fresh (by rwa [Stmt.binds] at h)
  | .branch cond yes no loc, ret, o, h => by
    rw [Stmt.binds] at h
    exact ⟨trivial, yes.obeys_of_fresh h.left,
      Block.obeysOptional_of_fresh no (h.right fun id hid => .inr hid)⟩
  | .loop body loc, ret, o, h => body.obeys_of_fresh (by rwa [Stmt.binds] at h)
  | .select scrutinee arms loc, ret, o, h =>
    ⟨trivial, Arm.obeysAll_of_fresh arms (by rwa [Stmt.binds] at h)⟩
  | .ret none loc, ret, o, h => trivial
  | .ret (some value) loc, ret, o, h => ⟨trivial, trivial⟩
  | .assign .., ret, o, h | .eval .., ret, o, h | .breakLoop _, ret, o, h | .continueLoop _, ret, o, h
  | .storageDead .., ret, o, h | .foreign, ret, o, h => trivial

theorem Stmt.obeysAll_of_fresh : ∀ (ss : List Stmt) {ret : String} {o : List BindingId},
    Fresh (Stmt.bindsAll ss) o → Stmt.ObeysAll .nesting ret ss o
  | [], ret, o, h => trivial
  | s :: rest, ret, o, h => by
    rw [Stmt.bindsAll] at h
    refine ⟨s.obeys_of_fresh h.left, Stmt.obeysAll_of_fresh rest (h.right fun id hid => ?_)⟩
    rw [List.mem_append, List.mem_reverse] at hid
    exact hid.imp_left (declared_subset_binds s id)

theorem Block.obeys_of_fresh : ∀ (b : Block) {ret : String} {o : List BindingId}, Fresh b.binds o →
    b.Obeys .nesting ret o
  | .mk statements loc, ret, o, h => Stmt.obeysAll_of_fresh statements (by rwa [Block.binds] at h)

theorem Block.obeysOptional_of_fresh : ∀ (b : Option Block) {ret : String} {o : List BindingId},
    Fresh (Block.bindsOptional b) o → Block.ObeysOptional .nesting ret b o
  | none, ret, o, h => trivial
  | some b, ret, o, h => b.obeys_of_fresh (by rwa [Block.bindsOptional] at h)

theorem Arm.obeysAll_of_fresh : ∀ (arms : List Arm) {ret : String} {scrutinee : Expr} {o : List BindingId},
    Fresh (Arm.bindsAll arms) o → Arm.ObeysAll .nesting ret scrutinee arms o
  | [], ret, scrutinee, o, h => trivial
  | .mk variant body bindings loc :: rest, ret, scrutinee, o, h => by
    rw [Arm.bindsAll, List.append_assoc] at h
    have hbody := (h.right (w := (bindings.map (·.id)).reverse ++ o) fun id hid => by simpa using hid).left
    have hrest := (h.right (w := o) fun id hid => .inr hid).right (w := o) fun id hid => .inr hid
    exact ⟨all_declarations_of_fresh scrutinee variant h.left, body.obeys_of_fresh hbody,
      Arm.obeysAll_of_fresh rest hrest⟩

end

namespace Graph

variable {r : Discipline} {g : Graph} {st : Nat → List BindingId} {p : Point} {o : List BindingId}

/-- Every block is in order with what is open where it starts, and hands on what is open where it ends. -/
structure Nested (r : Discipline) (g : Graph) (st : Nat → List BindingId) : Prop where
  statements : ∀ b, r.All (g.block b).statements (st b)
  tests : ∀ b t, (g.block b).terminator = some t → ∀ e, t.cond = some e ∨ t.scrutinee = some e →
    r.test e (Stmt.openAfterAll (g.block b).statements (st b))
  edges : ∀ b c, c ∈ g.successors b → st c = Stmt.openAfterAll (g.block b).statements (st b)

/-- The bindings that are open before a point of a block. -/
def openBefore (g : Graph) (st : Nat → List BindingId) (p : Point) : List BindingId :=
  Stmt.openAfterAll ((g.block p.block).statements.take p.index) (st p.block)

/-- The bindings that are open behind a point. -/
def openNext (g : Graph) (p : Point) (o : List BindingId) : List BindingId :=
  (g.statementAt p).elim o fun s => s.openAfter o

theorem Nested.stmt (h : g.Nested r st) {s : Stmt} (hs : g.statementAt p = some s) :
    r.stmt s (g.openBefore st p) := by
  obtain ⟨hlt, hget⟩ := List.getElem?_eq_some_iff.mp hs
  have hall := h.statements p.block
  rw [← List.take_append_drop p.index (g.block p.block).statements, Discipline.all_append,
    List.drop_eq_getElem_cons hlt, hget] at hall
  exact hall.2.1

theorem Nested.follows (h : g.Nested r st) {q : Point} (hq : g.Follows p q) :
    g.openBefore st q = g.openNext p (g.openBefore st p) := by
  cases hq with
  | @along b i hi =>
    have hget : g.statementAt ⟨b, i⟩ = some (g.block b).statements[i] := List.getElem?_eq_getElem hi
    simp only [openNext, hget, Option.elim, openBefore]
    rw [List.take_succ_eq_append_getElem hi, Stmt.openAfterAll_concat]
  | @across b c i hi hc =>
    have hnone : g.statementAt ⟨b, i⟩ = none := List.getElem?_eq_none (Nat.le_of_eq hi.symm)
    simp only [openNext, hnone, Option.elim, openBefore, List.take_zero, Stmt.openAfterAll_nil]
    rw [h.edges b c hc, List.take_of_length_le (Nat.le_of_eq hi.symm)]

end Graph

namespace Function

variable {f : Function} {g : Graph}

/-- Some path from the entry reaches the point with these bindings open; the parameters are open
from the start. -/
def OpenAt (f : Function) (g : Graph) : Point → List BindingId → Prop :=
  g.Reaches (· = (f.params.map Param.id).reverse) fun p _ o o' => o' = g.openNext p o

theorem opened_surroundings (f : Function) : f.surroundings.opened = (f.params.map Param.id).reverse := by
  simp [Surroundings.opened, surroundings, paramBindings]

/-- At the entry of a draft the parameters are open, and at its exit nothing is. -/
theorem at_firstDraft (r : Discipline) (f : Function) :
    f.firstDraft.At r (fill (fun _ => f.surroundings.opened) 1 []) f.surroundings.opened := by
  have hblocks : ∀ b, f.firstDraft.block b = { id := b } ∨
      f.firstDraft.block b = { id := 1, terminator := some { kind := .ret, loc := f.loc } }
    | 0 => .inl rfl
    | 1 => .inr rfl
    | b + 2 => .inl (block_of_next_le (by simp [next, firstDraft]))
  refine ⟨f.open_firstDraft, ⟨fun b => ?_, fun b t ht => ?_⟩, rfl⟩
  · rcases hblocks b with hb | hb <;> rw [hb] <;> trivial
  · rcases hblocks b with hb | hb
    · rw [hb] at ht
      cases ht
    · rw [hb] at ht
      obtain rfl := Option.some.inj ht
      exact ⟨by simp, by simp⟩

theorem placed_surroundings (f : Function) :
    f.surroundings.Placed f.firstDraft (fill (fun _ => f.surroundings.opened) 1 []) where
  exit := ⟨by simp [next, firstDraft, surroundings], rfl⟩
  header l hl := by cases hl
  loopExit l hl := by cases hl
  depth l hl := by cases hl

/-- What is open where a block starts can be written down once for the whole graph. -/
theorem graph_obeys {r : Discipline} (h : f.graph = .ok g)
    (hf : Stmt.ObeysAll r f.returnName f.body.statements (f.params.map Param.id).reverse) :
    ∃ st, g.Nested r st ∧ st g.entry = (f.params.map Param.id).reverse ∧ st g.exit = [] := by
  obtain ⟨d, hlower, hsame, hentry, hexit⟩ := graph_draft h
  rw [← opened_surroundings] at hf
  have hdeep : f.surroundings.Deep := ⟨by simp [surroundings], fun l hl => by cases hl⟩
  obtain ⟨st, hagree, hat⟩ :=
    lowerStmts_at _ hdeep f.placed_surroundings (f.at_firstDraft r) hf hlower
  have hnext : d.next ≤ (d.endStorage (f.paramBindings ++ declaredIn f.body.statements) f.body.loc).next :=
    (Lays.endStorage hat.isOpen _ _).grows.next
  have hgrows := (lowerStmts_lays _ f.open_firstDraft hlower).grows.next
  have hfirst : f.firstDraft.next = 2 := rfl
  have hclosed := At.endStorage (o := []) (f.paramBindings ++ declaredIn f.body.statements) f.body.loc
    (by simpa [Surroundings.opened, surroundings] using hat)
  have hst : st 1 = [] := hagree 1 (by omega)
  have hdone := hclosed.jump f.surroundings "return" (by omega) hst
  refine ⟨st, ⟨fun b => ?_, fun b t ht => ?_, fun b c hc => ?_⟩, ?_, ?_⟩
  · rw [hsame]
    exact hdone.statements b
  · rw [hsame] at ht ⊢
    exact (hdone.ends b t ht).tests
  · simp only [Graph.successors, BasicBlock.successors, hsame] at hc ⊢
    cases ht : (((d.endStorage (f.paramBindings ++ declaredIn f.body.statements) f.body.loc).jump
        f.surroundings 1 "return").block b).terminator with
    | none => simp [ht] at hc
    | some t =>
      rw [ht] at hc
      obtain ⟨e, he, rfl⟩ := List.mem_map.mp hc
      exact ((hdone.ends b t ht).edges e he).2
  · rw [hentry, hagree 0 (by omega), ← opened_surroundings]
    rfl
  · rw [hexit, hst]

theorem graph_nested (h : f.graph = .ok g) (hf : f.binds.Nodup) : ∃ st, g.Nested .nesting st ∧
    st g.entry = (f.params.map Param.id).reverse ∧ st g.exit = [] := by
  have hall : Fresh f.binds [] := ⟨hf, fun _ _ => List.not_mem_nil⟩
  refine graph_obeys h (Stmt.obeysAll_of_fresh _ (hall.right fun id hid => ?_))
  exact .inl (List.mem_reverse.mp hid)

theorem OpenAt.eq_openBefore {r : Discipline} {st : Nat → List BindingId} (hg : g.Nested r st)
    (hentry : st g.entry = (f.params.map Param.id).reverse) {p : Point} {o : List BindingId}
    (h : f.OpenAt g p o) : o = g.openBefore st p := by
  induction h with
  | entry h =>
    rw [h, ← hentry]
    rfl
  | next _ hfollows hstep ih => rw [hstep, hg.follows hfollows, ih]

end Function

/-- On every path a declaration opens a closed binding and the end of storage closes the open
binding that was opened last; which bindings are open at a point, and in which order, is the same
for all paths; and none is open at the exit. -/
theorem scopes_close_once {f : Function} {g : Graph} (h : f.graph = .ok g) (hf : f.binds.Nodup) {p : Point}
    {o : List BindingId} (hp : f.OpenAt g p o) :
    (∀ s, g.statementAt p = some s → s.Nests o) ∧ (∀ o', f.OpenAt g p o' → o' = o) ∧
      (p.block = g.exit → o = []) := by
  obtain ⟨st, hnested, hentry, hexit⟩ := Function.graph_nested h hf
  have ho := hp.eq_openBefore hnested hentry
  refine ⟨fun s hs => ?_, fun o' ho' => ?_, fun hblock => ?_⟩
  · rw [ho]
    exact hnested.stmt hs
  · rw [ho, ho'.eq_openBefore hnested hentry]
  · obtain ⟨hret, -⟩ := Function.graph_laid h
    have hnone : (g.block g.exit).statements = [] := List.eq_nil_of_length_eq_zero hret.last.symm
    rw [ho, Graph.openBefore, hblock, hnone, hexit]
    simp

/-- A loop whose body declares a binding and breaks out of the scope that holds it. -/
def breakOut : Function where
  name := "breakOut"
  params := [⟨"x", 1, 1, {}⟩]
  ret := none
  body := .mk [.loop (.mk [.declare "y" 2 (some (.var "x" 1 {})) {}, .breakLoop {}] {}) {}] {}
  bindings := .ofList [(1, ⟨1, "x", 1, .param, {}⟩), (2, ⟨2, "y", 1, .localVar, {}⟩)]

def breakOutGraph : Graph := breakOut.graph.toOption.getD default

/-- The path into the loop has both bindings open where the storage of the inner one ends. -/
theorem scopes_close_once_breakOut : breakOut.graph = .ok breakOutGraph ∧ breakOut.binds.Nodup ∧
    breakOut.OpenAt breakOutGraph ⟨3, 1⟩ [2, 1] ∧
    ∀ s, breakOutGraph.statementAt ⟨3, 1⟩ = some s → s.isStorageDead = true ∧ s.Nests [2, 1] := by
  have hg : breakOut.graph = .ok breakOutGraph := eq_ok_getD default (by decide +kernel)
  have hnodup : breakOut.binds.Nodup := by decide
  have hdead : (breakOutGraph.statementAt ⟨3, 1⟩).map Stmt.isStorageDead = some true := by decide +kernel
  have hedges : (breakOutGraph.entry, breakOutGraph.last 0, breakOutGraph.successors 0, breakOutGraph.last 2,
      breakOutGraph.successors 2, breakOutGraph.last 3) = (0, 0, [2], 0, [3], 2) := by decide +kernel
  have hopen : (breakOutGraph.openNext ⟨0, 0⟩ [1], breakOutGraph.openNext ⟨2, 0⟩ [1],
      breakOutGraph.openNext ⟨3, 0⟩ [1]) = ([1], [1], [2, 1]) := by decide +kernel
  simp only [Prod.mk.injEq] at hedges hopen
  obtain ⟨hentry, hlast0, hsucc0, hlast2, hsucc2, hlast3⟩ := hedges
  obtain ⟨hopen0, hopen2, hopen3⟩ := hopen
  have hstart : breakOut.OpenAt breakOutGraph ⟨breakOutGraph.entry, 0⟩ [1] := .entry rfl
  rw [hentry] at hstart
  have hheader : breakOut.OpenAt breakOutGraph ⟨2, 0⟩ [1] :=
    hstart.next (.across hlast0.symm (by rw [hsucc0]; exact List.mem_cons_self)) hopen0.symm
  have hbody : breakOut.OpenAt breakOutGraph ⟨3, 0⟩ [1] :=
    hheader.next (.across hlast2.symm (by rw [hsucc2]; exact List.mem_cons_self)) hopen2.symm
  have hinner : breakOut.OpenAt breakOutGraph ⟨3, 1⟩ [2, 1] :=
    hbody.next (.along (by rw [hlast3]; decide)) hopen3.symm
  refine ⟨hg, hnodup, hinner, fun s hs => ⟨?_, (scopes_close_once hg hnodup hinner).1 s hs⟩⟩
  rw [hs] at hdead
  exact Option.some.inj hdead

end Ownership
