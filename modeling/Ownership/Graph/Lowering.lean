import Ownership.Graph
import Ownership.Function

/-!
Lowering of a function body to a control-flow graph. Statements that only
compute stay as they are; control statements end the open block and go on in a
new one. Whatever leaves a scope, by its end or by a jump out of it, first ends
the storage of the bindings declared in it, innermost first. How a block is
ended is a parameter of lowering, so that one can say what depends on it.
-/
namespace Ownership

/-- A graph in the making, with the block that statements are added to. -/
structure Draft where
  blocks : List BasicBlock := []
  current : Nat := 0
  backEdges : List (Nat × Nat) := []
  deriving Inhabited

namespace Draft

/-- The number of the next new block. -/
def next (d : Draft) : Nat := d.blocks.length

def addBlock (d : Draft) (loopHeader : Bool) : Draft :=
  { d with blocks := d.blocks ++ [{ id := d.next, loopHeader := loopHeader }] }

def addBlocks (d : Draft) (n : Nat) : Draft :=
  { d with blocks := d.blocks ++ (List.range n).map fun i => { id := d.next + i } }

def moveTo (d : Draft) (b : Nat) : Draft := { d with current := b }

/-- Goes on in a fresh block that nothing leads to. -/
def detach (d : Draft) : Draft := (d.addBlock false).moveTo d.next

def emit (d : Draft) (s : Stmt) : Draft :=
  { d with blocks := d.blocks.modify d.current fun b => { b with statements := b.statements ++ [s] } }

def terminate (d : Draft) (t : Terminator) : Draft :=
  { d with blocks := d.blocks.modify d.current fun b => { b with terminator := some t } }

/-- Ends the storage of the bindings, the last declared first. -/
def endStorage (d : Draft) (bindings : List (BindingId × String)) (loc : Span) : Draft :=
  bindings.reverse.foldl (fun d b => d.emit (.storageDead b.1 b.2 loc)) d

end Draft

/-- A loop around the statement: its header, its exit, and how many scopes enclose it. -/
structure LoopFrame where
  header : Nat
  exit : Nat
  depth : Nat
  deriving DecidableEq, Repr, Inhabited

/-- What surrounds a statement: open scopes and loops, innermost first, and the function's exit. -/
structure Surroundings where
  scopes : List (List (BindingId × String))
  loops : List LoopFrame
  exit : Nat
  returnName : String
  deriving Inhabited

namespace Surroundings

def enterScope (c : Surroundings) : Surroundings := { c with scopes := [] :: c.scopes }

def declaring (c : Surroundings) (bindings : List (BindingId × String)) : Surroundings :=
  match c.scopes with
  | [] => c
  | scope :: outer => { c with scopes := (scope ++ bindings) :: outer }

def enterLoop (c : Surroundings) (header exit : Nat) : Surroundings :=
  { c with loops := ⟨header, exit, c.scopes.length⟩ :: c.loops }

/-- The bindings of the scopes inside the outer `depth` ones, innermost last. -/
def bindingsAbove (c : Surroundings) (depth : Nat) : List (BindingId × String) :=
  (c.scopes.take (c.scopes.length - depth)).reverse.flatten

end Surroundings

namespace Draft

/-- Jumps from the current block, which `close` ends; a jump to the header of an open loop closes a cycle. -/
def jumpBy (close : Draft → Terminator → Draft) (d : Draft) (c : Surroundings) (target : Nat)
    (label : String) : Draft :=
  let d := close d { kind := .jump, edges := [⟨target, label⟩] }
  if c.loops.any (·.header = target) && !d.backEdges.contains (d.current, target) then
    { d with backEdges := d.backEdges ++ [(d.current, target)] }
  else d

/-- Leaves every scope inside the outer `depth` ones, jumps, and goes on in dead code. -/
def leaveBy (close : Draft → Terminator → Draft) (d : Draft) (c : Surroundings) (depth : Nat)
    (target : Nat) (label : String) (loc : Span) : Draft :=
  ((d.endStorage (c.bindingsAbove depth) loc).jumpBy close c target label).detach

abbrev jump (d : Draft) (c : Surroundings) (target : Nat) (label : String) : Draft :=
  d.jumpBy terminate c target label

abbrev leave (d : Draft) (c : Surroundings) (depth : Nat) (target : Nat) (label : String)
    (loc : Span) : Draft :=
  d.leaveBy terminate c depth target label loc

end Draft

/-- The bindings that statements add to the scope they stand in. -/
def declaredIn (statements : List Stmt) : List (BindingId × String) :=
  statements.flatMap Stmt.declared

/-- The declaration that binds a payload field at the start of an arm. -/
def PayloadBinding.declaration (b : PayloadBinding) (scrutinee : Expr) (variant : String) : Stmt :=
  let payload := Expr.payload scrutinee variant b.field b.loc
  let value := if b.byRef then Expr.borrow payload b.mutable b.loc else payload
  .declare b.name b.id (some value) b.loc

section

variable (close : Draft → Terminator → Draft)

mutual

/-- Lowering of a statement. The current block is ended by `close`. -/
def lowerStmtBy (c : Surroundings) : Stmt → Draft → Except Fault Draft
  | .declare name id value loc, d => .ok (d.emit (.declare name id value loc))
  | .assign target value loc, d => .ok (d.emit (.assign target value loc))
  | .eval expr loc, d => .ok (d.emit (.eval expr loc))
  | .block body, d => lowerBlockBy c body d
  | .branch cond yes no loc, d => do
    let yesStart := d.next
    let noStart := d.next + 1
    let join := d.next + 2
    let edges : List Edge := [⟨yesStart, "then"⟩, ⟨noStart, "else"⟩]
    let d := close (d.addBlocks 3)
      { kind := .branch, edges := edges, cond := some cond, loc := loc }
    let d ← lowerBlockBy c yes (d.moveTo yesStart)
    let d := (d.jumpBy close c join "join").moveTo noStart
    let d ← lowerOptionalBy c no d
    return (d.jumpBy close c join "join").moveTo join
  | .loop body _, d => do
    let header := d.next
    let start := d.next + 1
    let exit := d.next + 2
    let inner := c.enterLoop header exit
    let d := ((d.addBlock true).addBlocks 2).jumpBy close c header "loop"
    let d := ((d.moveTo header).jumpBy close inner start "body").moveTo start
    let d ← lowerBlockBy inner body d
    return (d.jumpBy close inner header "loop").moveTo exit
  | .breakLoop loc, d =>
    match c.loops with
    | [] => .error (.breach (.outsideLoop (Stmt.breakLoop loc).form) loc)
    | l :: _ => .ok (d.leaveBy close c l.depth l.exit "break" loc)
  | .continueLoop loc, d =>
    match c.loops with
    | [] => .error (.breach (.outsideLoop (Stmt.continueLoop loc).form) loc)
    | l :: _ => .ok (d.leaveBy close c l.depth l.header "continue" loc)
  | .ret value loc, d =>
    let d := match value with
      | some e => d.emit (.assign (.var c.returnName returnSlot loc) e loc)
      | none => d
    .ok (d.leaveBy close c 0 c.exit "return" loc)
  | .select scrutinee arms loc, d => do
    unless scrutinee.isPlace do throw (.breach .scrutineeNotPlace loc)
    if arms.isEmpty then throw (.breach .noArms loc)
    let join := d.next
    let edges := arms.mapIdx fun i a => (⟨join + 1 + i, a.label⟩ : Edge)
    let d := close (d.addBlocks (arms.length + 1))
      { kind := .switch, edges := edges, scrutinee := some scrutinee, loc := loc }
    let d ← lowerArmsBy c scrutinee join (join + 1) arms d
    return d.moveTo join
  | .storageDead id name loc, _ =>
    .error (.breach (.unsupportedStatement (Stmt.storageDead id name loc).form) loc)
  | .foreign, _ => .error (.breach (.unsupportedStatement Stmt.foreign.form) {})

def lowerStmtsBy (c : Surroundings) : List Stmt → Draft → Except Fault Draft
  | [], d => .ok d
  | s :: rest, d => do
    let d ← lowerStmtBy c s d
    lowerStmtsBy (c.declaring s.declared) rest d

def lowerBlockBy (c : Surroundings) : Block → Draft → Except Fault Draft
  | .mk statements loc, d => do
    let d ← lowerStmtsBy c.enterScope statements d
    return d.endStorage (declaredIn statements) loc

def lowerOptionalBy (c : Surroundings) : Option Block → Draft → Except Fault Draft
  | none, d => .ok d
  | some b, d => lowerBlockBy c b d

/-- Lowers the arms into the blocks from `start` on; all of them meet in `join`. -/
def lowerArmsBy (c : Surroundings) (scrutinee : Expr) (join : Nat) :
    Nat → List Arm → Draft → Except Fault Draft
  | _, [], d => .ok d
  | start, .mk variant body bindings loc :: rest, d => do
    if variant.isNone && !bindings.isEmpty then throw (.breach .wildcardBinds loc)
    let declared := bindings.map fun b => (b.id, b.name)
    let d := bindings.foldl
      (fun d b => d.emit (b.declaration scrutinee (variant.getD ""))) (d.moveTo start)
    let d ← lowerBlockBy (c.enterScope.declaring declared) body d
    let d := (d.endStorage declared body.loc).jumpBy close c join "join"
    lowerArmsBy c scrutinee join (start + 1) rest d

end

namespace Function

/-- The name under which a function assigns the value it returns. -/
def returnName (f : Function) : String := (f.bindings.get? returnSlot).elim "<return>" Binding.name

def paramBindings (f : Function) : List (BindingId × String) := f.params.map fun p => (p.id, p.name)

/-- What surrounds the body of a function: its parameters are in scope. -/
def surroundings (f : Function) : Surroundings :=
  { scopes := [f.paramBindings], loops := [], exit := 1, returnName := f.returnName }

/-- The entry, to be filled, and the exit. -/
def firstDraft (f : Function) : Draft :=
  { blocks := [{ id := 0 }, { id := 1, terminator := some { kind := .ret, loc := f.loc } }] }

/-- The graph of a function: block zero is its entry, block one its only exit. -/
def graphBy (f : Function) : Except Fault Graph := do
  let d ← lowerStmtsBy close f.surroundings f.body.statements f.firstDraft
  let d := (d.endStorage (f.paramBindings ++ declaredIn f.body.statements) f.body.loc).jumpBy close
    f.surroundings 1 "return"
  let g : Graph := { blocks := d.blocks, entry := 0, exit := 1, backEdges := d.backEdges }
  let seen := g.reachable
  return { g with unreachable := (g.blocks.map BasicBlock.id).filter (!seen.contains ·) }

end Function

end

/-- Lowering as it is done: a block is ended by writing its terminator. -/
abbrev lowerStmt : Surroundings → Stmt → Draft → Except Fault Draft := lowerStmtBy Draft.terminate

abbrev lowerStmts : Surroundings → List Stmt → Draft → Except Fault Draft := lowerStmtsBy Draft.terminate

abbrev lowerBlock : Surroundings → Block → Draft → Except Fault Draft := lowerBlockBy Draft.terminate

abbrev lowerOptional : Surroundings → Option Block → Draft → Except Fault Draft :=
  lowerOptionalBy Draft.terminate

abbrev lowerArms : Surroundings → Expr → Nat → Nat → List Arm → Draft → Except Fault Draft :=
  lowerArmsBy Draft.terminate

/-- The graph of a function whose blocks are ended by writing their terminators. -/
def Function.graph (f : Function) : Except Fault Graph := f.graphBy Draft.terminate

end Ownership
