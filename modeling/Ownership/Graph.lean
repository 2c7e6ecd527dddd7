import Ownership.Sorting
import Ownership.Stmt

/-!
Control-flow graphs. A block is a list of statements and a terminator with
labelled edges; it has a number, by which others name it. A point is a statement of a block,
or the block's terminator, which comes after its last statement.
-/
namespace Ownership

structure Point where
  block : Nat
  index : Nat
  deriving DecidableEq, Repr, Inhabited, Ord

namespace Point

def render (p : Point) : String :=
  "bb" ++ toString p.block ++ "[" ++ toString p.index ++ "]"

/-- By block, then by position in it. -/
def le (p q : Point) : Bool := p.block < q.block || (p.block = q.block && p.index ≤ q.index)

def sort (ps : List Point) : List Point := sortBy le ps

end Point

structure Edge where
  target : Nat
  label : String
  deriving DecidableEq, Repr, Inhabited

inductive TerminatorKind where
  | jump | branch | switch | ret | unreachable
  deriving DecidableEq, Repr, Inhabited

def TerminatorKind.name : TerminatorKind → String
  | jump => "jump"
  | branch => "branch"
  | switch => "switch"
  | ret => "return"
  | unreachable => "unreachable"

/-- How a block ends; a branch reads its condition, a switch inspects its scrutinee. -/
structure Terminator where
  kind : TerminatorKind
  edges : List Edge := []
  cond : Option Expr := none
  scrutinee : Option Expr := none
  loc : Span := {}
  deriving Inhabited

structure BasicBlock where
  id : Nat := 0
  statements : List Stmt := []
  terminator : Option Terminator := none
  loopHeader : Bool := false
  deriving Inhabited

namespace BasicBlock

def successors (b : BasicBlock) : List Nat :=
  b.terminator.elim [] fun t => t.edges.map Edge.target

/-- The first statement that is not a mere end of storage. -/
def firstUserStatement? (b : BasicBlock) : Option Stmt :=
  b.statements.find? (!·.isStorageDead)

def hasUserStatements (b : BasicBlock) : Bool := b.firstUserStatement?.isSome

end BasicBlock

structure Graph where
  blocks : List BasicBlock
  entry : Nat
  exit : Nat
  backEdges : List (Nat × Nat) := []
  unreachable : List Nat := []
  deriving Inhabited

namespace Graph

def block (g : Graph) (b : Nat) : BasicBlock := g.blocks[b]?.getD { id := b }

def successors (g : Graph) (b : Nat) : List Nat := (g.block b).successors

/-- One entry per edge into the block, in the order of the blocks they leave. -/
def predecessors (g : Graph) (b : Nat) : List Nat :=
  (List.range g.blocks.length).flatMap fun u => (g.successors u).filterMap fun v =>
    if v = b then some u else none

/-- An edge that leads to no block of the graph. -/
def strayTarget? (g : Graph) : Option Nat :=
  (g.blocks.flatMap BasicBlock.successors).find? (g.blocks.length ≤ ·)

/-- Depth-first search from `b`: the blocks seen so far, and the finished ones, latest first. -/
def visit (g : Graph) : Nat → List Nat × List Nat → Nat → List Nat × List Nat
  | 0, acc, _ => acc
  | fuel + 1, (seen, order), b =>
    if seen.contains b then (seen, order)
    else
      let (seen, order) := (g.successors b).foldl (g.visit fuel) (b :: seen, order)
      (seen, b :: order)

/-- The reachable blocks in reverse postorder. -/
def reachable (g : Graph) : List Nat := (g.visit (g.blocks.length + 1) ([], []) g.entry).2

def isReachable (g : Graph) (b : Nat) : Bool := !g.unreachable.contains b

/-- The index of a block's terminator. -/
def last (g : Graph) (b : Nat) : Nat := (g.block b).statements.length

def points (g : Graph) (b : Nat) : List Point :=
  (List.range (g.last b + 1)).map fun i => ⟨b, i⟩

/-- Every point of every reachable block, in reverse postorder. -/
def allPoints (g : Graph) : List Point := g.reachable.flatMap g.points

def statementAt (g : Graph) (p : Point) : Option Stmt := (g.block p.block).statements[p.index]?

def isTerminator (g : Graph) (p : Point) : Bool := p.index = g.last p.block

def pointSuccessors (g : Graph) (p : Point) : List Point :=
  if g.isTerminator p then
    ((g.successors p.block).filter g.isReachable).map fun b => ⟨b, 0⟩
  else [⟨p.block, p.index + 1⟩]

def pointPredecessors (g : Graph) (p : Point) : List Point :=
  match p.index with
  | i + 1 => [⟨p.block, i⟩]
  | 0 => ((g.predecessors p.block).filter g.isReachable).map fun b => ⟨b, g.last b⟩

def loopHeaders (g : Graph) : List Nat :=
  (List.range g.blocks.length).filter fun b => (g.block b).loopHeader

def summary : Stmt → String
  | .storageDead _ name _ => "StorageDead(" ++ name ++ ")"
  | .declare name _ value _ => "let " ++ name ++ (if value.isSome then " = ..." else "")
  | .assign .. => "assign"
  | .eval .. => "expr"
  | s => s.form

def flags (g : Graph) (b : Nat) : List String :=
  (if b = g.entry then ["entry"] else []) ++ (if b = g.exit then ["exit"] else []) ++
    (if (g.block b).loopHeader then ["loop-header"] else []) ++
    (if g.unreachable.contains b then ["unreachable"] else [])

def terminatorLine (t : Terminator) : String :=
  let edges := t.edges.map fun e => e.label ++ " -> bb" ++ toString e.target
  "    " ++ t.kind.name ++ " [" ++ ", ".intercalate edges ++ "]"

def blockLines (g : Graph) (b : Nat) : List String :=
  let flags := g.flags b
  let suffix := if flags.isEmpty then "" else "  ; " ++ ", ".intercalate flags
  ["bb" ++ toString b ++ ":" ++ suffix] ++
    (g.block b).statements.map (fun s => "    " ++ summary s) ++
    ((g.block b).terminator.map terminatorLine).toList

def dump (g : Graph) : String :=
  "\n".intercalate ((List.range g.blocks.length).flatMap g.blockLines)

end Graph

end Ownership
