import Ownership.Source.Surface

/-!
A predictive parser for the program text. It looks one token ahead and never
goes back, so it is stuck exactly at the first token that no program could have
there. The fuel of a call bounds its depth; a text needs no more of it than a
fixed multiple of its tokens.
-/
namespace Ownership.Surface

/-- The tokens still to read, and where the last one that was read ends. -/
structure Cursor where
  rest : List Token
  last : Position := {}
  deriving Repr, Inhabited

/-- Nothing when the tokens ran out, otherwise the token that cannot be there. -/
abbrev Stuck := Option Token

abbrev Parse (α : Type) := Cursor → Except Stuck (α × Cursor)

namespace Cursor

def stuck {α : Type} (c : Cursor) : Except Stuck α := .error c.rest.head?

def sees (c : Cursor) (text : String) : Bool :=
  c.rest.head?.any (·.terminal = .fixed text)

def next (c : Cursor) : Cursor :=
  match c.rest with
  | [] => c
  | t :: rest => ⟨rest, t.stop⟩

/-- Where the next token starts. -/
def here (c : Cursor) : Position := c.rest.head?.elim c.last Token.start

/-- The range from a start up to the last token that was read. -/
def since (c : Cursor) (start : Position) : Range := ⟨start, c.last⟩

/-- Reads a token if it is there. -/
def optional (c : Cursor) (text : String) : Bool × Cursor :=
  if c.sees text then (true, c.next) else (false, c)

end Cursor

def expect (text : String) (c : Cursor) : Except Stuck Cursor :=
  if c.sees text then .ok c.next else c.stuck

/-- Reads a token of a class that has many spellings. -/
def word (terminal : Terminal) : Parse String := fun c =>
  match c.rest with
  | t :: _ => if t.terminal = terminal then .ok (t.text, c.next) else c.stuck
  | [] => c.stuck

def name : Parse String := word .name

def region : Parse String := word .region

def optionalRegion : Parse (Option String) := fun c =>
  match c.rest with
  | t :: _ => .ok (if t.terminal = .region then (some t.text, c.next) else (none, c))
  | [] => .ok (none, c)

/-- One or more items with commas between them. -/
def commaList {α : Type} (item : Parse α) : Nat → Parse (List α)
  | 0, c => c.stuck
  | n + 1, c => do
    let (x, c) ← item c
    if c.sees "," then
      let (xs, c) ← commaList item n c.next
      return (x :: xs, c)
    else return ([x], c)

/-- Items with commas between them up to a closing token, which a last comma may precede. -/
def commaListUntil {α : Type} (close : String) (item : Parse α) : Nat → Parse (List α)
  | 0, c => c.stuck
  | n + 1, c => do
    if c.sees close then return ([], c.next)
    let (x, c) ← item c
    if c.sees "," then
      let (xs, c) ← commaListUntil close item n c.next
      return (x :: xs, c)
    else return ([x], ← expect close c)

/-- Items up to a token that is left unread. -/
def itemsUntil {α : Type} (close : String) (item : Parse α) : Nat → Parse (List α)
  | 0, c => c.stuck
  | n + 1, c => do
    if c.sees close then return ([], c)
    let (x, c) ← item c
    let (xs, c) ← itemsUntil close item n c
    return (x :: xs, c)

/-- Items with commas between them in brackets, where there are brackets. -/
def enclosedList {α : Type} (left right : String) (item : Parse α) (n : Nat) : Parse (List α) := fun c =>
  if c.sees left then do
    let (xs, c) ← commaList item n c.next
    return (xs, ← expect right c)
  else .ok ([], c)

/-- Items with commas between them, if there are some, and the token that closes them. -/
def closedList {α : Type} (close : String) (item : Parse α) (n : Nat) : Parse (List α) := fun c => do
  if c.sees close then return ([], c.next)
  let (xs, c) ← commaList item n c
  return (xs, ← expect close c)

/-- A region argument, where there is one. -/
def regionArg : Parse (Option String) := fun c =>
  if c.sees "<" then do
    let (r, c) ← region c.next
    return (some r, ← expect ">" c)
  else .ok (none, c)

def type : Nat → Parse Ty
  | 0, c => c.stuck
  | n + 1, c => do
    let start := c.here
    if c.sees "&" then
      let (r, c) ← optionalRegion c.next
      let (mutable, c) := c.optional "mut"
      let (target, c) ← type n c
      return (.ref r mutable target (c.since start), c)
    else if c.sees "[" then
      let (element, c) ← type n c.next
      let c ← expect "]" c
      return (.array element (c.since start), c)
    else
      let (x, c) ← name c
      let (r, c) ← regionArg c
      return (.named x r (c.since start), c)

/-- Binary operators by how tightly they bind, the loosest first. -/
inductive Tier where
  | disjunction | conjunction | comparison | sum | product
  deriving DecidableEq, Repr

namespace Tier

/-- The tier of the operands; those of a product are unary expressions. -/
def tighter : Tier → Option Tier
  | disjunction => some conjunction
  | conjunction => some comparison
  | comparison => some sum
  | sum => some product
  | product => none

def operators : Tier → List (String × BinaryOp)
  | disjunction => [("||", .or)]
  | conjunction => [("&&", .and)]
  | comparison => [("==", .eq), ("!=", .ne), ("<", .lt), ("<=", .le), (">", .gt), (">=", .ge)]
  | sum => [("+", .add), ("-", .sub)]
  | product => [("*", .mul), ("/", .div)]

/-- Only a comparison takes no further operator of its own tier. -/
def chains (t : Tier) : Bool := t ≠ comparison

def operator? (t : Tier) (c : Cursor) : Option BinaryOp :=
  (t.operators.find? fun o => c.sees o.1).map Prod.snd

end Tier

mutual

/-- An expression whose operators bind at least as tightly as a tier; no tier is left for unary ones. -/
def operation : Nat → Option Tier → Parse Expr
  | 0, _, c => c.stuck
  | n + 1, some tier, c => do
    let (left, c') ← operation n tier.tighter c
    operationTail n tier c.here left c'
  | n + 1, none, c => unary n c

/-- Goes on after an operand: further operators of the tier associate to the left. -/
def operationTail : Nat → Tier → Position → Expr → Parse Expr
  | 0, _, _, _, c => c.stuck
  | n + 1, tier, start, left, c =>
    match tier.operator? c with
    | none => .ok (left, c)
    | some op => do
      let (right, c) ← operation n tier.tighter c.next
      let e := Expr.binary op left right (c.since start)
      if tier.chains then operationTail n tier start e c else return (e, c)

def unary : Nat → Parse Expr
  | 0, c => c.stuck
  | n + 1, c => do
    let start := c.here
    if c.sees "-" then
      let (e, c) ← unary n c.next
      return (.unary .neg e (c.since start), c)
    else if c.sees "!" then
      let (e, c) ← unary n c.next
      return (.unary .not e (c.since start), c)
    else if c.sees "*" then
      let (e, c) ← unary n c.next
      return (.deref e (c.since start), c)
    else if c.sees "&" then
      let (mutable, c) := c.next.optional "mut"
      let (e, c) ← unary n c
      return (.borrow e mutable (c.since start), c)
    else
      let (e, c) ← atom n c
      steps n start e c

/-- Fields and elements of what was read so far. -/
def steps : Nat → Position → Expr → Parse Expr
  | 0, _, _, c => c.stuck
  | n + 1, start, e, c => do
    if c.sees "." then
      let (x, c) ← name c.next
      steps n start (.field e x (c.since start)) c
    else if c.sees "[" then
      let (i, c) ← operation n (some .disjunction) c.next
      let c ← expect "]" c
      steps n start (.index e i (c.since start)) c
    else return (e, c)

def atom : Nat → Parse Expr
  | 0, c => c.stuck
  | n + 1, c => do
    let start := c.here
    if c.sees "true" then return (.bool true (c.next.since start), c.next)
    else if c.sees "false" then return (.bool false (c.next.since start), c.next)
    else if c.sees "(" then
      let c := c.next
      if c.sees ")" then return (.unit (c.next.since start), c.next)
      let (e, c) ← operation n (some .disjunction) c
      return (e, ← expect ")" c)
    else if c.sees "new" then
      let (struct, c) ← name c.next
      let (r, c) ← regionArg c
      let c ← expect "\x7b" c
      let (fields, c) ← commaListUntil "\x7d" (fieldInit n) n c
      return (.construct struct r fields (c.since start), c)
    else match c.rest with
      | ⟨.int, text, _, _⟩ :: _ => return (.int text (c.next.since start), c.next)
      | ⟨.name, x, _, _⟩ :: _ => named n start x c.next
      | _ => c.stuck

/-- What a name starts: a call, a variant or a variable. -/
def named : Nat → Position → String → Parse Expr
  | 0, _, _, c => c.stuck
  | n + 1, start, x, c => do
    if c.sees "(" then
      let (args, c) ← arguments n c.next
      return (.call x args (c.since start), c)
    else if c.sees "::" then
      let (variant, c) ← name c.next
      if c.sees "(" then
        let (args, c) ← arguments n c.next
        return (.inject x variant args (c.since start), c)
      else return (.inject x variant [] (c.since start), c)
    else return (.var x (c.since start), c)

/-- Arguments after the opening parenthesis, and the closing one. -/
def arguments : Nat → Parse (List Expr)
  | 0, c => c.stuck
  | n + 1, c => closedList ")" (operation n (some .disjunction)) n c

def fieldInit : Nat → Parse FieldInit
  | 0, c => c.stuck
  | n + 1, c => do
    let start := c.here
    let (x, c) ← name c
    let c ← expect ":" c
    let (e, c) ← operation n (some .disjunction) c
    return (.mk x e (c.since start), c)

end

def expr (n : Nat) : Parse Expr := operation n (some .disjunction)

def subPattern : Parse SubPattern := fun c => do
  if c.sees "_" then return (.skip, c.next)
  let start := c.here
  let (byRef, c) := c.optional "ref"
  let (mutable, c) := c.optional "mut"
  let (x, c) ← name c
  return (.bind byRef mutable x (c.since start), c)

def subPatterns (n : Nat) : Parse (List SubPattern) := enclosedList "(" ")" subPattern n

def pattern (n : Nat) : Parse Pattern := fun c => do
  if c.sees "_" then return (.wildcard, c.next)
  let start := c.here
  let (x, c) ← name c
  if c.sees "::" then
    let (variant, c) ← name c.next
    let (fields, c) ← subPatterns n c
    return (.variant (some x) variant fields (c.since start), c)
  else
    let (fields, c) ← subPatterns n c
    return (.variant none x fields (c.since start), c)

/-- A type behind a token, where the token is. -/
def typeAfter (text : String) (n : Nat) : Parse (Option Ty) := fun c =>
  if c.sees text then do
    let (t, c) ← type n c.next
    return (some t, c)
  else .ok (none, c)

/-- A declaration after its first word. -/
def declaration (n : Nat) (start : Position) : Parse Stmt := fun c => do
  let (_, c) := c.optional "mut"
  let (x, c) ← name c
  let (ty, c) ← typeAfter ":" n c
  if c.sees "=" then
    let (e, c) ← expr n c.next
    let c ← expect ";" c
    return (.declare x ty (some e) (c.since start), c)
  else
    let c ← expect ";" c
    return (.declare x ty none (c.since start), c)

/-- A return after its first word. -/
def returning (n : Nat) (start : Position) : Parse Stmt := fun c => do
  if c.sees ";" then return (.ret none (c.next.since start), c.next)
  let (e, c) ← expr n c
  let c ← expect ";" c
  return (.ret (some e) (c.since start), c)

/-- A statement that starts with an expression: an assignment, or the expression alone. -/
def assignment (n : Nat) : Parse Stmt := fun c => do
  let start := c.here
  let (target, c) ← expr n c
  if c.sees "=" then
    let (value, c) ← expr n c.next
    let c ← expect ";" c
    return (.assign target value (c.since start), c)
  else
    let c ← expect ";" c
    return (.eval target (c.since start), c)

mutual

def stmt : Nat → Parse Stmt
  | 0, c => c.stuck
  | n + 1, c => do
    let start := c.here
    if c.sees "let" then declaration n start c.next
    else if c.sees "if" then
      let (b, c) ← branch n c
      return (.branch b, c)
    else if c.sees "loop" then
      let (body, c) ← block n c.next
      return (.loop body (c.since start), c)
    else if c.sees "while" then
      let (cond, c) ← expr n c.next
      let (body, c) ← block n c
      return (.whileLoop cond body (c.since start), c)
    else if c.sees "break" then
      let c ← expect ";" c.next
      return (.breakLoop (c.since start), c)
    else if c.sees "continue" then
      let c ← expect ";" c.next
      return (.continueLoop (c.since start), c)
    else if c.sees "return" then returning n start c.next
    else if c.sees "match" then
      let (scrutinee, c) ← expr n c.next
      let c ← expect "\x7b" c
      let (arms, c) ← itemsUntil "\x7d" (arm n) n c
      return (.select scrutinee arms (c.next.since start), c.next)
    else if c.sees "\x7b" then
      let (body, c) ← block n c
      return (.block body, c)
    else assignment n c

def block : Nat → Parse Block
  | 0, c => c.stuck
  | n + 1, c => do
    let start := c.here
    let c ← expect "\x7b" c
    let (statements, c) ← itemsUntil "\x7d" (stmt n) n c
    return (.mk statements (c.next.since start), c.next)

def branch : Nat → Parse Branch
  | 0, c => c.stuck
  | n + 1, c => do
    let start := c.here
    let c ← expect "if" c
    let (cond, c) ← expr n c
    let (yes, c) ← block n c
    let (no, c) ← alternative n c
    return (.mk cond yes no (c.since start), c)

def alternative : Nat → Parse Alternative
  | 0, c => c.stuck
  | n + 1, c => do
    if c.sees "else" then
      let c := c.next
      if c.sees "if" then
        let (b, c) ← branch n c
        return (.branch b, c)
      else
        let (body, c) ← block n c
        return (.block body, c)
    else return (.nothing, c)

def arm : Nat → Parse Arm
  | 0, c => c.stuck
  | n + 1, c => do
    let start := c.here
    let (p, c) ← pattern n c
    let c ← expect "=>" c
    let (body, c) ← block n c
    let (_, c) := c.optional ","
    return (.mk p body (c.since start), c)

end

/-- Bounds of a region parameter, each after a colon. -/
def bounds : Nat → Parse (List String)
  | 0, c => c.stuck
  | n + 1, c => do
    if c.sees ":" then
      let (r, c) ← region c.next
      let (rs, c) ← bounds n c
      return (r :: rs, c)
    else return ([], c)

def regionDecl (n : Nat) : Parse RegionDecl := fun c => do
  let (r, c) ← region c
  let (bs, c) ← bounds n c
  return (⟨r, bs⟩, c)

def regionParams (n : Nat) : Parse (List RegionDecl) := enclosedList "<" ">" (regionDecl n) n

def typedName (n : Nat) : Parse TypedName := fun c => do
  let start := c.here
  let (x, c) ← name c
  let c ← expect ":" c
  let (t, c) ← type n c
  return (⟨x, t, c.since start⟩, c)

def variantDecl (n : Nat) : Parse VariantDecl := fun c => do
  let (x, c) ← name c
  let (payload, c) ← enclosedList "(" ")" (type n) n c
  return (⟨x, payload⟩, c)

def parameters (n : Nat) : Parse (List TypedName) := closedList ")" (typedName n) n

def header (n : Nat) : Parse Header := fun c => do
  let start := c.here
  let (x, c) ← name c
  let (regions, c) ← regionParams n c
  let c ← expect "(" c
  let (params, c) ← parameters n c
  let (ret, c) ← typeAfter "->" n c
  return (⟨x, regions, params, ret, c.since start⟩, c)

/-- A struct or an enum after the word that may mark it as copied. -/
def layout (n : Nat) (copy : Bool) (start : Position) : Parse Item := fun c => do
  if c.sees "struct" then
    let (x, c) ← name c.next
    let (_, c) ← regionParams n c
    let c ← expect "\x7b" c
    let (fields, c) ← commaListUntil "\x7d" (typedName n) n c
    return (.struct copy x fields (c.since start), c)
  else if c.sees "enum" then
    let (x, c) ← name c.next
    let (_, c) ← regionParams n c
    let c ← expect "\x7b" c
    let (variants, c) ← commaListUntil "\x7d" (variantDecl n) n c
    return (.enum copy x variants (c.since start), c)
  else c.stuck

def item (n : Nat) : Parse Item := fun c => do
  let start := c.here
  if c.sees "fn" then
    let (h, c) ← header n c.next
    let (body, c) ← block n c
    return (.function h body, c)
  else if c.sees "extern" then
    let c ← expect "fn" c.next
    let (h, c) ← header n c
    return (.external h, ← expect ";" c)
  else if c.sees "copy" then layout n true start c.next
  else layout n false start c

/-- Items until the tokens run out; `fuel` is that of each item. -/
def items (fuel : Nat) : Nat → Cursor → Except Stuck (List Item)
  | 0, c => c.stuck
  | n + 1, c => do
    if c.rest.isEmpty then return []
    let (x, c) ← item fuel c
    let xs ← items fuel n c
    return x :: xs

/-- More than the depth that any text of so many tokens needs. -/
def depthBound (tokens : List Token) : Nat := 16 * (tokens.length + 1)

/-- The items of a program from its tokens. -/
def parse (tokens : List Token) : Except Stuck (List Item) :=
  items (depthBound tokens) (tokens.length + 1) { rest := tokens }

end Ownership.Surface
