import Ownership.Source.Parser
import Ownership.Source.Resolve.Stmt

/-!
From program text to a typed program. All signatures are read before any body,
so that calls may point forward; types must be declared before they are used.
-/
namespace Ownership

namespace ReadContext

def typedNames (cx : ReadContext) : List Surface.TypedName → TypeTable →
    Read (List (String × TypeId × Span) × TypeTable)
  | [], t => .ok ([], t)
  | x :: rest, t => do
    let (ty, t) ← cx.type x.ty t
    let (rest, t) ← cx.typedNames rest t
    return ((x.name, ty, cx.span x.range) :: rest, t)

def optionalResult (cx : ReadContext) (ty : Option Surface.Ty) (t : TypeTable) :
    Read (Option TypeId × TypeTable) :=
  match ty with
  | none => .ok (none, t)
  | some ty => (cx.type ty t).map fun (ty, t) => (some ty, t)

/-- The fields of a struct, each name once. -/
def fields (cx : ReadContext) (struct : String) :
    List Surface.TypedName → OrderedMap String TypeId → TypeTable →
      Read (OrderedMap String TypeId × TypeTable)
  | [], m, t => .ok (m, t)
  | x :: rest, m, t => do
    if m.contains x.name then cx.fail (.duplicateField x.name struct) x.range
    let (ty, t) ← cx.type x.ty t
    cx.fields struct rest (m.insert x.name ty) t

def payload (cx : ReadContext) : List Surface.Ty → TypeTable → Read (List TypeId × TypeTable)
  | [], t => .ok ([], t)
  | ty :: rest, t => do
    let (ty, t) ← cx.type ty t
    let (rest, t) ← cx.payload rest t
    return (ty :: rest, t)

/-- The variants of an enum; a repeated one keeps its place and takes the later payload. -/
def variants (cx : ReadContext) : List Surface.VariantDecl → OrderedMap String (List TypeId) →
    TypeTable → Read (OrderedMap String (List TypeId) × TypeTable)
  | [], m, t => .ok (m, t)
  | x :: rest, m, t => do
    let (payload, t) ← cx.payload x.payload t
    cx.variants rest (m.insert x.name payload) t

end ReadContext

/-- A function whose body is still to be read. -/
structure PendingFunction where
  signature : Signature
  params : List (String × TypeId × Span)
  body : Surface.Block

/-- The declarations read so far. -/
structure Declarations where
  types : TypeTable := {}
  signatures : List Signature := []
  functions : List PendingFunction := []
  externs : List Signature := []

namespace ReadContext

def signature (cx : ReadContext) (d : Declarations) (h : Surface.Header) :
    Read ((Signature × List (String × TypeId × Span)) × Declarations) := do
  let (params, t) ← cx.typedNames h.params d.types
  let (ret, t) ← cx.optionalResult h.ret t
  let s : Signature :=
    { name := h.name
      params := params.map (·.2.1)
      ret := ret
      regionParams := h.regions.map Surface.RegionDecl.name
      outlives := h.regions.flatMap fun r => r.bounds.map fun b => (r.name, b)
      loc := cx.span h.range }
  if d.signatures.any (·.name = h.name) then cx.fail (.duplicateFunction h.name) h.range
  return ((s, params), { d with types := t, signatures := d.signatures ++ [s] })

def item (cx : ReadContext) (d : Declarations) : Surface.Item → Read Declarations
  | .struct copy name fields r => do
    let (m, t) ← cx.fields name fields {} d.types
    let (_, t) ← cx.ofTypes r (t.declareStruct name m copy)
    return { d with types := t }
  | .enum copy name variants r => do
    let (m, t) ← cx.variants variants {} d.types
    let (_, t) ← cx.ofTypes r (t.declareEnum name m copy)
    return { d with types := t }
  | .function h body => do
    let ((s, params), d) ← cx.signature d h
    return { d with functions := d.functions ++ [⟨s, params, body⟩] }
  | .external h => do
    let ((s, _), d) ← cx.signature d h
    return { d with externs := d.externs ++ [s] }

/-- Declares the parameters of a function in order. -/
def declareParams : List (String × TypeId × Span) → BodyState → List Param × BodyState
  | [], s => ([], s)
  | (name, ty, loc) :: rest, s =>
    let (id, s) := s.declare name ty .param loc
    let (params, s) := declareParams rest s
    (⟨name, id, ty, loc⟩ :: params, s)

def function (cx : ReadContext) (p : PendingFunction) (t : TypeTable) : Read (Function × TypeTable) := do
  let cx := { cx with functionName := p.signature.name }
  let (params, s) := declareParams p.params { types := t }
  let scope := scopeWith [] (params.map fun q => (q.id, q.name))
  let (body, s) ← cx.block scope p.body s
  let f : Function :=
    { name := p.signature.name
      params := params
      ret := p.signature.ret
      body := body
      bindings := s.bindings
      regionParams := p.signature.regionParams
      outlives := p.signature.outlives
      loc := p.signature.loc }
  return (f, s.types)

def functions (cx : ReadContext) : List PendingFunction → TypeTable → Read (List Function × TypeTable)
  | [], t => .ok ([], t)
  | p :: rest, t => do
    let (f, t) ← cx.function p t
    let (fs, t) ← cx.functions rest t
    return (f :: fs, t)

end ReadContext

/-- The items of a text; the first problem in the order of the text is the one reported. -/
def readItems (text : String) (file : Option String) : Read (List Surface.Item) :=
  let s := scan text
  let spot (p : Position) : Span := { file := file, line := some p.line, column := some p.column }
  match Surface.parse s.tokens, s.ending with
  | .ok items, .complete => .ok items
  | .error (some t), _ => .error ⟨.unexpectedToken t, spot t.start⟩
  | _, .unmatched c p => .error ⟨.unmatched c p, spot p⟩
  | .error none, .complete =>
    let last := s.tokens.getLast?.elim {} Token.start
    .error ⟨.unexpectedEnd last, spot last⟩

/-- Reads a program. -/
def readProgram (text : String) (file : Option String) : Read Program := do
  let items ← readItems text file
  let cx : ReadContext := { file := file }
  let d ← items.foldlM cx.item {}
  let (functions, types) ← { cx with signatures := d.signatures }.functions d.functions d.types
  return { types := types, functions := functions, externs := d.externs, source := file }

end Ownership