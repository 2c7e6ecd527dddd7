import Ownership.OrderedMap
import Ownership.Text.Numeral

/-!
The type table. A type is known by an id, its position in the table counted
from one, and each distinct type is stored once. Structs and enums register a
layout under their name; every use may instantiate the layout with a region.
-/
namespace Ownership

abbrev TypeId := Int

inductive TypeDef where
  | scalar (name : String) (copy : Bool)
  | unit
  | unknown
  | ref (target : TypeId) (mutable : Bool) (region : Option String)
  | array (element : TypeId)
  | struct (name : String) (region : Option String) (copy : Bool)
  | enum (name : String) (region : Option String) (copy : Bool)
  deriving DecidableEq, Repr, Inhabited

namespace TypeDef

def name : TypeDef → String
  | scalar n _ => n
  | unit => "Unit"
  | unknown => "Unknown"
  | ref _ m _ => if m then "RefMut" else "Ref"
  | array _ => "Array"
  | struct n _ _ => n
  | enum n _ _ => n

/-- Whether a by-value use duplicates the value instead of moving it. -/
def copy : TypeDef → Bool
  | scalar _ c => c
  | unit => true
  | unknown => false
  | ref _ m _ => !m
  | array _ => false
  | struct _ _ c => c
  | enum _ _ c => c

def region : TypeDef → Option String
  | ref _ _ r => r
  | struct _ r _ => r
  | enum _ r _ => r
  | _ => none

/-- What tells two types apart; whether a type is duplicated does not. -/
def key : TypeDef → TypeDef
  | scalar n _ => scalar n false
  | struct n r _ => struct n r false
  | enum n r _ => enum n r false
  | d => d

end TypeDef

inductive TypeFault where
  | unknownType (id : TypeId)
  | alreadyDeclared (name : String)
  | unknownStruct (name : String)
  | unknownEnum (name : String)
  | noLayout (name : String)
  | endless (id : TypeId)
  deriving DecidableEq, Repr

/-- What a name can be declared as. -/
inductive Kind where
  | struct
  | enum
  deriving DecidableEq, Repr

namespace Kind

def type : Kind → String → Option String → Bool → TypeDef
  | struct => .struct
  | enum => .enum

def unknown : Kind → String → TypeFault
  | struct => .unknownStruct
  | enum => .unknownEnum

end Kind

/-- The types that the fields of a struct or the payloads of an enum have. -/
inductive Layout where
  | struct (fields : OrderedMap String TypeId)
  | enum (arms : OrderedMap String (List TypeId))

def Layout.kind : Layout → Kind
  | struct _ => .struct
  | enum _ => .enum

def TypeFault.message : TypeFault → String
  | unknownType id => toString id
  | alreadyDeclared name => "type '" ++ name ++ "' already declared"
  | unknownStruct name => "unknown struct '" ++ name ++ "'"
  | unknownEnum name => "unknown variant type '" ++ name ++ "'"
  | noLayout name => name
  | endless id => "type " ++ toString id ++ " contains itself"

structure TypeTable where
  defs : List TypeDef := []
  structs : OrderedMap String (OrderedMap String TypeId) := {}
  enums : OrderedMap String (OrderedMap String (List TypeId)) := {}
  copies : List String := []
  deriving Inhabited

namespace TypeTable

/-- The id of a type that is present, or the next free id for a new one. -/
def intern (t : TypeTable) (d : TypeDef) : TypeId × TypeTable :=
  match t.defs.findIdx? (fun e => e.key = d.key) with
  | some i => ((i : Int) + 1, t)
  | none => ((t.defs.length : Int) + 1, { t with defs := t.defs ++ [d] })

def scalar (t : TypeTable) (name : String) (copy : Bool) : TypeId × TypeTable :=
  t.intern (.scalar name copy)

def int (t : TypeTable) : TypeId × TypeTable := t.scalar "Int" true

def bool (t : TypeTable) : TypeId × TypeTable := t.scalar "Bool" true

def unit (t : TypeTable) : TypeId × TypeTable := t.intern .unit

def unknown (t : TypeTable) : TypeId × TypeTable := t.intern .unknown

def ref (t : TypeTable) (target : TypeId) (mutable : Bool) (region : Option String) :
    TypeId × TypeTable :=
  t.intern (.ref target mutable region)

def array (t : TypeTable) (element : TypeId) : TypeId × TypeTable := t.intern (.array element)

def hasStruct (t : TypeTable) (name : String) : Bool := t.structs.contains name

def hasEnum (t : TypeTable) (name : String) : Bool := t.enums.contains name

def isDeclared (t : TypeTable) (name : String) : Bool := t.hasStruct name || t.hasEnum name

def has (t : TypeTable) : Kind → String → Bool
  | .struct => t.hasStruct
  | .enum => t.hasEnum

/-- An instance of what was declared under a name. -/
def aggregate (t : TypeTable) (k : Kind) (name : String) (region : Option String) :
    Except TypeFault (TypeId × TypeTable) :=
  if t.has k name then .ok (t.intern (k.type name region (t.copies.contains name)))
  else .error (k.unknown name)

abbrev struct (t : TypeTable) := t.aggregate .struct

abbrev enum (t : TypeTable) := t.aggregate .enum

def register (t : TypeTable) (name : String) : Layout → TypeTable
  | .struct fields => { t with structs := t.structs.insert name fields }
  | .enum arms => { t with enums := t.enums.insert name arms }

def markCopy (t : TypeTable) (name : String) (copy : Bool) : TypeTable :=
  if copy then { t with copies := name :: t.copies } else t

/-- Registers a layout and returns its instance without a region. -/
def declare (t : TypeTable) (name : String) (layout : Layout) (copy : Bool) :
    Except TypeFault (TypeId × TypeTable) :=
  if t.isDeclared name then .error (.alreadyDeclared name)
  else ((t.register name layout).markCopy name copy).aggregate layout.kind name none

abbrev declareStruct (t : TypeTable) (name : String) (fields : OrderedMap String TypeId) :=
  t.declare name (.struct fields)

abbrev declareEnum (t : TypeTable) (name : String) (arms : OrderedMap String (List TypeId)) :=
  t.declare name (.enum arms)

def get (t : TypeTable) (ty : TypeId) : Except TypeFault TypeDef :=
  match ty with
  | .ofNat (i + 1) => (t.defs[i]?).elim (.error (.unknownType ty)) .ok
  | _ => .error (.unknownType ty)

def structFields (t : TypeTable) (name : String) : Except TypeFault (OrderedMap String TypeId) :=
  (t.structs.get? name).elim (.error (.noLayout name)) .ok

def enumArms (t : TypeTable) (name : String) : Except TypeFault (OrderedMap String (List TypeId)) :=
  (t.enums.get? name).elim (.error (.noLayout name)) .ok

/-- No chain of distinct types is longer. -/
def chainBound (t : TypeTable) : Nat := t.defs.length + 1

/-- No chain of types that repeats no aggregate name is longer. -/
def nestingBound (t : TypeTable) : Nat := (t.defs.length + 1) * (t.defs.length + 2)

def isCopy (t : TypeTable) : Option TypeId → Except TypeFault Bool
  | none => .ok false
  | some ty => (t.get ty).map TypeDef.copy

/-- Whether a reference is met below `ty` without entering an aggregate of `seen` again. -/
def carriesRefsFrom (t : TypeTable) : Nat → List String → TypeId → Except TypeFault Bool
  | 0, _, ty => .error (.endless ty)
  | n + 1, seen, ty => do
    match ← t.get ty with
    | .ref .. => return true
    | .array element => t.carriesRefsFrom n seen element
    | .struct name region _ =>
      if region.isSome then return true
      if seen.contains name then return false
      (← t.structFields name).values.anyM (t.carriesRefsFrom n (name :: seen))
    | .enum name region _ =>
      if region.isSome then return true
      if seen.contains name then return false
      (← t.enumArms name).values.flatten.anyM (t.carriesRefsFrom n (name :: seen))
    | _ => return false

/-- Whether a value of the type may hold a reference. -/
def carriesRefs (t : TypeTable) : Option TypeId → Except TypeFault Bool
  | none => .ok false
  | some ty => t.carriesRefsFrom t.nestingBound [] ty

def regionOfFrom (t : TypeTable) : Nat → TypeId → Except TypeFault (Option String)
  | 0, ty => .error (.endless ty)
  | n + 1, ty => do
    match ← t.get ty with
    | .array element => t.regionOfFrom n element
    | d => return d.region

/-- The region argument of a reference or an aggregate, looked up through arrays. -/
def regionOf (t : TypeTable) : Option TypeId → Except TypeFault (Option String)
  | none => .ok none
  | some ty => t.regionOfFrom t.chainBound ty

/-- The outer region, then those further in that differ from it. -/
def joinRegions (outer : Option String) (inner : List String) : List String :=
  inner.foldl (fun out r => if out.contains r then out else out ++ [r]) outer.toList

def nestedRegionsFrom (t : TypeTable) : Nat → TypeId → Except TypeFault (List String)
  | 0, ty => .error (.endless ty)
  | n + 1, ty => do
    match ← t.get ty with
    | .array element => t.nestedRegionsFrom n element
    | .ref target .. =>
      let outer ← t.regionOf (some target)
      return joinRegions outer (← t.nestedRegionsFrom n target)
    | _ => return []

/-- The regions below the outermost one: those of what a reference points at. -/
def nestedRegions (t : TypeTable) : Option TypeId → Except TypeFault (List String)
  | none => .ok []
  | some ty => t.nestedRegionsFrom t.chainBound ty

/-- Every region named in a type, outermost first. -/
def regionsIn (t : TypeTable) : Option TypeId → Except TypeFault (List String)
  | none => .ok []
  | some ty => do
    let outer ← t.regionOf (some ty)
    return joinRegions outer (← t.nestedRegions (some ty))

def pointee (t : TypeTable) (ty : TypeId) : Except TypeFault (Option TypeId) :=
  (t.get ty).map fun
    | .ref target .. => some target
    | _ => none

def elementType (t : TypeTable) (ty : TypeId) : Except TypeFault (Option TypeId) :=
  (t.get ty).map fun
    | .array element => some element
    | _ => none

def fieldType (t : TypeTable) (ty : TypeId) (field : String) : Except TypeFault (Option TypeId) := do
  match ← t.get ty with
  | .struct name .. => return (← t.structFields name).get? field
  | _ => return none

/-- The payload slot that a field spells; slots are numbered from zero. -/
def payloadSlot? (payload : List TypeId) (field : String) : Option TypeId :=
  match Numeral.read? field with
  | some (.ofNat i) => payload[i]?
  | _ => none

def payloadType (t : TypeTable) (ty : TypeId) (variant field : String) :
    Except TypeFault (Option TypeId) := do
  match ← t.get ty with
  | .enum name .. => return ((← t.enumArms name).get? variant).bind (payloadSlot? · field)
  | _ => return none

/-- A region argument as written, where an empty one is not shown. -/
def shownRegion (region : Option String) : Option String := region.filter (· ≠ "")

def describeFrom (t : TypeTable) : Nat → TypeId → Except TypeFault String
  | 0, ty => .error (.endless ty)
  | n + 1, ty => do
    match ← t.get ty with
    | .ref target mutable region =>
      let region := (shownRegion region).elim "" (· ++ " ")
      let mutability := if mutable then "mut " else ""
      return "&" ++ region ++ mutability ++ (← t.describeFrom n target)
    | .array element => return "[" ++ (← t.describeFrom n element) ++ "]"
    | d@(.struct name region _) | d@(.enum name region _) =>
      return (shownRegion region).elim d.name (fun r => name ++ "<" ++ r ++ ">")
    | d => return d.name

def describe (t : TypeTable) : Option TypeId → Except TypeFault String
  | none => .ok "?"
  | some ty => t.describeFrom t.chainBound ty

end TypeTable

end Ownership
