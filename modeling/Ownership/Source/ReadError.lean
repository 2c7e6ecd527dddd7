import Ownership.Source.Token
import Ownership.Span
import Ownership.Text.Lines
import Ownership.TypeTable

/-!
Why a text is not a program: it breaks the grammar, or what it says makes no
sense. Each error has a cause and the span of the text that it is about.
-/
namespace Ownership

inductive ReadCause where
  | unexpectedToken (token : Token)
  | unexpectedEnd (last : Position)
  | unmatched (c : Char) (position : Position)
  | unknownType (name : String)
  | duplicateField (field struct : String)
  | duplicateFunction (name : String)
  | unknownName (name function : String)
  | targetNotPlace
  | borrowNotPlace
  | scrutineeNotPlace
  | needsType (name : String)
  | cannotMatch (type : String)
  | patternType (written actual : String)
  | noVariant (enum variant : String)
  | patternFields (variant : String) (actual bound : Nat)
  | unknownEnum (name : String)
  | argumentCount (variant : String) (expected : Nat)
  | unknownStruct (name : String)
  | noField (struct field : String)
  | missingFields (fields : List String) (struct : String)
  | illTyped (owner : String)
  | cannotInfer (form : String)
  | types (fault : TypeFault)
  | longNumeral (digits : Nat)
  deriving Repr

namespace ReadCause

/-- The part of a text before its first line break. -/
def firstLine (text : String) : String := String.ofList (text.toList.takeWhile (!Lines.isBreak ·))

def unexpected (token : String) (p : Position) : String :=
  "syntax error: Unexpected token " ++ token ++ " at line " ++ toString p.line ++ ", column " ++
    toString p.column ++ "."

def message : ReadCause → String
  | unexpectedToken t => unexpected t.describe t.start
  | unexpectedEnd p => unexpected "Token('$END', '')" p
  | unmatched c p =>
    "syntax error: " ++ firstLine ("No terminal matches '" ++ String.singleton c ++
      "' in the current parser context, at line " ++ toString p.line ++ " col " ++ toString p.column)
  | unknownType n => "unknown type '" ++ n ++ "'"
  | duplicateField f s => "duplicate field '" ++ f ++ "' in struct '" ++ s ++ "'"
  | duplicateFunction n => "duplicate function '" ++ n ++ "'"
  | unknownName n f => "unknown name '" ++ n ++ "' in '" ++ f ++ "'"
  | targetNotPlace => "assignment target must be a place"
  | borrowNotPlace => "only places can be borrowed"
  | scrutineeNotPlace => "match scrutinee must be a place"
  | needsType n => "'let " ++ n ++ ";' needs a type annotation"
  | cannotMatch t => "cannot match on " ++ t
  | patternType a b => "pattern type '" ++ a ++ "' does not match '" ++ b ++ "'"
  | noVariant e v => "'" ++ e ++ "' has no variant '" ++ v ++ "'"
  | patternFields v n m =>
    "variant '" ++ v ++ "' has " ++ toString n ++ " field(s), pattern binds " ++ toString m
  | unknownEnum n => "unknown enum '" ++ n ++ "'"
  | argumentCount v n => "variant '" ++ v ++ "' expects " ++ toString n ++ " argument(s)"
  | unknownStruct n => "unknown struct '" ++ n ++ "'"
  | noField s f => "struct '" ++ s ++ "' has no field '" ++ f ++ "'"
  | missingFields fs s => "missing field(s) " ++ ", ".intercalate fs ++ " in '" ++ s ++ "'"
  | illTyped t => "ill-typed place expression on " ++ t
  | cannotInfer form => "cannot infer the type of " ++ form
  | types f => f.message
  | longNumeral n =>
    "Exceeds the limit (" ++ toString Numeral.maxDigits ++ " digits) for integer string conversion: value has " ++
      toString n ++ " digits; use sys.set_int_max_str_digits() to increase the limit"

end ReadCause

structure ReadError where
  cause : ReadCause
  loc : Span
  deriving Repr

abbrev Read (α : Type) := Except ReadError α

end Ownership
