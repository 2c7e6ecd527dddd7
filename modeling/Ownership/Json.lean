import Ownership.Text.Quoted

/-!
Values in the JSON format and their text. The text is plain ASCII on one line,
with a blank after each comma and each colon; every other character is escaped
by its UTF-16 units.
-/
namespace Ownership

inductive Json where
  | null
  | bool (b : Bool)
  | int (n : Int)
  | str (s : String)
  | arr (items : List Json)
  | obj (fields : List (String × Json))
  deriving Inhabited

namespace Json

def ofOption {α : Type} (f : α → Json) (a : Option α) : Json := a.elim null f

def optionalText (s : Option String) : Json := ofOption str s

def optionalInt (n : Option Int) : Json := ofOption int n

def texts (ss : List String) : Json := arr (ss.map str)

def escapeUnit (n : Nat) : String := "\\u" ++ Quoted.hexDigits 4 n

/-- The escape of a code point; one beyond sixteen bits takes a pair of units. -/
def escape (n : Nat) : String :=
  if n < 0x10000 then escapeUnit n
  else escapeUnit (0xd800 + (n - 0x10000) / 0x400) ++ escapeUnit (0xdc00 + (n - 0x10000) % 0x400)

def encodeChar (c : Char) : String :=
  if c = '"' then "\\\""
  else if c = '\\' then "\\\\"
  else if c = '\n' then "\\n"
  else if c = '\r' then "\\r"
  else if c = '\t' then "\\t"
  else if c.toNat = 0x0c then "\\f"
  else if c.toNat = 0x08 then "\\b"
  else if 0x20 ≤ c.toNat && c.toNat ≤ 0x7e then String.singleton c
  else escape c.toNat

def encode (s : String) : String := "\"" ++ String.join (s.toList.map encodeChar) ++ "\""

mutual

def render : Json → String
  | null => "null"
  | bool b => if b then "true" else "false"
  | int n => toString n
  | str s => encode s
  | arr items => "[" ++ ", ".intercalate (renderItems items) ++ "]"
  | obj fields => "\x7b" ++ ", ".intercalate (renderFields fields) ++ "\x7d"

def renderItems : List Json → List String
  | [] => []
  | j :: rest => j.render :: renderItems rest

def renderFields : List (String × Json) → List String
  | [] => []
  | (name, j) :: rest => (encode name ++ ": " ++ j.render) :: renderFields rest

end

end Json

end Ownership
