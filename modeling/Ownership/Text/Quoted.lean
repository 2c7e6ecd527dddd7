import Ownership.Text.Printable

/-!
Texts in quotes. Single quotes are preferred; a text that holds a single quote
and no double one takes double quotes. What cannot be seen is escaped.
-/
namespace Ownership.Quoted

def hexDigits (width n : Nat) : String :=
  let digits := Nat.toDigits 16 n
  String.ofList (List.replicate (width - digits.length) '0' ++ digits)

/-- The escape of a code point, with as few digits as its size allows. -/
def escape (n : Nat) : String :=
  if n < 0x100 then "\\x" ++ hexDigits 2 n
  else if n < 0x10000 then "\\u" ++ hexDigits 4 n
  else "\\U" ++ hexDigits 8 n

def quoteChar (mark c : Char) : String :=
  if c = mark || c = '\\' then String.ofList ['\\', c]
  else if c = '\n' then "\\n"
  else if c = '\r' then "\\r"
  else if c = '\t' then "\\t"
  else if Printable.isPrintable c then String.singleton c
  else escape c.toNat

def mark (text : List Char) : Char :=
  if text.contains '\'' && !text.contains '"' then '"' else '\''

def quote (text : String) : String :=
  let m := mark text.toList
  String.singleton m ++ String.join (text.toList.map (quoteChar m)) ++ String.singleton m

end Ownership.Quoted
