/-!
Lines of a text. Besides the line feed, several other characters end a line,
and a carriage return with a line feed after it ends one line.
-/
namespace Ownership.Lines

def isBreak (c : Char) : Bool :=
  let n := c.toNat
  (0x0a ≤ n && n ≤ 0x0d) || (0x1c ≤ n && n ≤ 0x1e) || n = 0x85 || n = 0x2028 || n = 0x2029

/-- Splits off lines; `line` is the open one, reversed. A text that ends with a break has no line after it. -/
def splitFrom (line : List Char) : List Char → List (List Char)
  | [] => if line.isEmpty then [] else [line.reverse]
  | '\r' :: '\n' :: rest => line.reverse :: splitFrom [] rest
  | c :: rest => if isBreak c then line.reverse :: splitFrom [] rest else splitFrom (c :: line) rest

def split (text : String) : List String := (splitFrom [] text.toList).map String.ofList

/-- The text with every kind of carriage return made a line feed. -/
def unify : List Char → List Char
  | [] => []
  | '\r' :: '\n' :: rest => '\n' :: unify rest
  | c :: rest => (if c = '\r' then '\n' else c) :: unify rest

/-- Some part of `text` equals `needle`. -/
def occursIn (needle : List Char) : List Char → Bool
  | [] => needle.isEmpty
  | c :: rest => needle.isPrefixOf (c :: rest) || occursIn needle rest

/-- The number, from one, of the first line that holds a text. -/
def lineOf? (text needle : String) : Option Nat :=
  ((split text).findIdx? fun line => occursIn needle.toList line.toList).map (· + 1)

end Ownership.Lines
