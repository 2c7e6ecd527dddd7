/-!
Integers as people write them: blanks around, an optional sign, then decimal
digits of any script, where single underscores may part two digits. A numeral
of very many digits is not read.
-/
namespace Ownership.Numeral

/-- The first digit, zero, of every script that has decimal digits. -/
def zeros : List Nat :=
  [0x30, 0x660, 0x6f0, 0x7c0, 0x966, 0x9e6, 0xa66, 0xae6, 0xb66, 0xbe6, 0xc66, 0xce6, 0xd66, 0xde6,
    0xe50, 0xed0, 0xf20, 0x1040, 0x1090, 0x17e0, 0x1810, 0x1946, 0x19d0, 0x1a80, 0x1a90, 0x1b50,
    0x1bb0, 0x1c40, 0x1c50, 0xa620, 0xa8d0, 0xa900, 0xa9d0, 0xa9f0, 0xaa50, 0xabf0, 0xff10, 0x104a0,
    0x10d30, 0x11066, 0x110f0, 0x11136, 0x111d0, 0x112f0, 0x11450, 0x114d0, 0x11650, 0x116c0,
    0x11730, 0x118e0, 0x11950, 0x11c50, 0x11d50, 0x11da0, 0x16a60, 0x16ac0, 0x16b50, 0x1d7ce,
    0x1d7d8, 0x1d7e2, 0x1d7ec, 0x1d7f6, 0x1e140, 0x1e2f0, 0x1e950, 0x1fbf0]

/-- The value of a decimal digit of any script. -/
def digit? (c : Char) : Option Nat :=
  (zeros.find? fun z => z ≤ c.toNat && c.toNat ≤ z + 9).map (c.toNat - ·)

def isDigit (c : Char) : Bool := (digit? c).isSome

/-- The most digits that a numeral may have, zeros in front included. -/
def maxDigits : Nat := 4300

/-- The characters that may stand around a numeral; of the control characters, only those that move on. -/
def isBlank (c : Char) : Bool :=
  let n := c.toNat
  (0x09 ≤ n && n ≤ 0x0d) || n = 0x20 || n = 0x85 || n = 0xa0 || n = 0x1680 ||
    (0x2000 ≤ n && n ≤ 0x200a) || n = 0x2028 || n = 0x2029 || n = 0x202f || n = 0x205f || n = 0x3000

def trim (cs : List Char) : List Char :=
  ((cs.dropWhile isBlank).reverse.dropWhile isBlank).reverse

/-- Digits after a first one, with the value read so far. -/
def readMore (value : Nat) : List Char → Option Nat
  | [] => some value
  | '_' :: c :: rest => (digit? c).bind fun d => readMore (10 * value + d) rest
  | c :: rest => (digit? c).bind fun d => readMore (10 * value + d) rest

def readDigits : List Char → Option Nat
  | [] => none
  | c :: rest => (digit? c).bind fun d => readMore d rest

def readSigned : List Char → Option Int
  | '-' :: rest => (readDigits rest).map fun n => -(n : Int)
  | '+' :: rest => (readDigits rest).map Int.ofNat
  | rest => (readDigits rest).map Int.ofNat

/-- The integer that a text spells, if it spells one. -/
def read? (text : String) : Option Int :=
  let cs := trim text.toList
  if cs.countP isDigit ≤ maxDigits then readSigned cs else none

example : read? " +1 " = some 1 := by decide
example : read? "00" = some 0 := by decide
example : read? "1_0" = some 10 := by decide
example : read? "1__0" = none := by decide
example : read? "- 1" = none := by decide
example : read? "\x1c1" = none := by decide

end Ownership.Numeral
