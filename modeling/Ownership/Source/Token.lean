import Ownership.Text.Quoted

/-!
Tokens of the program text. Blanks and comments are skipped; a run of name
characters is a keyword only when the whole run is one; of two operators the
longer one wins. Scanning stops at the first character that starts no token.
-/
namespace Ownership

/-- A place in the text; lines and columns count from one. -/
structure Position where
  line : Nat := 1
  column : Nat := 1
  deriving DecidableEq, Repr, Inhabited

namespace Position

def after (p : Position) (c : Char) : Position :=
  if c = '\n' then ⟨p.line + 1, 1⟩ else ⟨p.line, p.column + 1⟩

def afterAll (p : Position) (cs : List Char) : Position := cs.foldl after p

end Position

inductive Terminal where
  | name
  | region
  | int
  | fixed (text : String)
  deriving DecidableEq, Repr, Inhabited

namespace Terminal

/-- The keywords with their labels in messages. -/
def keywords : List (String × String) :=
  [("copy", "COPY"), ("mut", "MUT"), ("ref", "REF"), ("continue", "CONTINUE"), ("extern", "EXTERN"),
    ("return", "RETURN"), ("struct", "STRUCT"), ("break", "BREAK"), ("false", "FALSE"),
    ("match", "MATCH"), ("while", "WHILE"), ("else", "ELSE"), ("enum", "ENUM"), ("loop", "LOOP"),
    ("true", "TRUE"), ("let", "LET"), ("new", "NEW"), ("fn", "FN"), ("if", "IF"), ("_", "UNDERSCORE")]

/-- The operators with their labels in messages. -/
def operators : List (String × String) :=
  [("->", "__ANON_0"), ("=>", "__ANON_1"), ("::", "__ANON_2"), ("||", "__ANON_3"),
    ("&&", "__ANON_4"), ("==", "__ANON_5"), ("!=", "__ANON_6"), ("<=", "__ANON_7"),
    (">=", "__ANON_8"), ("&", "AMPERSAND"), ("!", "BANG"), (":", "COLON"), (",", "COMMA"),
    (".", "DOT"), ("=", "EQUAL"), ("\x7b", "LBRACE"), ("\x7d", "RBRACE"), ("<", "LESSTHAN"),
    (">", "MORETHAN"), ("(", "LPAR"), (")", "RPAR"), ("[", "LSQB"), ("]", "RSQB"), ("-", "MINUS"),
    ("+", "PLUS"), ("/", "SLASH"), ("*", "STAR"), (";", "SEMICOLON")]

def isOperator (text : String) : Bool := (operators.lookup text).isSome

def label : Terminal → String
  | name => "NAME"
  | region => "REGION"
  | int => "INT"
  | fixed text => ((keywords ++ operators).lookup text).getD text

/-- A run of name characters is a keyword or a name. -/
def ofWord (word : String) : Terminal :=
  if (keywords.lookup word).isSome then .fixed word else .name

end Terminal

structure Token where
  terminal : Terminal
  text : String
  start : Position
  stop : Position
  deriving DecidableEq, Repr, Inhabited

namespace Token

def describe (t : Token) : String :=
  "Token(" ++ Quoted.quote t.terminal.label ++ ", " ++ Quoted.quote t.text ++ ")"

def isBlank (c : Char) : Bool :=
  c = ' ' || c = '\t' || c = '\n' || c = '\r' || c = '\x0c'

def isNameStart (c : Char) : Bool := c.isAlpha || c = '_'

def isNameChar (c : Char) : Bool := c.isAlphanum || c = '_'

/-- How many characters from the start of a text satisfy a test. -/
def run (test : Char → Bool) (cs : List Char) : Nat := (cs.takeWhile test).length

/-- An operator at the start of a text, the longest there is. -/
def operator? (c : Char) (cs : List Char) : Option (Terminal × Nat) :=
  let two := String.ofList (c :: cs.take 1)
  let one := String.singleton c
  if cs ≠ [] && Terminal.isOperator two then some (.fixed two, 1)
  else if Terminal.isOperator one then some (.fixed one, 0)
  else none

/-- What starts with `c`: a token, or something to skip, and how many characters follow `c` in it. -/
def lexeme? (c : Char) (cs : List Char) : Option (Option Terminal × Nat) :=
  if isBlank c then some (none, 0)
  else if c = '/' && cs.head? = some '/' then some (none, run (· ≠ '\n') cs)
  else if isNameStart c then
    let n := run isNameChar cs
    some (some (.ofWord (String.ofList (c :: cs.take n))), n)
  else if c.isDigit then some (some .int, run Char.isDigit cs)
  else if c = '\'' && cs.head?.any isNameStart then some (some .region, run isNameChar cs)
  else (operator? c cs).map fun (t, n) => (some t, n)

end Token

/-- Why scanning stopped. -/
inductive ScanEnd where
  | complete
  | unmatched (c : Char) (position : Position)
  deriving DecidableEq, Repr, Inhabited

structure Scan where
  tokens : List Token
  ending : ScanEnd
  deriving DecidableEq, Repr, Inhabited

/-- The tokens of a text from a position on. -/
def scanFrom (p : Position) : List Char → Scan
  | [] => ⟨[], .complete⟩
  | c :: cs =>
    match Token.lexeme? c cs with
    | none => ⟨[], .unmatched c p⟩
    | some (terminal, more) =>
      let text := c :: cs.take more
      let stop := p.afterAll text
      let rest := scanFrom stop (cs.drop more)
      match terminal with
      | none => rest
      | some t => { rest with tokens := ⟨t, String.ofList text, p, stop⟩ :: rest.tokens }
termination_by cs => cs.length
decreasing_by
  simp only [List.length_drop, List.length_cons]
  omega

def scan (text : String) : Scan := scanFrom {} text.toList

end Ownership
