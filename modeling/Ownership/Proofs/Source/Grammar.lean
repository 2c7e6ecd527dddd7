import Ownership.Source.Surface

/-!
The grammar of the program text, rule by rule: which tokens derive which tree. A
node of a tree has the range from the first to the last of the tokens that it is
derived from. The levels of expressions say how operators bind: disjunctions,
conjunctions, sums and products take an operand of their own level on the left
only, comparisons take none, and the operators in front of an operand bind
tighter than those between two and looser than the steps behind one.
-/
namespace Ownership.Surface

/-- From the first token to the last. -/
def Range.ofTokens (ts : List Token) : Range :=
  ⟨ts.head?.elim {} Token.start, ts.getLast?.elim {} Token.stop⟩

/-- Which tokens derive which tree. -/
abbrev Phrase (α : Type) := List Token → α → Prop

/-- A keyword or an operator. -/
inductive Fixed (text : String) : List Token → Prop where
  | mk (h : t.terminal = .fixed text) : Fixed text [t]

/-- A token of a class with many spellings. -/
inductive Spelling (terminal : Terminal) : Phrase String where
  | mk (h : t.terminal = terminal) : Spelling terminal [t] t.text

/-- A word that may be there. -/
inductive Flag (text : String) : Phrase Bool where
  | absent : Flag text [] false
  | present (h : Fixed text ts) : Flag text ts true

inductive Maybe (P : Phrase α) : Phrase (Option α) where
  | none : Maybe P [] none
  | some (h : P ts x) : Maybe P ts (some x)

inductive OrEmpty (P : Phrase (List α)) : Phrase (List α) where
  | empty : OrEmpty P [] []
  | given (h : P ts xs) : OrEmpty P ts xs

inductive After (text : String) (P : Phrase α) : Phrase α where
  | mk (ht : Fixed text ts) (h : P us x) : After text P (ts ++ us) x

inductive Enclosed (left right : String) (P : Phrase α) : Phrase α where
  | mk (hl : Fixed left ls) (h : P ts x) (hr : Fixed right rs) : Enclosed left right P (ls ++ ts ++ rs) x

inductive Many (P : Phrase α) : Phrase (List α) where
  | nil : Many P [] []
  | cons (h : P ts x) (hrest : Many P us xs) : Many P (ts ++ us) (x :: xs)

/-- One or more, with commas between them. -/
inductive Commas (P : Phrase α) : Phrase (List α) where
  | one (h : P ts x) : Commas P ts [x]
  | cons (h : P ts x) (hc : Fixed "," cs) (hrest : Commas P us xs) : Commas P (ts ++ cs ++ us) (x :: xs)

/-- The same, with a comma that may follow. -/
inductive CommasEnd (P : Phrase α) : Phrase (List α) where
  | mk (h : Commas P ts xs) (hc : Flag "," cs b) : CommasEnd P (ts ++ cs) xs

inductive Ty.Derives : Phrase Ty where
  | ref (ha : Fixed "&" as) (hr : Maybe (Spelling .region) rs r) (hm : Flag "mut" ms m) (ht : Ty.Derives ts ty) :
      Ty.Derives (as ++ rs ++ ms ++ ts) (.ref r m ty (.ofTokens (as ++ rs ++ ms ++ ts)))
  | array (h : Enclosed "[" "]" Ty.Derives ts ty) : Ty.Derives ts (.array ty (.ofTokens ts))
  | named (hn : Spelling .name ns x) (hr : Maybe (Enclosed "<" ">" (Spelling .region)) rs r) :
      Ty.Derives (ns ++ rs) (.named x r (.ofTokens (ns ++ rs)))

/-- The levels of expressions, from the loosest to the tightest. -/
inductive Level where
  | disjunction | conjunction | comparison | sum | product | unary | path | atom
  deriving DecidableEq, Repr

/-- The next tighter level. -/
def Level.inner : Level → Option Level
  | disjunction => some conjunction
  | conjunction => some comparison
  | comparison => some sum
  | sum => some product
  | product => some unary
  | unary => some path
  | path => some atom
  | atom => none

/-- The operators between two operands: the level of the whole, that of the left operand, the
spelling, that of the right operand, and the meaning. -/
inductive Between : Level → Level → String → Level → BinaryOp → Prop where
  | or : Between .disjunction .disjunction "||" .conjunction .or
  | and : Between .conjunction .conjunction "&&" .comparison .and
  | eq : Between .comparison .sum "==" .sum .eq
  | ne : Between .comparison .sum "!=" .sum .ne
  | lt : Between .comparison .sum "<" .sum .lt
  | le : Between .comparison .sum "<=" .sum .le
  | gt : Between .comparison .sum ">" .sum .gt
  | ge : Between .comparison .sum ">=" .sum .ge
  | add : Between .sum .sum "+" .product .add
  | sub : Between .sum .sum "-" .product .sub
  | mul : Between .product .product "*" .unary .mul
  | div : Between .product .product "/" .unary .div

mutual

inductive Expr.Derives : Level → Phrase Expr where
  | inner (hl : l.inner = some m) (h : Expr.Derives m ts e) : Expr.Derives l ts e
  | between (hop : Between l m text n op) (ha : Expr.Derives m as a) (ho : Fixed text os)
      (hb : Expr.Derives n bs b) :
      Expr.Derives l (as ++ os ++ bs) (.binary op a b (.ofTokens (as ++ os ++ bs)))
  | neg (ho : Fixed "-" os) (h : Expr.Derives .unary ts e) :
      Expr.Derives .unary (os ++ ts) (.unary .neg e (.ofTokens (os ++ ts)))
  | not (ho : Fixed "!" os) (h : Expr.Derives .unary ts e) :
      Expr.Derives .unary (os ++ ts) (.unary .not e (.ofTokens (os ++ ts)))
  | deref (ho : Fixed "*" os) (h : Expr.Derives .unary ts e) :
      Expr.Derives .unary (os ++ ts) (.deref e (.ofTokens (os ++ ts)))
  | borrow (ho : Fixed "&" os) (hm : Flag "mut" ms m) (h : Expr.Derives .unary ts e) :
      Expr.Derives .unary (os ++ ms ++ ts) (.borrow e m (.ofTokens (os ++ ms ++ ts)))
  | field (h : Expr.Derives .path ts e) (hf : After "." (Spelling .name) fs x) :
      Expr.Derives .path (ts ++ fs) (.field e x (.ofTokens (ts ++ fs)))
  | index (h : Expr.Derives .path ts e) (hi : Enclosed "[" "]" (Expr.Derives .disjunction) is i) :
      Expr.Derives .path (ts ++ is) (.index e i (.ofTokens (ts ++ is)))
  | int (h : Spelling .int ts digits) : Expr.Derives .atom ts (.int digits (.ofTokens ts))
  | true (h : Fixed "true" ts) : Expr.Derives .atom ts (.bool true (.ofTokens ts))
  | false (h : Fixed "false" ts) : Expr.Derives .atom ts (.bool false (.ofTokens ts))
  | unit (hl : Fixed "(" ls) (hr : Fixed ")" rs) : Expr.Derives .atom (ls ++ rs) (.unit (.ofTokens (ls ++ rs)))
  | var (h : Spelling .name ts x) : Expr.Derives .atom ts (.var x (.ofTokens ts))
  | call (hn : Spelling .name ns x) (ha : Enclosed "(" ")" (OrEmpty (Commas (Expr.Derives .disjunction))) as args) :
      Expr.Derives .atom (ns ++ as) (.call x args (.ofTokens (ns ++ as)))
  | inject (hn : Spelling .name ns x) (hv : After "::" (Spelling .name) vs v)
      (ha : OrEmpty (Enclosed "(" ")" (OrEmpty (Commas (Expr.Derives .disjunction)))) as args) :
      Expr.Derives .atom (ns ++ vs ++ as) (.inject x v args (.ofTokens (ns ++ vs ++ as)))
  | construct (hn : After "new" (Spelling .name) ns x) (hr : Maybe (Enclosed "<" ">" (Spelling .region)) rs r)
      (hf : Enclosed "\x7b" "\x7d" (OrEmpty (CommasEnd FieldInit.Derives)) fs fields) :
      Expr.Derives .atom (ns ++ rs ++ fs) (.construct x r fields (.ofTokens (ns ++ rs ++ fs)))
  | paren (h : Enclosed "(" ")" (Expr.Derives .disjunction) ts e) : Expr.Derives .atom ts e

inductive FieldInit.Derives : Phrase FieldInit where
  | mk (hn : Spelling .name ns x) (he : After ":" (Expr.Derives .disjunction) es e) :
      FieldInit.Derives (ns ++ es) (.mk x e (.ofTokens (ns ++ es)))

end

inductive SubPattern.Derives : Phrase SubPattern where
  | skip (h : Fixed "_" ts) : SubPattern.Derives ts .skip
  | bind (hr : Flag "ref" rs r) (hm : Flag "mut" ms m) (hn : Spelling .name ns x) :
      SubPattern.Derives (rs ++ ms ++ ns) (.bind r m x (.ofTokens (rs ++ ms ++ ns)))

inductive Pattern.Derives : Phrase Pattern where
  | wildcard (h : Fixed "_" ts) : Pattern.Derives ts .wildcard
  | variant (hn : Spelling .name ns x) (hf : OrEmpty (Enclosed "(" ")" (Commas SubPattern.Derives)) fs fields) :
      Pattern.Derives (ns ++ fs) (.variant none x fields (.ofTokens (ns ++ fs)))
  | qualified (hn : Spelling .name ns x) (hv : After "::" (Spelling .name) vs v)
      (hf : OrEmpty (Enclosed "(" ")" (Commas SubPattern.Derives)) fs fields) :
      Pattern.Derives (ns ++ vs ++ fs) (.variant (some x) v fields (.ofTokens (ns ++ vs ++ fs)))

mutual

inductive Stmt.Derives : Phrase Stmt where
  | declare (hl : Fixed "let" ls) (hm : Flag "mut" ms m) (hn : Spelling .name ns x)
      (ht : Maybe (After ":" Ty.Derives) ts ty) (he : Maybe (After "=" (Expr.Derives .disjunction)) es e)
      (hs : Fixed ";" ss) :
      Stmt.Derives (ls ++ ms ++ ns ++ ts ++ es ++ ss) (.declare x ty e (.ofTokens (ls ++ ms ++ ns ++ ts ++ es ++ ss)))
  | assign (ha : Expr.Derives .disjunction as a) (hb : After "=" (Expr.Derives .disjunction) bs b)
      (hs : Fixed ";" ss) : Stmt.Derives (as ++ bs ++ ss) (.assign a b (.ofTokens (as ++ bs ++ ss)))
  | eval (h : Expr.Derives .disjunction es e) (hs : Fixed ";" ss) :
      Stmt.Derives (es ++ ss) (.eval e (.ofTokens (es ++ ss)))
  | branch (h : Branch.Derives ts b) : Stmt.Derives ts (.branch b)
  | loop (h : After "loop" Block.Derives ts b) : Stmt.Derives ts (.loop b (.ofTokens ts))
  | whileLoop (hc : After "while" (Expr.Derives .disjunction) cs c) (hb : Block.Derives bs b) :
      Stmt.Derives (cs ++ bs) (.whileLoop c b (.ofTokens (cs ++ bs)))
  | breakLoop (hb : Fixed "break" bs) (hs : Fixed ";" ss) : Stmt.Derives (bs ++ ss) (.breakLoop (.ofTokens (bs ++ ss)))
  | continueLoop (hc : Fixed "continue" cs) (hs : Fixed ";" ss) :
      Stmt.Derives (cs ++ ss) (.continueLoop (.ofTokens (cs ++ ss)))
  | ret (hr : Fixed "return" rs) (he : Maybe (Expr.Derives .disjunction) es e) (hs : Fixed ";" ss) :
      Stmt.Derives (rs ++ es ++ ss) (.ret e (.ofTokens (rs ++ es ++ ss)))
  | select (hm : After "match" (Expr.Derives .disjunction) es e)
      (ha : Enclosed "\x7b" "\x7d" (Many Arm.Derives) as arms) :
      Stmt.Derives (es ++ as) (.select e arms (.ofTokens (es ++ as)))
  | block (h : Block.Derives ts b) : Stmt.Derives ts (.block b)

inductive Block.Derives : Phrase Block where
  | mk (h : Enclosed "\x7b" "\x7d" (Many Stmt.Derives) ts ss) : Block.Derives ts (.mk ss (.ofTokens ts))

inductive Branch.Derives : Phrase Branch where
  | mk (hc : After "if" (Expr.Derives .disjunction) cs c) (hy : Block.Derives ys y) (hn : Alternative.Derives ns n) :
      Branch.Derives (cs ++ ys ++ ns) (.mk c y n (.ofTokens (cs ++ ys ++ ns)))

inductive Alternative.Derives : Phrase Alternative where
  | nothing : Alternative.Derives [] .nothing
  | block (h : After "else" Block.Derives ts b) : Alternative.Derives ts (.block b)
  | branch (h : After "else" Branch.Derives ts b) : Alternative.Derives ts (.branch b)

inductive Arm.Derives : Phrase Arm where
  | mk (hp : Pattern.Derives ps p) (hb : After "=>" Block.Derives bs b) (hc : Flag "," cs comma) :
      Arm.Derives (ps ++ bs ++ cs) (.mk p b (.ofTokens (ps ++ bs ++ cs)))

end

inductive RegionDecl.Derives : Phrase RegionDecl where
  | mk (hr : Spelling .region rs r) (hb : Many (After ":" (Spelling .region)) bs b) :
      RegionDecl.Derives (rs ++ bs) ⟨r, b⟩

inductive TypedName.Derives : Phrase TypedName where
  | mk (hn : Spelling .name ns x) (ht : After ":" Ty.Derives ts t) :
      TypedName.Derives (ns ++ ts) ⟨x, t, .ofTokens (ns ++ ts)⟩

inductive VariantDecl.Derives : Phrase VariantDecl where
  | mk (hn : Spelling .name ns x) (hp : OrEmpty (Enclosed "(" ")" (Commas Ty.Derives)) ps p) :
      VariantDecl.Derives (ns ++ ps) ⟨x, p⟩

/-- Region parameters, where there are some. -/
abbrev RegionParams : Phrase (List RegionDecl) := OrEmpty (Enclosed "<" ">" (Commas RegionDecl.Derives))

inductive Header.Derives : Phrase Header where
  | mk (hn : Spelling .name ns x) (hr : RegionParams rs r)
      (hp : Enclosed "(" ")" (OrEmpty (Commas TypedName.Derives)) ps p) (ht : Maybe (After "->" Ty.Derives) ts t) :
      Header.Derives (ns ++ rs ++ ps ++ ts) ⟨x, r, p, t, .ofTokens (ns ++ rs ++ ps ++ ts)⟩

inductive Item.Derives : Phrase Item where
  | struct (hc : Flag "copy" cs copy) (hn : After "struct" (Spelling .name) ns x) (hr : RegionParams rs regions)
      (hf : Enclosed "\x7b" "\x7d" (OrEmpty (CommasEnd TypedName.Derives)) fs fields) :
      Item.Derives (cs ++ ns ++ rs ++ fs) (.struct copy x fields (.ofTokens (cs ++ ns ++ rs ++ fs)))
  | enum (hc : Flag "copy" cs copy) (hn : After "enum" (Spelling .name) ns x) (hr : RegionParams rs regions)
      (hv : Enclosed "\x7b" "\x7d" (OrEmpty (CommasEnd VariantDecl.Derives)) vs variants) :
      Item.Derives (cs ++ ns ++ rs ++ vs) (.enum copy x variants (.ofTokens (cs ++ ns ++ rs ++ vs)))
  | function (hh : After "fn" Header.Derives hs h) (hb : Block.Derives bs b) : Item.Derives (hs ++ bs) (.function h b)
  | external (he : Fixed "extern" es) (hh : After "fn" Header.Derives hs h) (hs' : Fixed ";" ss) :
      Item.Derives (es ++ hs ++ ss) (.external h)

/-- Programs are items in a row. -/
abbrev ProgramText : Phrase (List Item) := Many Item.Derives

end Ownership.Surface
