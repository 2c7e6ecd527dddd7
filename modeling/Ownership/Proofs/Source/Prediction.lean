import Ownership.Proofs.Source.Language
import Ownership.Proofs.Source.Lookahead

/-!
The parser predicts from one token. Each of its functions is steady over the words
of its rule: a run that succeeds has read a word, and one that is stuck has read the
start of one, up to the first token that no word could have there.
-/
namespace Ownership.Surface

open Outcome Language
open scoped Computability

variable {ι κ α : Type}

/-- The runs of a parser are steady next to those of a family. -/
def Predicts (p : Parse α) (q : ι → Parse α) (k : Nat) (L : Language Token) : Prop :=
  ∀ ⦃κ : Type⦄ (c : Cursor) (cur : κ → Cursor) (g : κ → ι), Steady c (p c) cur (fun r => q (g r) (cur r)) k L

/-- Only runs with some fuel matter. -/
theorem Predicts.of_succ {p : Parse α} {q : Nat → Parse α} {k : Nat} {L : Language Token}
    (hzero : ∀ c, q 0 c = c.stuck)
    (h : ∀ ⦃κ : Type⦄ (c : Cursor) (cur : κ → Cursor) (m : κ → Nat),
      Steady c (p c) cur (fun r => q (m r + 1) (cur r)) k L) : Predicts p q k L := by
  intro κ c cur g
  exact .of_succ g (F := fun r n => q n (cur r)) (fun r => hzero (cur r)) fun m => h c cur m

/-- A parser without fuel is stuck at once. -/
theorem Steady.empty {c : Cursor} {cur : κ → Cursor} {out : κ → Except Stuck (α × Cursor)} {L : Language Token}
    (hL : ∃ us, us ∈ L) : Steady c c.stuck cur out 0 L :=
  .halt hL fun h => absurd h (Nat.lt_irrefl 0)

section

variable {p : Parse α} {q : ι → Parse α} {P : Phrase α} {k : Nat}

theorem Commas.rules : words P * (lit "," * words (Commas P) + 1) ≤ words (Commas P) := le_of_mem fun ts => by
  simp only [mem_mul, mem_add, mem_one, mem_words, mem_lit]
  rintro ⟨ts, ⟨x, h⟩, _, ⟨cs, hc, us, ⟨xs, hrest⟩, rfl⟩ | rfl, rfl⟩
  · rw [← List.append_assoc]
    exact ⟨_, .cons h hc hrest⟩
  · rw [List.append_nil]
    exact ⟨_, .one h⟩

theorem commaList_steady [Nonempty α] (hP : ∃ us, us ∈ words P) (hp : Predicts p q k (words P)) (n : Nat) :
    ∀ {κ : Type} (c : Cursor) (cur : κ → Cursor) (g : κ → ι) (m : κ → Nat),
      Steady c (commaList p n c) cur (fun r => commaList (q (g r)) (m r) (cur r)) (min k n) (words (Commas P)) := by
  induction n with
  | zero =>
    intro κ c cur g m
    rw [Nat.min_zero]
    obtain ⟨us, x, h⟩ := hP
    exact .empty ⟨us, _, .one h⟩
  | succ n ih =>
    intro κ c cur g m
    refine .of_succ m (F := fun r n => commaList (q (g r)) n (cur r)) (fun _ => rfl) fun m => ?_
    simp only [commaList]
    refine .wider Commas.rules (.bind ((hp c cur g).fewer (Nat.min_le_left _ _)) fun x d => ?_)
    refine .ite (fun h => .next h ?_) fun _ => .done
    exact .map ((ih _ _ _ _).fewer (by omega))

theorem Commas.closed_rules {right : String} : lit right + words (Commas P) * lit right ≤
    words (OrEmpty (Commas P)) * lit right := le_of_mem fun ts => by
  simp only [mem_mul, mem_add, mem_words, mem_lit]
  rintro (hr | ⟨us, ⟨xs, h⟩, rs, hr, rfl⟩)
  · exact ⟨[], ⟨_, .empty⟩, ts, hr, rfl⟩
  · exact ⟨us, ⟨_, .given h⟩, rs, hr, rfl⟩

/-- Items with commas, if there are some, and the token that closes them. -/
theorem closedList_steady [Nonempty α] (hP : ∃ us, us ∈ words P) (hp : Predicts p q k (words P)) (n : Nat)
    (right : String) (c : Cursor) (cur : κ → Cursor) (g : κ → ι) (m : κ → Nat) :
    Steady c (closedList right p n c) cur (fun r => closedList right (q (g r)) (m r) (cur r))
      (min k n) (words (OrEmpty (Commas P)) * lit right) := by
  simp only [closedList]
  refine .wider Commas.closed_rules (.ite (fun h => .last h) fun _ => ?_)
  refine .bind (commaList_steady hP hp n c cur g m) fun xs d => ?_
  exact .close

theorem Enclosed.rules {left right : String} {P : Phrase (List α)} : lit left * (words P * lit right) + 1 ≤
    words (OrEmpty (Enclosed left right P)) := le_of_mem fun ts => by
  simp only [mem_mul, mem_add, mem_one, mem_words, mem_lit]
  rintro (⟨ls, hl, _, ⟨us, ⟨xs, h⟩, rs, hr, rfl⟩, rfl⟩ | rfl)
  · rw [← List.append_assoc]
    exact ⟨_, .given (.mk hl h hr)⟩
  · exact ⟨_, .empty⟩

/-- Items with commas between two tokens, or none of it. -/
theorem enclosedList_steady [Nonempty α] (hP : ∃ us, us ∈ words P) (hp : Predicts p q k (words P)) (n : Nat)
    (left right : String) (c : Cursor) (cur : κ → Cursor) (g : κ → ι) (m : κ → Nat) :
    Steady c (enclosedList left right p n c) cur (fun r => enclosedList left right (q (g r)) (m r) (cur r))
      (min k n) (words (OrEmpty (Enclosed left right (Commas P)))) := by
  simp only [enclosedList]
  refine .wider Enclosed.rules (.ite (fun h => .next h ?_) fun _ => .done)
  refine .bind ((commaList_steady hP hp n _ _ g m).fewer (Nat.sub_le _ 1)) fun xs d => ?_
  exact .close

theorem Maybe.rules {text : String} : lit text * words P + 1 ≤ words (Maybe (After text P)) := le_of_mem fun ts => by
  simp only [mem_mul, mem_add, mem_one, mem_words, mem_lit]
  rintro (⟨cs, hc, us, ⟨t, h⟩, rfl⟩ | rfl)
  · exact ⟨_, .some (.mk hc h)⟩
  · exact ⟨_, .none⟩

/-- Items with commas and the token that closes them. -/
theorem CommasEnd.rules {close : String} : lit close +
    words P * (lit "," * (words (OrEmpty (CommasEnd P)) * lit close) + lit close) ≤
      words (OrEmpty (CommasEnd P)) * lit close := le_of_mem fun ts => by
  simp only [mem_mul, mem_add, mem_words, mem_lit]
  rintro (hr | ⟨ts, ⟨x, h⟩, _, ⟨cs, hc, _, ⟨us, ⟨xs, hrest⟩, rs, hr, rfl⟩, rfl⟩ | hr, rfl⟩)
  · exact ⟨[], ⟨_, .empty⟩, ts, hr, rfl⟩
  · refine ⟨ts ++ cs ++ us, ?_, rs, hr, by simp only [List.append_assoc]⟩
    cases hrest with
    | empty =>
      rw [List.append_nil]
      exact ⟨_, .given (.mk (.one h) (.present hc))⟩
    | given hrest =>
      cases hrest with
      | mk hrest hend =>
        rw [← List.append_assoc]
        exact ⟨_, .given (.mk (.cons h hc hrest) hend)⟩
  · have hone := CommasEnd.mk (.one h) .absent
    rw [List.append_nil] at hone
    exact ⟨ts, ⟨_, .given hone⟩, _, hr, rfl⟩

theorem commaListUntil_steady [Nonempty α] (close : String) (hp : Predicts p q k (words P)) (n : Nat) :
    ∀ {κ : Type} (c : Cursor) (cur : κ → Cursor) (g : κ → ι) (m : κ → Nat),
      Steady c (commaListUntil close p n c) cur (fun r => commaListUntil close (q (g r)) (m r) (cur r)) (min k n)
        (words (OrEmpty (CommasEnd P)) * lit close) := by
  induction n with
  | zero =>
    intro κ c cur g m
    rw [Nat.min_zero]
    exact .empty ⟨_, CommasEnd.rules (.inl (lit_inhabited close))⟩
  | succ n ih =>
    intro κ c cur g m
    refine .of_succ m (F := fun r n => commaListUntil close (q (g r)) n (cur r)) (fun _ => rfl) fun m => ?_
    simp only [commaListUntil]
    refine .wider CommasEnd.rules (.ite (fun h => .last h) fun _ => ?_)
    refine .bind ((hp c cur g).fewer (Nat.min_le_left _ _)) fun x d => ?_
    refine .ite (fun h => .next h ?_) fun _ => .close
    exact .map ((ih _ _ _ _).fewer (by omega))

theorem Many.rules : 1 + words P * words (Many P) ≤ words (Many P) := le_of_mem fun ts => by
  simp only [mem_mul, mem_add, mem_one, mem_words]
  rintro (rfl | ⟨ts, ⟨x, h⟩, us, ⟨xs, hrest⟩, rfl⟩)
  · exact ⟨_, .nil⟩
  · exact ⟨_, .cons h hrest⟩

theorem itemsUntil_steady [Nonempty α] (close : String) (hpos : ∀ us ∈ words P, us ≠ [])
    (hp : Predicts p q k (words P)) (n : Nat) :
    ∀ {κ : Type} (c : Cursor) (cur : κ → Cursor) (g : κ → ι) (m : κ → Nat),
      Steady c (itemsUntil close p n c) cur (fun r => itemsUntil close (q (g r)) (m r) (cur r)) (min k n)
        (words (Many P)) := by
  induction n with
  | zero =>
    intro κ c cur g m
    rw [Nat.min_zero]
    exact .empty ⟨[], _, .nil⟩
  | succ n ih =>
    intro κ c cur g m
    refine .of_succ m (F := fun r n => itemsUntil close (q (g r)) n (cur r)) (fun _ => rfl) fun m => ?_
    simp only [itemsUntil]
    refine .wider Many.rules (.ite (fun _ => .done) fun _ => ?_)
    refine .bindPos ((hp c cur g).fewer (Nat.min_le_left _ _)) hpos fun x d => ?_
    exact .map ((ih _ _ _ _).fewer (by omega))

/-- Items and the token that closes them, which the caller reads. -/
theorem itemsUntil_closed [Nonempty α] {β : Type} (close : String) (hpos : ∀ us ∈ words P, us ≠ []) (hs : Sound p P)
    (hp : Predicts p q k (words P)) (n : Nat) (c : Cursor) (cur : κ → Cursor) (g : κ → ι) (m : κ → Nat)
    {f : List α × Cursor → β} {f' : κ → List α × Cursor → β} :
    Steady c (itemsUntil close p n c >>= fun x => .ok (f x, x.2.next)) cur
      (fun r => itemsUntil close (q (g r)) (m r) (cur r) >>= fun x => .ok (f' r x, x.2.next)) (min k n)
      (words (Many P) * lit close) := by
  refine (itemsUntil_steady close hpos hp n c cur g m).andThen (m := 0) (fun _ _ => Nat.zero_le _)
    ⟨_, lit_inhabited close⟩ fun xs d hok => ?_
  exact .last (itemsUntil_sound hs close n hok).2

end

theorem name_inhabited : ∃ us, us ∈ words (Spelling .name) := ⟨_, _, .mk (t := ⟨.name, "x", {}, {}⟩) rfl⟩

theorem regionArg_steady {c : Cursor} {cur : κ → Cursor} {k : Nat} :
    Steady c (regionArg c) cur (fun r => regionArg (cur r)) k
      (words (Maybe (Enclosed "<" ">" (Spelling .region)))) := by
  have hrules : lit "<" * (words (Spelling .region) * lit ">") + 1 ≤
      words (Maybe (Enclosed "<" ">" (Spelling .region))) := le_of_mem fun ts => by
    simp only [mem_mul, mem_add, mem_one, mem_words, mem_lit]
    rintro (⟨ls, hl, _, ⟨us, ⟨x, h⟩, rs, hr, rfl⟩, rfl⟩ | rfl)
    · rw [← List.append_assoc]
      exact ⟨_, .some (.mk hl h hr)⟩
    · exact ⟨_, .none⟩
  simp only [regionArg]
  refine .wider hrules (.ite (fun h => .next h ?_) fun _ => .done)
  refine .bind (.word .region) fun x d => ?_
  exact .close

theorem Ty.rules : lit "&" * (words (Maybe (Spelling .region)) * (words (Flag "mut") * words Ty.Derives)) +
    (lit "[" * (words Ty.Derives * lit "]") +
      words (Spelling .name) * words (Maybe (Enclosed "<" ">" (Spelling .region)))) ≤ words Ty.Derives :=
  le_of_mem fun ts => by
  simp only [mem_mul, mem_add, mem_words, mem_lit]
  rintro (⟨as, ha, _, ⟨rs, ⟨r, hr⟩, _, ⟨ms, ⟨m, hm⟩, us, ⟨t, h⟩, rfl⟩, rfl⟩, rfl⟩ |
    ⟨ls, hl, _, ⟨us, ⟨t, h⟩, rs, hr, rfl⟩, rfl⟩ | ⟨ns, ⟨x, hn⟩, rs, ⟨r, hr⟩, rfl⟩)
  · simp only [← List.append_assoc]
    exact ⟨_, .ref ha hr hm h⟩
  · rw [← List.append_assoc]
    exact ⟨_, .array (.mk hl h hr)⟩
  · exact ⟨_, .named hn hr⟩

theorem Ty.inhabited : ∃ us, us ∈ words Ty.Derives := by
  obtain ⟨us, x, h⟩ := name_inhabited
  exact ⟨us ++ [], _, .named h .none⟩

theorem type_steady (n : Nat) : Predicts (type n) type n (words Ty.Derives) := by
  induction n with
  | zero => exact fun _ _ _ _ => .empty Ty.inhabited
  | succ n ih =>
    refine .of_succ (fun _ => rfl) fun κ c cur m => ?_
    simp only [type]
    refine .wider Ty.rules (.ite (fun h => .next h ?_) fun _ => .ite (fun h => .next h ?_) fun _ => ?_)
    · refine .bind .optionalRegion fun x d => ?_
      dsimp only
      refine .optional (fun b h => by rw [h]) (fun b r h => by rw [h]) fun b => ?_
      exact .map (ih _ _ _)
    · refine .bind (ih _ _ _) fun t d => ?_
      exact .close
    · refine .bind (.word .name) fun x d => ?_
      exact .map regionArg_steady

instance : Nonempty Expr := ⟨.unit default⟩

instance : Nonempty FieldInit := ⟨.mk "" (.unit default) default⟩

namespace Tier

/-- The operators of a tier. -/
def symbols (tier : Tier) : Language Token :=
  {ts | ∃ text op, Between tier.level tier.leftLevel text (levelOf tier.tighter) op ∧ Fixed text ts}

/-- What may follow the first operand of a tier. -/
def tail (tier : Tier) : Language Token :=
  if tier.chains then (tier.symbols * words (Expr.Derives (levelOf tier.tighter)))∗
  else 1 + tier.symbols * words (Expr.Derives (levelOf tier.tighter))

variable {tier : Tier}

theorem mem_symbols {ts : List Token} : ts ∈ tier.symbols ↔
    ∃ text op, Between tier.level tier.leftLevel text (levelOf tier.tighter) op ∧ Fixed text ts := Iff.rfl

theorem operand_le : words (Expr.Derives (levelOf tier.tighter)) ≤ words (Expr.Derives tier.level) :=
  le_of_mem fun ts hts => by
  obtain ⟨e, h⟩ := hts
  exact ⟨e, .inner tier.inner_level h⟩

theorem left_le : words (Expr.Derives tier.leftLevel) * (tier.symbols * words (Expr.Derives (levelOf tier.tighter))) ≤
    words (Expr.Derives tier.level) := le_of_mem fun ts => by
  simp only [mem_mul, mem_words, mem_symbols]
  rintro ⟨as, ⟨a, ha⟩, _, ⟨os, ⟨text, op, hop, ho⟩, bs, ⟨b, hb⟩, rfl⟩, rfl⟩
  rw [← List.append_assoc]
  exact ⟨_, .between hop ha ho hb⟩

/-- Operators of a tier that chains associate to the left; others stand alone. -/
theorem rules : words (Expr.Derives (levelOf tier.tighter)) * tier.tail ≤ words (Expr.Derives tier.level) := by
  have hleft := @left_le tier
  unfold tail
  unfold leftLevel at hleft
  split
  · rename_i hchains
    rw [if_pos hchains] at hleft
    exact (mul_le_mul_left operand_le _).trans (mul_kstar_le_self hleft)
  · rename_i hchains
    rw [if_neg hchains] at hleft
    rw [mul_add, mul_one]
    exact add_le operand_le hleft

theorem one_le_tail : 1 ≤ tier.tail := by
  unfold tail
  split
  · exact one_le_kstar
  · exact le_self_add

/-- An operator, its operand and, if the tier chains, more of them. -/
theorem tail_rules : tier.symbols * (words (Expr.Derives (levelOf tier.tighter)) *
    (if tier.chains then tier.tail else 1)) ≤ tier.tail := by
  rw [← mul_assoc]
  unfold tail
  split
  · exact mul_kstar_le_kstar
  · rw [mul_one]
    exact le_add_self

theorem operator?_congr {c d : Cursor} (h : c.rest.head? = d.rest.head?) : tier.operator? c = tier.operator? d := by
  simp only [operator?, Cursor.sees, h]

end Tier

/-- A field or an element. -/
def stepWords : Language Token :=
  lit "." * words (Spelling .name) + lit "[" * (words (Expr.Derives .disjunction) * lit "]")

theorem stepWords_rules : lit "." * (words (Spelling .name) * stepWords∗) +
    (lit "[" * (words (Expr.Derives .disjunction) * (lit "]" * stepWords∗)) + 1) ≤ stepWords∗ := by
  have hstep : stepWords * stepWords∗ ≤ stepWords∗ := mul_kstar_le_kstar
  rw [stepWords, add_mul, ← stepWords] at hstep
  simp only [mul_assoc] at hstep
  exact add_le (le_self_add.trans hstep) (add_le (le_add_self.trans hstep) one_le_kstar)

/-- Steps follow an atom, and what they make up is a path. -/
theorem path_rules : words (Expr.Derives .atom) * stepWords∗ ≤ words (Expr.Derives .unary) := by
  have hstep : words (Expr.Derives .path) * stepWords ≤ words (Expr.Derives .path) := le_of_mem fun ts => by
    simp only [stepWords, mem_mul, mem_add, mem_words, mem_lit]
    rintro ⟨ts, ⟨e, h⟩, _, ⟨ds, hd, ns, ⟨x, hn⟩, rfl⟩ | ⟨ls, hl, _, ⟨us, ⟨i, hi⟩, rs, hr, rfl⟩, rfl⟩, rfl⟩
    · exact ⟨_, .field h (.mk hd hn)⟩
    · rw [← List.append_assoc ls us rs]
      exact ⟨_, .index h (.mk hl hi hr)⟩
  have hinner {l m : Level} (hl : l.inner = some m) : words (Expr.Derives m) ≤ words (Expr.Derives l) :=
    le_of_mem fun _ hts => hts.imp fun _ h => .inner hl h
  exact (mul_le_mul_left (hinner rfl) _).trans ((mul_kstar_le_self hstep).trans (hinner rfl))

/-- Arguments and the parenthesis that closes them. -/
def argumentWords : Language Token := words (OrEmpty (Commas (Expr.Derives .disjunction))) * lit ")"

/-- What may follow a name. -/
def namedWords : Language Token :=
  lit "(" * argumentWords + (lit "::" * (words (Spelling .name) * (lit "(" * argumentWords + 1)) + 1)

theorem atom_rules : lit "true" + (lit "false" + (lit "(" * (lit ")" + words (Expr.Derives .disjunction) * lit ")") +
    (lit "new" * (words (Spelling .name) * (words (Maybe (Enclosed "<" ">" (Spelling .region))) *
      (lit "\x7b" * (words (OrEmpty (CommasEnd FieldInit.Derives)) * lit "\x7d")))) +
    (words (Spelling .int) + words (Spelling .name) * namedWords)))) ≤ words (Expr.Derives .atom) :=
  le_of_mem fun ts => by
  simp only [namedWords, argumentWords, mem_mul, mem_add, mem_one, mem_words, mem_lit]
  rintro (h | h | ⟨ls, hl, _, hr | ⟨us, ⟨e, h⟩, rs, hr, rfl⟩, rfl⟩ |
    ⟨ws, hw, _, ⟨ns, ⟨x, hn⟩, _, ⟨rs, ⟨r, hr⟩, _, ⟨ls, hl, _, ⟨fs, ⟨fields, hf⟩, es, he, rfl⟩, rfl⟩, rfl⟩, rfl⟩, rfl⟩ |
    ⟨x, h⟩ | ⟨ns, ⟨x, hn⟩, _, ⟨ls, hl, _, ⟨as, ⟨args, ha⟩, rs, hr, rfl⟩, rfl⟩ |
      ⟨cs, hc, _, ⟨vs, ⟨v, hv⟩, _, ⟨ls, hl, _, ⟨as, ⟨args, ha⟩, rs, hr, rfl⟩, rfl⟩ | rfl, rfl⟩, rfl⟩ | rfl, rfl⟩)
  · exact ⟨_, .true h⟩
  · exact ⟨_, .false h⟩
  · exact ⟨_, .unit hl hr⟩
  · have hrule := Expr.Derives.paren (.mk hl h hr)
    simp only [List.append_assoc] at hrule
    exact ⟨_, hrule⟩
  · have hrule := Expr.Derives.construct (.mk hw hn) hr (.mk hl hf he)
    simp only [List.append_assoc] at hrule
    exact ⟨_, hrule⟩
  · exact ⟨_, .int h⟩
  · have hrule := Expr.Derives.call hn (.mk hl ha hr)
    simp only [List.append_assoc] at hrule
    exact ⟨_, hrule⟩
  · have hrule := Expr.Derives.inject hn (.mk hc hv) (.given (.mk hl ha hr))
    simp only [List.append_assoc] at hrule
    exact ⟨_, hrule⟩
  · have hrule := Expr.Derives.inject hn (.mk hc hv) .empty
    simp only [List.append_assoc] at hrule
    exact ⟨_, hrule⟩
  · rw [List.append_nil]
    exact ⟨_, .var hn⟩

theorem unary_rules : lit "-" * words (Expr.Derives .unary) + (lit "!" * words (Expr.Derives .unary) +
    (lit "*" * words (Expr.Derives .unary) + (lit "&" * (words (Flag "mut") * words (Expr.Derives .unary)) +
      words (Expr.Derives .atom) * stepWords∗))) ≤ words (Expr.Derives .unary) := by
  refine add_le ?_ (add_le ?_ (add_le ?_ (add_le ?_ path_rules)))
  all_goals
    refine le_of_mem fun ts => ?_
    simp only [mem_mul, mem_words, mem_lit]
  · rintro ⟨os, ho, us, ⟨e, h⟩, rfl⟩
    exact ⟨_, .neg ho h⟩
  · rintro ⟨os, ho, us, ⟨e, h⟩, rfl⟩
    exact ⟨_, .not ho h⟩
  · rintro ⟨os, ho, us, ⟨e, h⟩, rfl⟩
    exact ⟨_, .deref ho h⟩
  · rintro ⟨os, ho, _, ⟨ms, ⟨m, hm⟩, us, ⟨e, h⟩, rfl⟩, rfl⟩
    rw [← List.append_assoc]
    exact ⟨_, .borrow ho hm h⟩

theorem FieldInit.rules : words (Spelling .name) * (lit ":" * words (Expr.Derives .disjunction)) ≤
    words FieldInit.Derives := le_of_mem fun ts => by
  simp only [mem_mul, mem_words, mem_lit]
  rintro ⟨ns, ⟨x, hn⟩, _, ⟨cs, hc, us, ⟨e, h⟩, rfl⟩, rfl⟩
  exact ⟨_, .mk hn (.mk hc h)⟩

theorem Expr.inhabited (tier : Option Tier) : ∃ us, us ∈ words (Expr.Derives (levelOf tier)) := by
  obtain ⟨us, x, h⟩ := name_inhabited
  have hunary : Expr.Derives .unary us (.var x (.ofTokens us)) := .inner rfl (.inner rfl (.var h))
  have hproduct : Expr.Derives .product us (.var x (.ofTokens us)) := .inner rfl hunary
  have hsum : Expr.Derives .sum us (.var x (.ofTokens us)) := .inner rfl hproduct
  have hcomparison : Expr.Derives .comparison us (.var x (.ofTokens us)) := .inner rfl hsum
  have hconjunction : Expr.Derives .conjunction us (.var x (.ofTokens us)) := .inner rfl hcomparison
  rcases tier with _ | _ | _ | _ | _ | _
  · exact ⟨us, _, hunary⟩
  · exact ⟨us, _, .inner rfl hconjunction⟩
  · exact ⟨us, _, hconjunction⟩
  · exact ⟨us, _, hcomparison⟩
  · exact ⟨us, _, hsum⟩
  · exact ⟨us, _, hproduct⟩

theorem Expr.ne_nil {l : Level} : ∀ us ∈ words (Expr.Derives l), us ≠ [] := by
  rintro us ⟨e, h⟩
  exact h.begins.ne_nil

/-- The functions that read expressions with so much fuel are steady. -/
structure ExprSteady (n : Nat) : Prop where
  operation : ∀ tier, Predicts (operation n tier) (operation · tier) ((n + tierDepth tier) / 16)
    (words (Expr.Derives (levelOf tier)))
  tail : ∀ tier start left ⦃κ : Type⦄ (c : Cursor) (cur : κ → Cursor) (g : κ → Nat) (places : κ → Position)
    (lefts : κ → Expr), Steady c (operationTail n tier start left c) cur
      (fun r => operationTail (g r) tier (places r) (lefts r) (cur r)) (n / 16) tier.tail
  unary : Predicts (unary n) unary ((n + 6) / 16) (words (Expr.Derives .unary))
  steps : ∀ start e ⦃κ : Type⦄ (c : Cursor) (cur : κ → Cursor) (g : κ → Nat) (places : κ → Position) (es : κ → Expr),
    Steady c (steps n start e c) cur (fun r => steps (g r) (places r) (es r) (cur r)) (n / 16) stepWords∗
  atom : Predicts (atom n) atom ((n + 7) / 16) (words (Expr.Derives .atom))
  named : ∀ start x ⦃κ : Type⦄ (c : Cursor) (cur : κ → Cursor) (g : κ → Nat) (places : κ → Position) (xs : κ → String),
    Steady c (named n start x c) cur (fun r => named (g r) (places r) (xs r) (cur r)) (n / 16) namedWords
  arguments : Predicts (arguments n) arguments ((n - 1) / 16) argumentWords
  fieldInit : Predicts (fieldInit n) fieldInit (n / 16) (words FieldInit.Derives)

namespace ExprSteady

variable {n : Nat} (ih : ExprSteady n)

include ih

theorem operation_succ (tier : Option Tier) : Predicts (Surface.operation (n + 1) tier) (Surface.operation · tier)
    ((n + 1 + tierDepth tier) / 16) (words (Expr.Derives (levelOf tier))) := by
  refine .of_succ (fun _ => by simp only [Surface.operation]) fun κ c cur m => ?_
  cases tier with
  | none =>
    simp only [Surface.operation]
    exact (ih.unary c cur m).fewer (by simp only [tierDepth]; omega)
  | some tier =>
    have hdepth := tier.tierDepth_tighter
    have hle := Tier.tierDepth_le tier.tighter
    simp only [Surface.operation]
    have hoperand := (ih.operation tier.tighter c cur m).fewer (k := (n + 1 + tierDepth (some tier)) / 16) (by omega)
    refine .wider Tier.rules (.bindPos hoperand Expr.ne_nil fun left d => ?_)
    exact (ih.tail tier _ _ _ _ _ _ _).fewer (by omega)

theorem tail_succ (tier : Tier) (start : Position) (left : Expr) (c : Cursor) (cur : κ → Cursor) (g : κ → Nat)
    (places : κ → Position) (lefts : κ → Expr) : Steady c (operationTail (n + 1) tier start left c) cur
      (fun r => operationTail (g r) tier (places r) (lefts r) (cur r)) ((n + 1) / 16) tier.tail := by
  refine .of_succ g (F := fun r n => operationTail n tier (places r) (lefts r) (cur r))
    (fun _ => by simp only [operationTail]) fun m => ?_
  simp only [operationTail]
  refine .choose (fun _ _ => Tier.operator?_congr) (D := tier.operator?) (fun r x h => by rw [h]) ?_
  cases hop : tier.operator? c with
  | none => exact .wider Tier.one_le_tail .done
  | some op =>
    obtain ⟨text, ts, hbetween, hfixed, hreads⟩ := Tier.between_of_operator? hop
    have hdepth := tier.tierDepth_tighter
    cases hfixed with
    | mk ht =>
      refine .wider Tier.tail_rules (.advance hreads.rest ⟨text, op, hbetween, .mk ht⟩ ?_)
      dsimp only
      refine .bind ((ih.operation tier.tighter _ _ m).fewer (by omega)) fun right d => ?_
      cases hchains : tier.chains with
      | true => exact (ih.tail tier _ _ _ _ _ _ _).fewer (by omega)
      | false => exact .done

theorem unary_succ : Predicts (Surface.unary (n + 1)) Surface.unary ((n + 1 + 6) / 16)
    (words (Expr.Derives .unary)) := by
  refine .of_succ (fun _ => by simp only [Surface.unary]) fun κ c cur m => ?_
  simp only [Surface.unary]
  have hinner (c : Cursor) (cur : κ → Cursor) : Steady c (Surface.unary n c) cur (fun r => Surface.unary (m r) (cur r))
      ((n + 1 + 6) / 16 - 1) (words (Expr.Derives .unary)) := (ih.unary c cur m).fewer (by omega)
  refine .wider unary_rules (.ite (fun h => .next h ?_) fun _ => .ite (fun h => .next h ?_) fun _ =>
    .ite (fun h => .next h ?_) fun _ => .ite (fun h => .next h ?_) fun _ => ?_)
  · exact .map (hinner _ _)
  · exact .map (hinner _ _)
  · exact .map (hinner _ _)
  · refine .optional (fun b h => by rw [h]) (fun b r h => by rw [h]) fun b => ?_
    exact .map (hinner _ _)
  · refine .bindPos ((ih.atom c cur m).fewer (by omega)) Expr.ne_nil fun e d => ?_
    exact (ih.steps _ _ _ _ _ _ _).fewer (by omega)

theorem steps_succ (start : Position) (e : Expr) (c : Cursor) (cur : κ → Cursor) (g : κ → Nat) (places : κ → Position)
    (es : κ → Expr) : Steady c (Surface.steps (n + 1) start e c) cur
      (fun r => Surface.steps (g r) (places r) (es r) (cur r)) ((n + 1) / 16) stepWords∗ := by
  refine .of_succ g (F := fun r n => Surface.steps n (places r) (es r) (cur r))
    (fun _ => by simp only [Surface.steps]) fun m => ?_
  simp only [Surface.steps]
  refine .wider stepWords_rules (.ite (fun h => .next h ?_) fun _ => .ite (fun h => .next h ?_) fun _ => .done)
  · refine .bind (.word .name) fun x d => ?_
    exact (ih.steps _ _ _ _ _ _ _).fewer (by omega)
  · refine .bind ((ih.operation _ _ _ m).fewer (by simp only [tierDepth]; omega)) fun i d => ?_
    refine .expect ?_
    exact (ih.steps _ _ _ _ _ _ _).fewer (by omega)

theorem named_succ (start : Position) (x : String) (c : Cursor) (cur : κ → Cursor) (g : κ → Nat)
    (places : κ → Position) (xs : κ → String) : Steady c (Surface.named (n + 1) start x c) cur
      (fun r => Surface.named (g r) (places r) (xs r) (cur r)) ((n + 1) / 16) namedWords := by
  refine .of_succ g (F := fun r n => Surface.named n (places r) (xs r) (cur r))
    (fun _ => by simp only [Surface.named]) fun m => ?_
  simp only [Surface.named]
  refine .ite (fun h => .next h ?_) fun _ => .ite (fun h => .next h ?_) fun _ => .done
  · exact .map ((ih.arguments _ _ _).fewer (by omega))
  · refine .bind (.word .name) fun v d => ?_
    refine .ite (fun h => .next h ?_) fun _ => .done
    exact .map ((ih.arguments _ _ _).fewer (by omega))

theorem arguments_succ : Predicts (Surface.arguments (n + 1)) Surface.arguments ((n + 1 - 1) / 16) argumentWords := by
  refine .of_succ (fun _ => by simp only [Surface.arguments]) fun κ c cur m => ?_
  simp only [Surface.arguments]
  have hlist := closedList_steady (Expr.inhabited (some .disjunction)) (ih.operation (some .disjunction))
    n ")" c cur m m
  exact hlist.fewer (by simp only [tierDepth]; omega)

theorem fieldInit_succ : Predicts (Surface.fieldInit (n + 1)) Surface.fieldInit ((n + 1) / 16)
    (words FieldInit.Derives) := by
  refine .of_succ (fun _ => by simp only [Surface.fieldInit]) fun κ c cur m => ?_
  simp only [Surface.fieldInit]
  refine .wider FieldInit.rules (.bind (.word .name) fun x d => ?_)
  refine .expect ?_
  exact .map ((ih.operation _ _ _ _).fewer (by simp only [tierDepth]; omega))

theorem atom_succ : Predicts (Surface.atom (n + 1)) Surface.atom ((n + 1 + 7) / 16) (words (Expr.Derives .atom)) := by
  refine .of_succ (fun _ => by simp only [Surface.atom]) fun κ c cur m => ?_
  simp only [Surface.atom]
  refine .wider atom_rules (.ite (fun h => .last h) fun _ => .ite (fun h => .last h) fun _ =>
    .ite (fun h => .next h ?_) fun _ => .ite (fun h => .next h ?_) fun _ => ?_)
  · refine .ite (fun h => .last h) fun _ => ?_
    refine .bind ((ih.operation _ _ _ m).fewer (by simp only [tierDepth]; omega)) fun e d => ?_
    exact .close
  · refine .bind (.word .name) fun x d => ?_
    refine .bind regionArg_steady fun r d => ?_
    refine .expect ?_
    exact .map ((commaListUntil_steady "\x7d" ih.fieldInit n _ _ _ _).fewer (by omega))
  · have hinhabited : ∃ us, us ∈ words (Spelling .int) + words (Spelling .name) * namedWords :=
      ⟨_, .inl ⟨_, .mk (t := ⟨.int, "0", {}, {}⟩) rfl⟩⟩
    rcases hrest : c.rest with _ | ⟨⟨terminal, text, first, stop⟩, rest⟩
    · refine .halt hinhabited fun _ r x hr hout => ?_
      rw [hrest, List.head?_nil, List.head?_eq_none_iff] at hr
      rw [hr] at hout
      cases hout
    · have hsame (r : κ) (hr : (cur r).rest.head? = c.rest.head?) :
          ∃ ts, (cur r).rest = ⟨terminal, text, first, stop⟩ :: ts := by
        rw [hrest, List.head?_cons] at hr
        exact List.head?_eq_some_iff.mp hr
      cases terminal with
      | int =>
        exact .of_runs (.wider le_self_add (.token hrest ⟨_, .mk rfl⟩)) fun r x hr hout => by
          obtain ⟨ts, hts⟩ := hsame r hr
          rw [hts] at hout
          exact hout
      | name =>
        have hnamed := (ih.named c.here text c.next (fun r => (cur r).next) m (fun r => (cur r).here)
          fun _ => text).fewer (k := (n + 1 + 7) / 16 - 1) (by omega)
        exact .of_runs (.wider le_add_self (.advance hrest ⟨_, .mk rfl⟩ hnamed)) fun r x hr hout => by
          obtain ⟨ts, hts⟩ := hsame r hr
          rw [hts] at hout
          exact hout
      | region | fixed =>
        refine .halt hinhabited fun _ r x hr hout => ?_
        obtain ⟨ts, hts⟩ := hsame r hr
        rw [hts] at hout
        cases hout

end ExprSteady

theorem exprSteady (n : Nat) : ExprSteady n := by
  induction n with
  | zero =>
    have hfield : ∃ us, us ∈ words FieldInit.Derives := by
      obtain ⟨ns, hn⟩ := name_inhabited
      obtain ⟨us, h⟩ := Expr.inhabited (some .disjunction)
      exact ⟨_, FieldInit.rules (append_mem_mul hn (append_mem_mul (lit_inhabited ":") h))⟩
    have hdepth (tier : Option Tier) : (0 + tierDepth tier) / 16 ≤ 0 := by
      have hle := Tier.tierDepth_le tier
      omega
    exact {
      operation := fun tier _ _ _ _ => (Steady.empty (Expr.inhabited tier)).fewer (hdepth tier)
      tail := fun tier _ _ _ _ _ _ _ _ => .empty ⟨[], Tier.one_le_tail nil_mem_one⟩
      unary := fun _ _ _ _ => .empty (Expr.inhabited none)
      steps := fun _ _ _ _ _ _ _ _ => .empty ⟨[], nil_mem_kstar _⟩
      atom := fun _ _ _ _ => .empty ⟨_, atom_rules (.inl (lit_inhabited "true"))⟩
      named := fun _ _ _ _ _ _ _ _ => .empty ⟨[], .inr (.inr nil_mem_one)⟩
      arguments := fun _ _ _ _ => .empty ⟨_, Commas.closed_rules (.inl (lit_inhabited ")"))⟩
      fieldInit := fun _ _ _ _ => .empty hfield }
  | succ n ih =>
    exact ⟨ih.operation_succ, fun tier start left _ => ih.tail_succ tier start left, ih.unary_succ,
      fun start e _ => ih.steps_succ start e, ih.atom_succ, fun start x _ => ih.named_succ start x, ih.arguments_succ,
      ih.fieldInit_succ⟩

theorem expr_steady (n : Nat) : Predicts (expr n) expr (n / 16) (words (Expr.Derives .disjunction)) :=
  (exprSteady n).operation (some .disjunction)

theorem SubPattern.rules : lit "_" + words (Flag "ref") * (words (Flag "mut") * words (Spelling .name)) ≤
    words SubPattern.Derives := le_of_mem fun ts => by
  simp only [mem_mul, mem_add, mem_words, mem_lit]
  rintro (h | ⟨rs, ⟨r, hr⟩, _, ⟨ms, ⟨m, hm⟩, ns, ⟨x, hn⟩, rfl⟩, rfl⟩)
  · exact ⟨_, .skip h⟩
  · rw [← List.append_assoc]
    exact ⟨_, .bind hr hm hn⟩

theorem subPattern_steady (k : Nat) : Predicts subPattern (fun _ : Unit => subPattern) k
    (words SubPattern.Derives) := by
  intro κ c cur _
  simp only [subPattern]
  refine .wider SubPattern.rules (.ite (fun h => .last h) fun _ => ?_)
  refine .optional (fun b h => by rw [h]) (fun b r h => by rw [h]) fun b => ?_
  refine .optional (fun b h => by rw [h]) (fun b r h => by rw [h]) fun b => ?_
  exact .map (.word .name)

theorem subPatterns_steady (n : Nat) : Predicts (subPatterns n) subPatterns n
    (words (OrEmpty (Enclosed "(" ")" (Commas SubPattern.Derives)))) := by
  intro κ c cur g
  simp only [subPatterns]
  have hP : ∃ us, us ∈ words SubPattern.Derives := ⟨_, SubPattern.rules (.inl (lit_inhabited "_"))⟩
  exact .fewer (enclosedList_steady hP (subPattern_steady n) n "(" ")" c cur (fun _ => ()) g) (by omega)

theorem Pattern.rules : lit "_" + words (Spelling .name) *
    (lit "::" * (words (Spelling .name) * words (OrEmpty (Enclosed "(" ")" (Commas SubPattern.Derives)))) +
      words (OrEmpty (Enclosed "(" ")" (Commas SubPattern.Derives)))) ≤ words Pattern.Derives := le_of_mem fun ts => by
  simp only [mem_mul, mem_add, mem_words, mem_lit]
  rintro (h | ⟨ns, ⟨x, hn⟩, _, ⟨cs, hc, _, ⟨vs, ⟨v, hv⟩, fs, ⟨fields, hf⟩, rfl⟩, rfl⟩ | ⟨fields, hf⟩, rfl⟩)
  · exact ⟨_, .wildcard h⟩
  · have hrule := Pattern.Derives.qualified hn (.mk hc hv) hf
    simp only [List.append_assoc] at hrule
    exact ⟨_, hrule⟩
  · exact ⟨_, .variant hn hf⟩

theorem pattern_steady (n : Nat) : Predicts (pattern n) pattern n (words Pattern.Derives) := by
  intro κ c cur g
  simp only [pattern]
  refine .wider Pattern.rules (.ite (fun h => .last h) fun _ => ?_)
  refine .bind (.word .name) fun x d => ?_
  refine .ite (fun h => .next h ?_) fun _ => ?_
  · refine .bind (.word .name) fun v d => ?_
    exact .map ((subPatterns_steady n _ _ _).fewer (Nat.sub_le n 1))
  · exact .map (subPatterns_steady n _ _ _)

theorem typeAfter_steady (text : String) (n : Nat) : Predicts (typeAfter text n) (typeAfter text) n
    (words (Maybe (After text Ty.Derives))) := by
  intro κ c cur g
  simp only [typeAfter]
  refine .wider Maybe.rules (.ite (fun h => .next h ?_) fun _ => .done)
  exact .map ((type_steady n _ _ _).fewer (Nat.sub_le n 1))

/-- A declaration after its first word. -/
def declarationWords : Language Token :=
  words (Flag "mut") * (words (Spelling .name) * (words (Maybe (After ":" Ty.Derives)) *
    (lit "=" * (words (Expr.Derives .disjunction) * lit ";") + lit ";")))

theorem declaration_steady (n : Nat) (start : Position) (c : Cursor) (cur : κ → Cursor) (g : κ → Nat)
    (places : κ → Position) : Steady c (declaration n start c) cur (fun r => declaration (g r) (places r) (cur r))
      (n / 16) declarationWords := by
  simp only [declaration]
  refine .optional (fun b h => by rw [h]) (fun b r h => by rw [h]) fun b => ?_
  refine .bind (.word .name) fun x d => ?_
  refine .bind ((typeAfter_steady ":" n _ _ _).fewer (by omega)) fun ty d => ?_
  refine .ite (fun h => .next h ?_) fun _ => .close
  refine .bind ((expr_steady n _ _ _).fewer (by omega)) fun e d => ?_
  exact .close

/-- A return after its first word. -/
def returningWords : Language Token := lit ";" + words (Expr.Derives .disjunction) * lit ";"

theorem returning_steady (n : Nat) (start : Position) (c : Cursor) (cur : κ → Cursor) (g : κ → Nat)
    (places : κ → Position) : Steady c (returning n start c) cur (fun r => returning (g r) (places r) (cur r)) (n / 16)
      returningWords := by
  simp only [returning]
  refine .ite (fun h => .last h) fun _ => ?_
  refine .bind (expr_steady n _ _ _) fun e d => ?_
  exact .close

/-- A statement that starts with an expression. -/
def assignmentWords : Language Token :=
  words (Expr.Derives .disjunction) * (lit "=" * (words (Expr.Derives .disjunction) * lit ";") + lit ";")

theorem assignment_steady (n : Nat) : Predicts (assignment n) assignment (n / 16) assignmentWords := by
  intro κ c cur g
  simp only [assignment]
  refine .bind (expr_steady n _ _ _) fun e d => ?_
  refine .ite (fun h => .next h ?_) fun _ => .close
  refine .bind ((expr_steady n _ _ _).fewer (by omega)) fun e d => ?_
  exact .close

instance : Nonempty Stmt := ⟨.breakLoop default⟩

instance : Nonempty Block := ⟨.mk [] default⟩

instance : Nonempty Branch := ⟨.mk (.unit default) (.mk [] default) .nothing default⟩

instance : Nonempty Alternative := ⟨.nothing⟩

instance : Nonempty Arm := ⟨.mk default (.mk [] default) default⟩

theorem Stmt.rules : lit "let" * declarationWords + (words Branch.Derives + (lit "loop" * words Block.Derives +
    (lit "while" * (words (Expr.Derives .disjunction) * words Block.Derives) + (lit "break" * lit ";" +
    (lit "continue" * lit ";" + (lit "return" * returningWords +
    (lit "match" * (words (Expr.Derives .disjunction) * (lit "\x7b" * (words (Many Arm.Derives) * lit "\x7d"))) +
    (words Block.Derives + assignmentWords)))))))) ≤ words Stmt.Derives := le_of_mem fun ts => by
  simp only [declarationWords, returningWords, assignmentWords, mem_mul, mem_add, mem_words, mem_lit]
  rintro (⟨ls, hl, _, ⟨ms, ⟨m, hm⟩, _, ⟨ns, ⟨x, hn⟩, _, ⟨ts, ⟨ty, ht⟩, _,
      ⟨as, ha, _, ⟨es, ⟨e, he⟩, ss, hs, rfl⟩, rfl⟩ | hs, rfl⟩, rfl⟩, rfl⟩, rfl⟩ |
    ⟨b, h⟩ | ⟨ls, hl, bs, ⟨b, hb⟩, rfl⟩ | ⟨ws, hw, _, ⟨cs, ⟨c, hc⟩, bs, ⟨b, hb⟩, rfl⟩, rfl⟩ | ⟨bs, hb, ss, hs, rfl⟩ |
    ⟨cs, hc, ss, hs, rfl⟩ | ⟨rs, hr, _, hs | ⟨es, ⟨e, he⟩, ss, hs, rfl⟩, rfl⟩ |
    ⟨ms, hm, _, ⟨es, ⟨e, he⟩, _, ⟨ls, hl, _, ⟨as, ⟨arms, ha⟩, rs, hr, rfl⟩, rfl⟩, rfl⟩, rfl⟩ | ⟨b, h⟩ |
    ⟨as, ⟨a, ha⟩, _, ⟨qs, hq, _, ⟨bs, ⟨b, hb⟩, ss, hs, rfl⟩, rfl⟩ | hs, rfl⟩)
  · have hrule := Stmt.Derives.declare hl hm hn ht (.some (.mk ha he)) hs
    simp only [List.append_assoc] at hrule
    exact ⟨_, hrule⟩
  · have hrule := Stmt.Derives.declare hl hm hn ht .none hs
    simp only [List.append_assoc, List.nil_append] at hrule
    exact ⟨_, hrule⟩
  · exact ⟨_, .branch h⟩
  · exact ⟨_, .loop (.mk hl hb)⟩
  · rw [← List.append_assoc]
    exact ⟨_, .whileLoop (.mk hw hc) hb⟩
  · exact ⟨_, .breakLoop hb hs⟩
  · exact ⟨_, .continueLoop hc hs⟩
  · have hrule := Stmt.Derives.ret hr .none hs
    rw [List.append_nil] at hrule
    exact ⟨_, hrule⟩
  · rw [← List.append_assoc]
    exact ⟨_, .ret hr (.some he) hs⟩
  · have hrule := Stmt.Derives.select (.mk hm he) (.mk hl ha hr)
    simp only [List.append_assoc] at hrule
    exact ⟨_, hrule⟩
  · exact ⟨_, .block h⟩
  · have hrule := Stmt.Derives.assign ha (.mk hq hb) hs
    simp only [List.append_assoc] at hrule
    exact ⟨_, hrule⟩
  · exact ⟨_, .eval ha hs⟩

theorem Block.rules : lit "\x7b" * (words (Many Stmt.Derives) * lit "\x7d") ≤ words Block.Derives :=
  le_of_mem fun ts => by
  simp only [mem_mul, mem_words, mem_lit]
  rintro ⟨ls, hl, _, ⟨us, ⟨ss, h⟩, rs, hr, rfl⟩, rfl⟩
  rw [← List.append_assoc]
  exact ⟨_, .mk (.mk hl h hr)⟩

theorem Branch.rules : lit "if" * (words (Expr.Derives .disjunction) *
    (words Block.Derives * words Alternative.Derives)) ≤ words Branch.Derives := le_of_mem fun ts => by
  simp only [mem_mul, mem_words, mem_lit]
  rintro ⟨is, hi, _, ⟨cs, ⟨c, hc⟩, _, ⟨ys, ⟨y, hy⟩, ns, ⟨n, hn⟩, rfl⟩, rfl⟩, rfl⟩
  have hrule := Branch.Derives.mk (.mk hi hc) hy hn
  simp only [List.append_assoc] at hrule
  exact ⟨_, hrule⟩

theorem Alternative.rules :
    lit "else" * (words Branch.Derives + words Block.Derives) + 1 ≤ words Alternative.Derives :=
  le_of_mem fun ts => by
  simp only [mem_mul, mem_add, mem_one, mem_words, mem_lit]
  rintro (⟨es, he, us, ⟨b, h⟩ | ⟨b, h⟩, rfl⟩ | rfl)
  · exact ⟨_, .branch (.mk he h)⟩
  · exact ⟨_, .block (.mk he h)⟩
  · exact ⟨_, .nothing⟩

theorem Arm.rules :
    words Pattern.Derives * (lit "=>" * (words Block.Derives * words (Flag ","))) ≤ words Arm.Derives :=
  le_of_mem fun ts => by
  simp only [mem_mul, mem_words, mem_lit]
  rintro ⟨ps, ⟨p, hp⟩, _, ⟨as, ha, _, ⟨bs, ⟨b, hb⟩, cs, ⟨comma, hc⟩, rfl⟩, rfl⟩, rfl⟩
  have hrule := Arm.Derives.mk hp (.mk ha hb) hc
  simp only [List.append_assoc] at hrule
  exact ⟨_, hrule⟩

theorem Stmt.ne_nil : ∀ us ∈ words Stmt.Derives, us ≠ [] := by
  rintro us ⟨s, h⟩
  exact h.begins.ne_nil

theorem Arm.ne_nil : ∀ us ∈ words Arm.Derives, us ≠ [] := by
  rintro us ⟨a, h⟩
  exact h.begins.ne_nil

theorem Block.inhabited : ∃ us, us ∈ words Block.Derives :=
  ⟨_, Block.rules (append_mem_mul (lit_inhabited "\x7b") (append_mem_mul ⟨_, .nil⟩ (lit_inhabited "\x7d")))⟩

/-- The functions that read statements with so much fuel are steady. -/
structure StmtSteady (n : Nat) : Prop where
  stmt : Predicts (stmt n) stmt ((n - 1) / 16) (words Stmt.Derives)
  block : Predicts (block n) block (n / 16) (words Block.Derives)
  branch : Predicts (branch n) branch (n / 16) (words Branch.Derives)
  alternative : Predicts (alternative n) alternative (n / 16) (words Alternative.Derives)
  arm : Predicts (arm n) arm (n / 16) (words Arm.Derives)

namespace StmtSteady

variable {n : Nat} (ih : StmtSteady n)

include ih

theorem block_succ : Predicts (Surface.block (n + 1)) Surface.block ((n + 1) / 16) (words Block.Derives) := by
  refine .of_succ (fun _ => by simp only [Surface.block]) fun κ c cur m => ?_
  simp only [Surface.block]
  refine .wider Block.rules (.expect ?_)
  exact .fewer (itemsUntil_closed "\x7d" Stmt.ne_nil (stmtSound n).stmt ih.stmt n _ _ m m) (by omega)

theorem branch_succ : Predicts (Surface.branch (n + 1)) Surface.branch ((n + 1) / 16) (words Branch.Derives) := by
  refine .of_succ (fun _ => by simp only [Surface.branch]) fun κ c cur m => ?_
  simp only [Surface.branch]
  refine .wider Branch.rules (.expect ?_)
  refine .bind ((expr_steady n _ _ _).fewer (by omega)) fun cond d => ?_
  refine .bind ((ih.block _ _ _).fewer (by omega)) fun yes d => ?_
  exact .map ((ih.alternative _ _ _).fewer (by omega))

theorem alternative_succ : Predicts (Surface.alternative (n + 1)) Surface.alternative ((n + 1) / 16)
    (words Alternative.Derives) := by
  refine .of_succ (fun _ => by simp only [Surface.alternative]) fun κ c cur m => ?_
  simp only [Surface.alternative]
  refine .wider Alternative.rules (.ite (fun h => .next h ?_) fun _ => .done)
  refine .ite (fun _ => ?_) fun _ => ?_
  · exact .map ((ih.branch _ _ _).fewer (by omega))
  · exact .map ((ih.block _ _ _).fewer (by omega))

theorem arm_succ : Predicts (Surface.arm (n + 1)) Surface.arm ((n + 1) / 16) (words Arm.Derives) := by
  refine .of_succ (fun _ => by simp only [Surface.arm]) fun κ c cur m => ?_
  simp only [Surface.arm]
  refine .wider Arm.rules (.bind ((pattern_steady n _ _ _).fewer (by omega)) fun p d => ?_)
  refine .expect ?_
  refine .bind ((ih.block _ _ _).fewer (by omega)) fun body d => ?_
  dsimp only
  rw [← mul_one (words (Flag ","))]
  refine .optional (fun b h => by rw [h]) (fun b r h => by rw [h]) fun b => ?_
  exact .done

theorem stmt_succ : Predicts (Surface.stmt (n + 1)) Surface.stmt ((n + 1 - 1) / 16) (words Stmt.Derives) := by
  refine .of_succ (fun _ => by simp only [Surface.stmt]) fun κ c cur m => ?_
  simp only [Surface.stmt]
  refine .wider Stmt.rules (.ite (fun h => .next h ?_) fun _ => .ite (fun _ => ?_) fun _ =>
    .ite (fun h => .next h ?_) fun _ => .ite (fun h => .next h ?_) fun _ => .ite (fun h => .next h .close) fun _ =>
    .ite (fun h => .next h .close) fun _ => .ite (fun h => .next h ?_) fun _ => .ite (fun h => .next h ?_) fun _ =>
    .ite (fun _ => ?_) fun _ => ?_)
  · exact (declaration_steady n _ _ _ _ _).fewer (by omega)
  · exact .map (ih.branch _ _ _)
  · exact .map ((ih.block _ _ _).fewer (by omega))
  · refine .bind ((expr_steady n _ _ _).fewer (by omega)) fun cond d => ?_
    exact .map ((ih.block _ _ _).fewer (by omega))
  · exact (returning_steady n _ _ _ _ _).fewer (by omega)
  · refine .bind ((expr_steady n _ _ _).fewer (by omega)) fun scrutinee d => ?_
    refine .expect ?_
    exact .fewer (itemsUntil_closed "\x7d" Arm.ne_nil (stmtSound n).arm ih.arm n _ _ _ _) (by omega)
  · exact .map (ih.block _ _ _)
  · exact assignment_steady n _ _ _

end StmtSteady

theorem stmtSteady (n : Nat) : StmtSteady n := by
  induction n with
  | zero =>
    obtain ⟨es, e, he⟩ := Expr.inhabited (some .disjunction)
    obtain ⟨bs, b, hb⟩ := Block.inhabited
    exact {
      stmt := fun _ _ _ _ => .empty ⟨bs, _, .block hb⟩
      block := fun _ _ _ _ => .empty ⟨bs, b, hb⟩
      branch := fun _ _ _ _ => .empty ⟨_, _, .mk (.mk (lit_inhabited "if") he) hb .nothing⟩
      alternative := fun _ _ _ _ => .empty ⟨[], _, .nothing⟩
      arm := fun _ _ _ _ => .empty ⟨_, _, .mk (.wildcard (lit_inhabited "_")) (.mk (lit_inhabited "=>") hb) .absent⟩ }
  | succ n ih => exact ⟨ih.stmt_succ, ih.block_succ, ih.branch_succ, ih.alternative_succ, ih.arm_succ⟩

instance : Nonempty Item := ⟨.external default⟩

theorem bounds_steady (n : Nat) : Predicts (bounds n) bounds n (words (Many (After ":" (Spelling .region)))) := by
  have hrules : lit ":" * (words (Spelling .region) * words (Many (After ":" (Spelling .region)))) + 1 ≤
      words (Many (After ":" (Spelling .region))) := le_of_mem fun ts => by
    simp only [mem_mul, mem_add, mem_one, mem_words, mem_lit]
    rintro (⟨cs, hc, _, ⟨rs, ⟨r, hr⟩, us, ⟨bs, hrest⟩, rfl⟩, rfl⟩ | rfl)
    · rw [← List.append_assoc]
      exact ⟨_, .cons (.mk hc hr) hrest⟩
    · exact ⟨_, .nil⟩
  induction n with
  | zero => exact fun _ _ _ _ => .empty ⟨[], _, .nil⟩
  | succ n ih =>
    refine .of_succ (fun _ => rfl) fun κ c cur m => ?_
    simp only [bounds]
    refine .wider hrules (.ite (fun h => .next h ?_) fun _ => .done)
    refine .bind (.word .region) fun r d => ?_
    exact .map (ih _ _ _)

theorem RegionDecl.rules : words (Spelling .region) * words (Many (After ":" (Spelling .region))) ≤
    words RegionDecl.Derives := le_of_mem fun ts => by
  simp only [mem_mul, mem_words]
  rintro ⟨rs, ⟨r, hr⟩, bs, ⟨b, hb⟩, rfl⟩
  exact ⟨_, .mk hr hb⟩

theorem regionDecl_steady (n : Nat) : Predicts (regionDecl n) regionDecl n (words RegionDecl.Derives) := by
  intro κ c cur g
  simp only [regionDecl]
  refine .wider RegionDecl.rules (.bind (.word .region) fun r d => ?_)
  exact .map (bounds_steady n _ _ _)

theorem regionParams_steady (n : Nat) : Predicts (regionParams n) regionParams n (words RegionParams) := by
  have hP : ∃ us, us ∈ words RegionDecl.Derives := ⟨_, _, .mk (.mk (t := ⟨.region, "'a", {}, {}⟩) rfl) .nil⟩
  intro κ c cur g
  simp only [regionParams]
  exact .fewer (enclosedList_steady hP (regionDecl_steady n) n "<" ">" c cur g g) (by omega)

theorem TypedName.rules : words (Spelling .name) * (lit ":" * words Ty.Derives) ≤ words TypedName.Derives :=
  le_of_mem fun ts => by
  simp only [mem_mul, mem_words, mem_lit]
  rintro ⟨ns, ⟨x, hn⟩, _, ⟨cs, hc, us, ⟨t, h⟩, rfl⟩, rfl⟩
  exact ⟨_, .mk hn (.mk hc h)⟩

theorem typedName_steady (n : Nat) : Predicts (typedName n) typedName n (words TypedName.Derives) := by
  intro κ c cur g
  simp only [typedName]
  refine .wider TypedName.rules (.bind (.word .name) fun x d => ?_)
  refine .expect ?_
  exact .map ((type_steady n _ _ _).fewer (by omega))

theorem VariantDecl.rules : words (Spelling .name) * words (OrEmpty (Enclosed "(" ")" (Commas Ty.Derives))) ≤
    words VariantDecl.Derives := le_of_mem fun ts => by
  simp only [mem_mul, mem_words]
  rintro ⟨ns, ⟨x, hn⟩, ps, ⟨p, hp⟩, rfl⟩
  exact ⟨_, .mk hn hp⟩

theorem variantDecl_steady (n : Nat) : Predicts (variantDecl n) variantDecl n (words VariantDecl.Derives) := by
  intro κ c cur g
  simp only [variantDecl]
  refine .wider VariantDecl.rules (.bind (.word .name) fun x d => ?_)
  exact .map (.fewer (enclosedList_steady Ty.inhabited (type_steady n) n "(" ")" _ _ _ _) (by omega))

theorem parameters_steady (n : Nat) : Predicts (parameters n) parameters n
    (words (OrEmpty (Commas TypedName.Derives)) * lit ")") := by
  have hP : ∃ us, us ∈ words TypedName.Derives := by
    obtain ⟨ns, x, hn⟩ := name_inhabited
    obtain ⟨ts, t, ht⟩ := Ty.inhabited
    exact ⟨_, _, .mk hn (.mk (lit_inhabited ":") ht)⟩
  intro κ c cur g
  simp only [parameters]
  exact .fewer (closedList_steady hP (typedName_steady n) n ")" c cur g g) (by omega)

theorem Header.rules : words (Spelling .name) * (words RegionParams * (lit "(" *
    (words (OrEmpty (Commas TypedName.Derives)) * lit ")" * words (Maybe (After "->" Ty.Derives))))) ≤
      words Header.Derives := le_of_mem fun ts => by
  simp only [mem_mul, mem_words, mem_lit]
  rintro ⟨ns, ⟨x, hn⟩, _, ⟨rs, ⟨r, hr⟩, _, ⟨ls, hl, _, ⟨_, ⟨ps, ⟨p, hp⟩, es, he, rfl⟩, ts, ⟨t, ht⟩, rfl⟩, rfl⟩,
    rfl⟩, rfl⟩
  have hrule := Header.Derives.mk hn hr (.mk hl hp he) ht
  simp only [List.append_assoc] at hrule ⊢
  exact ⟨_, hrule⟩

theorem header_steady (n : Nat) : Predicts (header n) header n (words Header.Derives) := by
  intro κ c cur g
  simp only [header]
  refine .wider Header.rules (.bind (.word .name) fun x d => ?_)
  refine .bind (regionParams_steady n _ _ _) fun regions d => ?_
  refine .expect ?_
  refine .bind ((parameters_steady n _ _ _).fewer (by omega)) fun params d => ?_
  exact .map ((typeAfter_steady "->" n _ _ _).fewer (by omega))

/-- A struct or an enum with a list of its parts in braces. -/
def layoutWords {α : Type} (word : String) (P : Phrase α) : Language Token :=
  lit word * (words (Spelling .name) * (words RegionParams *
    (lit "\x7b" * (words (OrEmpty (CommasEnd P)) * lit "\x7d"))))

theorem layoutWords_inhabited {word : String} {P : Phrase α} : ∃ us, us ∈ layoutWords word P := by
  obtain ⟨ns, hn⟩ := name_inhabited
  exact ⟨_, append_mem_mul (lit_inhabited word) (append_mem_mul hn (append_mem_mul ⟨_, .empty⟩
    (append_mem_mul (lit_inhabited "\x7b") (append_mem_mul ⟨_, .empty⟩ (lit_inhabited "\x7d")))))⟩

theorem exists_of_mem_layoutWords {word : String} {P : Phrase α} {ts : List Token} (h : ts ∈ layoutWords word P) :
    ∃ ns rs ps x regions parts, ts = ns ++ rs ++ ps ∧ After word (Spelling .name) ns x ∧ RegionParams rs regions ∧
      Enclosed "\x7b" "\x7d" (OrEmpty (CommasEnd P)) ps parts := by
  simp only [layoutWords, mem_mul, mem_words, mem_lit] at h
  obtain ⟨ws, hw, _, ⟨ns, ⟨x, hn⟩, _, ⟨rs, ⟨r, hr⟩, _, ⟨ls, hl, _, ⟨ps, ⟨parts, hp⟩, es, he, rfl⟩, rfl⟩, rfl⟩, rfl⟩,
    rfl⟩ := h
  exact ⟨_, _, _, x, r, parts, by simp only [List.append_assoc], .mk hw hn, hr, .mk hl hp he⟩

/-- A struct or an enum. -/
def layouts : Language Token := layoutWords "struct" TypedName.Derives + layoutWords "enum" VariantDecl.Derives

theorem layout_steady (n : Nat) (copy : Bool) (start : Position) (c : Cursor) (cur : κ → Cursor) (g : κ → Nat)
    (places : κ → Position) : Steady c (layout n copy start c) cur (fun r => layout (g r) copy (places r) (cur r)) n
      layouts := by
  have hrules : layoutWords "struct" TypedName.Derives +
      (layoutWords "enum" VariantDecl.Derives + layoutWords "enum" VariantDecl.Derives) ≤ layouts := by
    rw [add_idem, layouts]
  simp only [layout]
  refine .wider hrules (.ite (fun h => .next h ?_) fun _ => .ite (fun h => .next h ?_) fun _ => ?_)
  · refine .bind (.word .name) fun x d => ?_
    refine .bind ((regionParams_steady n _ _ _).fewer (by omega)) fun regions d => ?_
    refine .expect ?_
    exact .map ((commaListUntil_steady "\x7d" (typedName_steady n) n _ _ _ _).fewer (by omega))
  · refine .bind (.word .name) fun x d => ?_
    refine .bind ((regionParams_steady n _ _ _).fewer (by omega)) fun regions d => ?_
    refine .expect ?_
    exact .map ((commaListUntil_steady "\x7d" (variantDecl_steady n) n _ _ _ _).fewer (by omega))
  · refine .halt layoutWords_inhabited fun _ r x _ hout => ?_
    cases hout

theorem Item.layout_rules : words (Flag "copy") * layouts ≤ words Item.Derives := le_of_mem fun ts => by
  simp only [layouts, mem_mul, mem_add, mem_words]
  rintro ⟨cs, ⟨copy, hc⟩, _, hstruct | henum, rfl⟩
  · obtain ⟨ns, rs, fs, x, r, fields, rfl, hn, hr, hf⟩ := exists_of_mem_layoutWords hstruct
    simp only [← List.append_assoc]
    exact ⟨_, .struct hc hn hr hf⟩
  · obtain ⟨ns, rs, vs, x, r, variants, rfl, hn, hr, hv⟩ := exists_of_mem_layoutWords henum
    simp only [← List.append_assoc]
    exact ⟨_, .enum hc hn hr hv⟩

theorem Item.rules : lit "fn" * (words Header.Derives * words Block.Derives) +
    (lit "extern" * (lit "fn" * (words Header.Derives * lit ";")) + (lit "copy" * layouts + layouts)) ≤
      words Item.Derives := by
  have hcopy : lit "copy" ≤ words (Flag "copy") := le_of_mem fun _ h => ⟨true, .present h⟩
  have hplain : (1 : Language Token) ≤ words (Flag "copy") := le_of_mem fun ts h => by
    obtain rfl := mem_one _ |>.mp h
    exact ⟨false, .absent⟩
  refine add_le (le_of_mem fun ts => ?_) (add_le (le_of_mem fun ts => ?_) (add_le ?_ ?_))
  · simp only [mem_mul, mem_words, mem_lit]
    rintro ⟨fs, hf, _, ⟨hs, ⟨h, hh⟩, bs, ⟨b, hb⟩, rfl⟩, rfl⟩
    rw [← List.append_assoc]
    exact ⟨_, .function (.mk hf hh) hb⟩
  · simp only [mem_mul, mem_words, mem_lit]
    rintro ⟨es, he, _, ⟨fs, hf, _, ⟨hs, ⟨h, hh⟩, ss, hs', rfl⟩, rfl⟩, rfl⟩
    have hrule := Item.Derives.external he (.mk hf hh) hs'
    simp only [List.append_assoc] at hrule
    exact ⟨_, hrule⟩
  · exact (mul_le_mul_left hcopy layouts).trans layout_rules
  · rw [← one_mul layouts]
    exact (mul_le_mul_left hplain layouts).trans layout_rules

theorem item_steady (n : Nat) : Predicts (item n) item (n / 16) (words Item.Derives) := by
  intro κ c cur g
  simp only [item]
  refine .wider Item.rules (.ite (fun h => .next h ?_) fun _ => .ite (fun h => .next h ?_) fun _ =>
    .ite (fun h => .next h ?_) fun _ => ?_)
  · refine .bind ((header_steady n _ _ _).fewer (by omega)) fun h d => ?_
    exact .map (((stmtSteady n).block _ _ _).fewer (by omega))
  · refine .expect ?_
    refine .bind ((header_steady n _ _ _).fewer (by omega)) fun h d => ?_
    exact .close
  · exact (layout_steady n true _ _ _ _ _).fewer (by omega)
  · exact (layout_steady n false _ _ _ _ _).fewer (by omega)

end Ownership.Surface
