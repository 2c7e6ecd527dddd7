import Ownership.Proofs.Outcome
import Ownership.Proofs.Source.Grammar
import Ownership.Source.Parser

/-!
What the parser reads is derived by the grammar. Each function of the parser moves
a cursor over tokens; these tokens derive the tree that it returns.
-/
namespace Ownership.Surface

open Outcome

namespace Cursor

/-- Reading the tokens takes one cursor to the other. -/
structure Reads (c : Cursor) (ts : List Token) (c' : Cursor) : Prop where
  rest : c.rest = ts ++ c'.rest
  last : c'.last = ts.getLast?.elim c.last Token.stop

namespace Reads

variable {c c' c'' : Cursor} {ts us : List Token}

theorem refl (c : Cursor) : c.Reads [] c := ⟨rfl, rfl⟩

theorem trans (h : c.Reads ts c') (k : c'.Reads us c'') : c.Reads (ts ++ us) c'' := by
  refine ⟨by rw [h.rest, k.rest, List.append_assoc], ?_⟩
  rw [k.last, h.last, List.getLast?_append]
  cases us.getLast? <;> rfl

theorem single {t : Token} {rest : List Token} (h : c.rest = t :: rest) : c.Reads [t] c.next := by
  unfold next
  rw [h]
  exact ⟨h, rfl⟩

/-- A node has the range of the tokens it was read from. -/
theorem range (h : c.Reads ts c') (hts : ts ≠ []) : c'.since c.here = .ofTokens ts := by
  obtain ⟨t, us, rfl⟩ := List.exists_cons_of_ne_nil hts
  rw [since, here, h.rest, h.last, Range.ofTokens]
  simp [List.getLast?_cons]

end Reads

variable {c c' : Cursor} {text : String}

theorem sees_iff : c.sees text = true ↔ ∃ t rest, c.rest = t :: rest ∧ t.terminal = .fixed text := by
  unfold sees
  cases c.rest <;> simp

theorem reads_of_sees (h : c.sees text = true) : ∃ ts, Fixed text ts ∧ c.Reads ts c.next := by
  obtain ⟨t, rest, hrest, ht⟩ := sees_iff.mp h
  exact ⟨[t], .mk ht, .single hrest⟩

end Cursor

open Cursor (Reads reads_of_sees)

theorem Fixed.ne_nil {text : String} {ts : List Token} (h : Fixed text ts) : ts ≠ [] := by
  cases h
  exact List.cons_ne_nil _ _

theorem Spelling.ne_nil {terminal : Terminal} {ts : List Token} {x : String} (h : Spelling terminal ts x) :
    ts ≠ [] := by
  cases h
  exact List.cons_ne_nil _ _

theorem ne_nil_left {ts us : List Token} (h : ts ≠ []) : ts ++ us ≠ [] := List.append_ne_nil_of_left_ne_nil h us

/-- What is read derives what is returned. -/
def Sound {α : Type} (p : Parse α) (P : Phrase α) : Prop :=
  ∀ ⦃c x c'⦄, p c = .ok (x, c') → ∃ ts, c.Reads ts c' ∧ P ts x

section

variable {α : Type} {p : Parse α} {P : Phrase α} {c c' : Cursor} {text : String}

theorem expect_sound (h : expect text c = .ok c') : ∃ ts, Fixed text ts ∧ c.Reads ts c' := by
  unfold expect at h
  split at h
  · rename_i hsees
    obtain rfl := Except.ok.inj h
    exact reads_of_sees hsees
  · cases h

theorem word_sound (terminal : Terminal) : Sound (word terminal) (Spelling terminal) := by
  intro c x c' h
  unfold word at h
  split at h
  · rename_i t rest hrest
    split at h
    · rename_i ht
      obtain ⟨rfl, rfl⟩ := Prod.mk.inj (Except.ok.inj h)
      exact ⟨[t], .single hrest, .mk ht⟩
    · cases h
  · cases h

theorem optional_sound (text : String) (c : Cursor) : ∃ ts, c.Reads ts (c.optional text).2 ∧
    Flag text ts (c.optional text).1 := by
  unfold Cursor.optional
  split
  · rename_i hsees
    obtain ⟨ts, hts, hreads⟩ := reads_of_sees hsees
    exact ⟨ts, hreads, .present hts⟩
  · exact ⟨[], .refl c, .absent⟩

theorem optionalRegion_sound : Sound optionalRegion (Maybe (Spelling .region)) := by
  intro c x c' h
  unfold optionalRegion at h
  split at h
  · rename_i t rest hrest
    have h := Except.ok.inj h
    split at h
    · rename_i ht
      obtain ⟨rfl, rfl⟩ := Prod.mk.inj h
      exact ⟨[t], .single hrest, .some (.mk ht)⟩
    · obtain ⟨rfl, rfl⟩ := Prod.mk.inj h
      exact ⟨[], .refl c, .none⟩
  · obtain ⟨rfl, rfl⟩ := Prod.mk.inj (Except.ok.inj h)
    exact ⟨[], .refl c, .none⟩

theorem commaList_sound (hp : Sound p P) (n : Nat) : Sound (commaList p n) (Commas P) := by
  induction n with
  | zero => intro c x c' h; cases h
  | succ n ih =>
    intro c x c' h
    simp only [commaList, bind_eq_ok] at h
    obtain ⟨⟨x, c₁⟩, hx, h⟩ := h
    obtain ⟨ts, hts, hderives⟩ := hp hx
    split at h
    · rename_i hsees
      simp only [bind_eq_ok, pure_eq, Except.ok.injEq, Prod.mk.injEq] at h
      obtain ⟨⟨xs, c₂⟩, hxs, rfl, rfl⟩ := h
      obtain ⟨cs, hcs, hcomma⟩ := reads_of_sees hsees
      obtain ⟨us, hus, hrest⟩ := ih hxs
      exact ⟨_, (hts.trans hcomma).trans hus, .cons hderives hcs hrest⟩
    · obtain ⟨rfl, rfl⟩ := Prod.mk.inj (Except.ok.inj h)
      exact ⟨ts, hts, .one hderives⟩

theorem enclosedList_sound (hp : Sound p P) (left right : String) (n : Nat) :
    Sound (enclosedList left right p n) (OrEmpty (Enclosed left right (Commas P))) := by
  intro c xs c' h
  unfold enclosedList at h
  split at h
  · rename_i hsees
    simp only [bind_eq_ok, pure_eq, Except.ok.injEq, Prod.mk.injEq] at h
    obtain ⟨⟨xs, c₁⟩, hxs, c₂, hexpect, rfl, rfl⟩ := h
    obtain ⟨ls, hls, hleft⟩ := reads_of_sees hsees
    obtain ⟨ts, hts, hderives⟩ := commaList_sound hp n hxs
    obtain ⟨rs, hrs, hright⟩ := expect_sound hexpect
    exact ⟨_, (hleft.trans hts).trans hright, .given (.mk hls hderives hrs)⟩
  · obtain ⟨rfl, rfl⟩ := Prod.mk.inj (Except.ok.inj h)
    exact ⟨[], .refl c, .empty⟩

theorem closedList_sound (hp : Sound p P) (close : String) (n : Nat) {xs : List α}
    (h : closedList close p n c = .ok (xs, c')) :
    ∃ ts rs, c.Reads (ts ++ rs) c' ∧ OrEmpty (Commas P) ts xs ∧ Fixed close rs := by
  simp only [closedList] at h
  split at h
  · rename_i hsees
    obtain ⟨rfl, rfl⟩ := Prod.mk.inj (Except.ok.inj h)
    obtain ⟨rs, hrs, hright⟩ := reads_of_sees hsees
    exact ⟨[], rs, hright, .empty, hrs⟩
  · simp only [bind_eq_ok, pure_eq, Except.ok.injEq, Prod.mk.injEq] at h
    obtain ⟨⟨xs, c₁⟩, hxs, c₂, hexpect, rfl, rfl⟩ := h
    obtain ⟨ts, hts, hderives⟩ := commaList_sound hp n hxs
    obtain ⟨rs, hrs, hright⟩ := expect_sound hexpect
    exact ⟨ts, rs, hts.trans hright, .given hderives, hrs⟩

/-- Items up to a closing token, and that token. -/
theorem commaListUntil_sound (hp : Sound p P) (close : String) (n : Nat) {xs : List α}
    (h : commaListUntil close p n c = .ok (xs, c')) :
    ∃ ts rs, c.Reads (ts ++ rs) c' ∧ OrEmpty (CommasEnd P) ts xs ∧ Fixed close rs := by
  induction n generalizing c xs with
  | zero => cases h
  | succ n ih =>
    unfold commaListUntil at h
    split at h
    · rename_i hsees
      obtain ⟨rfl, rfl⟩ := Prod.mk.inj (Except.ok.inj h)
      obtain ⟨rs, hrs, hreads⟩ := reads_of_sees hsees
      exact ⟨[], rs, hreads, .empty, hrs⟩
    · simp only [bind_eq_ok] at h
      obtain ⟨⟨x, c₁⟩, hx, h⟩ := h
      obtain ⟨ts, hts, hderives⟩ := hp hx
      split at h
      · rename_i hsees
        simp only [bind_eq_ok, pure_eq, Except.ok.injEq, Prod.mk.injEq] at h
        obtain ⟨⟨xs, c₂⟩, hxs, rfl, rfl⟩ := h
        obtain ⟨cs, hcs, hcomma⟩ := reads_of_sees hsees
        obtain ⟨us, rs, hus, hrest, hrs⟩ := ih hxs
        have hall := (hts.trans hcomma).trans hus
        rw [← List.append_assoc] at hall
        cases hrest with
        | empty =>
          rw [List.append_nil] at hall
          exact ⟨_, rs, hall, .given (.mk (.one hderives) (.present hcs)), hrs⟩
        | given hrest =>
          cases hrest with
          | mk hrest hend =>
            rw [← List.append_assoc] at hall
            exact ⟨_, rs, hall, .given (.mk (.cons hderives hcs hrest) hend), hrs⟩
      · simp only [bind_eq_ok, pure_eq, Except.ok.injEq, Prod.mk.injEq] at h
        obtain ⟨c₂, hexpect, rfl, rfl⟩ := h
        obtain ⟨rs, hrs, hreads⟩ := expect_sound hexpect
        refine ⟨ts, rs, hts.trans hreads, .given ?_, hrs⟩
        have hend := CommasEnd.mk (.one hderives) .absent
        rwa [List.append_nil] at hend

/-- Items up to a closing token, which comes next. -/
theorem itemsUntil_sound (hp : Sound p P) (close : String) (n : Nat) {xs : List α}
    (h : itemsUntil close p n c = .ok (xs, c')) :
    (∃ ts, c.Reads ts c' ∧ Many P ts xs) ∧ c'.sees close = true := by
  induction n generalizing c xs with
  | zero => cases h
  | succ n ih =>
    unfold itemsUntil at h
    split at h
    · rename_i hsees
      obtain ⟨rfl, rfl⟩ := Prod.mk.inj (Except.ok.inj h)
      exact ⟨⟨[], .refl c, .nil⟩, hsees⟩
    · simp only [bind_eq_ok, pure_eq, Except.ok.injEq, Prod.mk.injEq] at h
      obtain ⟨⟨x, c₁⟩, hx, ⟨xs, c₂⟩, hxs, rfl, rfl⟩ := h
      obtain ⟨ts, hts, hderives⟩ := hp hx
      obtain ⟨⟨us, hus, hrest⟩, hclose⟩ := ih hxs
      exact ⟨⟨_, hts.trans hus, .cons hderives hrest⟩, hclose⟩

end

theorem regionArg_sound : Sound regionArg (Maybe (Enclosed "<" ">" (Spelling .region))) := by
  intro c x c' h
  unfold regionArg at h
  split at h
  · rename_i hsees
    simp only [bind_eq_ok, pure_eq, Except.ok.injEq, Prod.mk.injEq] at h
    obtain ⟨⟨r, c₁⟩, hr, c₂, hexpect, rfl, rfl⟩ := h
    obtain ⟨ls, hls, hleft⟩ := reads_of_sees hsees
    obtain ⟨ts, hts, hregion⟩ := word_sound .region hr
    obtain ⟨rs, hrs, hright⟩ := expect_sound hexpect
    exact ⟨_, (hleft.trans hts).trans hright, .some (.mk hls hregion hrs)⟩
  · obtain ⟨rfl, rfl⟩ := Prod.mk.inj (Except.ok.inj h)
    exact ⟨[], .refl c, .none⟩

theorem type_sound (n : Nat) : Sound (type n) Ty.Derives := by
  induction n with
  | zero => intro c x c' h; cases h
  | succ n ih =>
    intro c x c' h
    simp only [type] at h
    split at h
    · rename_i hsees
      simp only [bind_eq_ok, pure_eq, Except.ok.injEq, Prod.mk.injEq] at h
      obtain ⟨⟨r, c₁⟩, hr, ⟨ty, c₂⟩, hty, rfl, rfl⟩ := h
      obtain ⟨as, has, ha⟩ := reads_of_sees hsees
      obtain ⟨rs, hrs, hregion⟩ := optionalRegion_sound hr
      obtain ⟨ms, hms, hflag⟩ := optional_sound "mut" c₁
      obtain ⟨ts, hts, hderives⟩ := ih hty
      have hall := ((ha.trans hrs).trans hms).trans hts
      refine ⟨_, hall, ?_⟩
      rw [hall.range (ne_nil_left (ne_nil_left (ne_nil_left has.ne_nil)))]
      exact .ref has hregion hflag hderives
    split at h
    · rename_i hsees
      simp only [bind_eq_ok, pure_eq, Except.ok.injEq, Prod.mk.injEq] at h
      obtain ⟨⟨ty, c₁⟩, hty, c₂, hexpect, rfl, rfl⟩ := h
      obtain ⟨ls, hls, hleft⟩ := reads_of_sees hsees
      obtain ⟨ts, hts, hderives⟩ := ih hty
      obtain ⟨rs, hrs, hright⟩ := expect_sound hexpect
      have hall := (hleft.trans hts).trans hright
      refine ⟨_, hall, ?_⟩
      rw [hall.range (ne_nil_left (ne_nil_left hls.ne_nil))]
      exact .array (.mk hls hderives hrs)
    · simp only [bind_eq_ok, pure_eq, Except.ok.injEq, Prod.mk.injEq] at h
      obtain ⟨⟨x, c₁⟩, hx, ⟨r, c₂⟩, hr, rfl, rfl⟩ := h
      obtain ⟨ns, hns, hname⟩ := word_sound .name hx
      obtain ⟨rs, hrs, hregion⟩ := regionArg_sound hr
      have hall := hns.trans hrs
      refine ⟨_, hall, ?_⟩
      rw [hall.range (ne_nil_left hname.ne_nil)]
      exact .named hname hregion

namespace Tier

def level : Tier → Level
  | disjunction => .disjunction
  | conjunction => .conjunction
  | comparison => .comparison
  | sum => .sum
  | product => .product

end Tier

/-- The level of what is read for a tier, or for none. -/
def levelOf : Option Tier → Level
  | some tier => tier.level
  | none => .unary

namespace Tier

theorem inner_level (tier : Tier) : tier.level.inner = some (levelOf tier.tighter) := by cases tier <;> rfl

/-- The level of the left operand: only comparisons do not chain. -/
def leftLevel (tier : Tier) : Level := if tier.chains then tier.level else levelOf tier.tighter

theorem between_of_operator? {tier : Tier} {c : Cursor} {op : BinaryOp} (h : tier.operator? c = some op) :
    ∃ text ts, Between tier.level tier.leftLevel text (levelOf tier.tighter) op ∧ Fixed text ts ∧
      c.Reads ts c.next := by
  obtain ⟨⟨text, op⟩, hfind, rfl⟩ := Option.map_eq_some_iff.mp h
  have hsees : c.sees text = true := List.find?_some (p := fun o : String × BinaryOp => c.sees o.1) hfind
  obtain ⟨ts, hts, hreads⟩ := reads_of_sees hsees
  refine ⟨text, ts, ?_, hts, hreads⟩
  have hmem := List.mem_of_find?_eq_some hfind
  cases tier <;> simp only [operators, List.mem_cons, Prod.mk.injEq, List.not_mem_nil, or_false] at hmem
  case disjunction | conjunction =>
    obtain ⟨rfl, rfl⟩ := hmem
    constructor
  case sum | product =>
    rcases hmem with ⟨rfl, rfl⟩ | ⟨rfl, rfl⟩ <;> constructor
  case comparison =>
    rcases hmem with ⟨rfl, rfl⟩ | ⟨rfl, rfl⟩ | ⟨rfl, rfl⟩ | ⟨rfl, rfl⟩ | ⟨rfl, rfl⟩ | ⟨rfl, rfl⟩ <;> constructor

end Tier

/-- The first of the tokens is one of these. -/
def Begins (F : List Terminal) (ts : List Token) : Prop := ∃ t, ts.head? = some t ∧ t.terminal ∈ F

namespace Begins

variable {F : List Terminal} {ts us : List Token}

theorem ne_nil (h : Begins F ts) : ts ≠ [] := by
  rintro rfl
  obtain ⟨t, ht, -⟩ := h
  cases ht

theorem mono {G : List Terminal} (h : Begins F ts) (hsub : F ⊆ G) : Begins G ts := by
  obtain ⟨t, ht, hmem⟩ := h
  exact ⟨t, ht, hsub hmem⟩

theorem append (h : Begins F ts) (us : List Token) : Begins F (ts ++ us) := by
  obtain ⟨t, ht, hmem⟩ := h
  exact ⟨t, by rw [List.head?_append, ht, Option.some_or], hmem⟩

theorem of_fixed {text : String} (h : Fixed text ts) (hF : .fixed text ∈ F) : Begins F ts := by
  cases h with
  | mk ht => exact ⟨_, rfl, ht ▸ hF⟩

theorem of_spelling {terminal : Terminal} {x : String} (h : Spelling terminal ts x) (hF : terminal ∈ F) :
    Begins F ts := by
  cases h with
  | mk ht => exact ⟨_, rfl, ht ▸ hF⟩

theorem of_after {α : Type} {text : String} {P : Phrase α} {x : α} (h : After text P ts x)
    (hF : .fixed text ∈ F) : Begins F ts := by
  cases h with
  | mk ht _ => exact (of_fixed ht hF).append _

theorem of_enclosed {α : Type} {left right : String} {P : Phrase α} {x : α} (h : Enclosed left right P ts x)
    (hF : .fixed left ∈ F) : Begins F ts := by
  cases h with
  | mk hl _ _ => exact ((of_fixed hl hF).append _).append _

end Begins

/-- What an expression of the level can start with. -/
def Level.first : Level → List Terminal
  | path | atom => [.int, .name, .fixed "true", .fixed "false", .fixed "(", .fixed "new"]
  | _ => [.int, .name, .fixed "true", .fixed "false", .fixed "(", .fixed "new", .fixed "-", .fixed "!", .fixed "*",
      .fixed "&"]

theorem Level.first_inner {l m : Level} (h : l.inner = some m) : m.first ⊆ l.first := by
  cases l <;> cases h <;> decide

theorem Between.first {l m n : Level} {text : String} {op : BinaryOp} (h : Between l m text n op) :
    m.first ⊆ l.first := by
  cases h <;> decide

theorem Expr.Derives.begins : ∀ {l : Level} {ts : List Token} {e : Expr}, Expr.Derives l ts e → Begins l.first ts
  | _, _, _, .inner hl h => h.begins.mono (Level.first_inner hl)
  | _, _, _, .between hop h _ _ => ((h.begins.mono hop.first).append _).append _
  | _, _, _, .neg h _ | _, _, _, .not h _ | _, _, _, .deref h _ | _, _, _, .unit h _ =>
    (Begins.of_fixed h (by decide)).append _
  | _, _, _, .borrow h _ _ => ((Begins.of_fixed h (by decide)).append _).append _
  | _, _, _, .field h _ | _, _, _, .index h _ => h.begins.append _
  | _, _, _, .int h | _, _, _, .var h => .of_spelling h (by decide)
  | _, _, _, .true h | _, _, _, .false h => .of_fixed h (by decide)
  | _, _, _, .call h _ => (Begins.of_spelling h (by decide)).append _
  | _, _, _, .inject h _ _ => ((Begins.of_spelling h (by decide)).append _).append _
  | _, _, _, .construct h _ _ => ((Begins.of_after h (by decide)).append _).append _
  | _, _, _, .paren h => .of_enclosed h (by decide)

/-- All that is read of expressions with this much fuel is derived. -/
structure ExprSound (n : Nat) : Prop where
  operation : ∀ tier, Sound (operation n tier) (Expr.Derives (levelOf tier))
  tail : ∀ {tier : Tier} {as : List Token} {a e : Expr} {c₀ c c' : Cursor}, c₀.Reads as c →
    Expr.Derives tier.leftLevel as a → Expr.Derives tier.level as a →
    operationTail n tier c₀.here a c = .ok (e, c') → ∃ ts, c.Reads ts c' ∧ Expr.Derives tier.level (as ++ ts) e
  unary : Sound (unary n) (Expr.Derives .unary)
  steps : ∀ {as : List Token} {a e : Expr} {c₀ c c' : Cursor}, c₀.Reads as c → Expr.Derives .path as a →
    steps n c₀.here a c = .ok (e, c') → ∃ ts, c.Reads ts c' ∧ Expr.Derives .path (as ++ ts) e
  atom : Sound (atom n) (Expr.Derives .atom)
  named : ∀ {ns : List Token} {x : String} {e : Expr} {c₀ c c' : Cursor}, c₀.Reads ns c → Spelling .name ns x →
    named n c₀.here x c = .ok (e, c') → ∃ ts, c.Reads ts c' ∧ Expr.Derives .atom (ns ++ ts) e
  arguments : ∀ {args : List Expr} {c c' : Cursor}, arguments n c = .ok (args, c') →
    ∃ ts rs, c.Reads (ts ++ rs) c' ∧ OrEmpty (Commas (Expr.Derives .disjunction)) ts args ∧ Fixed ")" rs
  fieldInit : Sound (fieldInit n) FieldInit.Derives

namespace ExprSound

variable {n : Nat} (ih : ExprSound n)

include ih

theorem operation_succ (tier : Option Tier) :
    Sound (Surface.operation (n + 1) tier) (Expr.Derives (levelOf tier)) := by
  intro c x c' h
  cases tier with
  | none =>
    simp only [Surface.operation] at h
    exact ih.unary h
  | some tier =>
    simp only [Surface.operation, bind_eq_ok] at h
    obtain ⟨⟨a, c₁⟩, ha, h⟩ := h
    obtain ⟨as, has, hleft⟩ := ih.operation tier.tighter ha
    have hlevel := Expr.Derives.inner tier.inner_level hleft
    have hchain : Expr.Derives tier.leftLevel as a := by
      unfold Tier.leftLevel
      split
      · exact hlevel
      · exact hleft
    obtain ⟨ts, hts, hderives⟩ := ih.tail has hchain hlevel h
    exact ⟨_, has.trans hts, hderives⟩

theorem tail_succ {tier : Tier} {as : List Token} {a e : Expr} {c₀ c c' : Cursor} (has : c₀.Reads as c)
    (hleft : Expr.Derives tier.leftLevel as a) (hlevel : Expr.Derives tier.level as a)
    (h : operationTail (n + 1) tier c₀.here a c = .ok (e, c')) :
    ∃ ts, c.Reads ts c' ∧ Expr.Derives tier.level (as ++ ts) e := by
  simp only [operationTail] at h
  split at h
  · obtain ⟨rfl, rfl⟩ := Prod.mk.inj (Except.ok.inj h)
    exact ⟨[], .refl c, by rwa [List.append_nil]⟩
  · rename_i op hop
    obtain ⟨text, os, hbetween, hos, hop⟩ := Tier.between_of_operator? hop
    simp only [bind_eq_ok] at h
    obtain ⟨⟨b, c₁⟩, hb, h⟩ := h
    obtain ⟨bs, hbs, hright⟩ := ih.operation tier.tighter hb
    have hall := (has.trans hop).trans hbs
    rw [hall.range (hleft.begins.append os |>.append bs).ne_nil] at h
    have hwhole := Expr.Derives.between hbetween hleft hos hright
    split at h
    · rename_i hchains
      have hchain : Expr.Derives tier.leftLevel (as ++ os ++ bs) (.binary op a b (.ofTokens (as ++ os ++ bs))) := by
        rwa [Tier.leftLevel, if_pos hchains]
      obtain ⟨ts, hts, hderives⟩ := ih.tail hall hchain hwhole h
      refine ⟨os ++ bs ++ ts, (hop.trans hbs).trans hts, ?_⟩
      simpa using hderives
    · obtain ⟨rfl, rfl⟩ := Prod.mk.inj (Except.ok.inj h)
      refine ⟨os ++ bs, hop.trans hbs, ?_⟩
      simpa using hwhole

/-- An operator in front of an operand. -/
theorem signed {text : String} {e : Expr} {c c' : Cursor} (hsees : c.sees text = true)
    (h : Surface.unary n c.next = .ok (e, c')) : ∃ os ts, Fixed text os ∧ Expr.Derives .unary ts e ∧
      c.Reads (os ++ ts) c' ∧ c'.since c.here = .ofTokens (os ++ ts) := by
  obtain ⟨os, hos, hop⟩ := reads_of_sees hsees
  obtain ⟨ts, hts, hderives⟩ := ih.unary h
  have hall := hop.trans hts
  exact ⟨os, ts, hos, hderives, hall, hall.range (ne_nil_left hos.ne_nil)⟩

theorem unary_succ : Sound (Surface.unary (n + 1)) (Expr.Derives .unary) := by
  intro c x c' h
  simp only [Surface.unary] at h
  split at h
  · rename_i hsees
    simp only [bind_eq_ok, pure_eq, Except.ok.injEq, Prod.mk.injEq] at h
    obtain ⟨⟨e, c₁⟩, he, rfl, rfl⟩ := h
    obtain ⟨os, ts, hos, hderives, hall, hrange⟩ := ih.signed hsees he
    exact ⟨_, hall, hrange ▸ .neg hos hderives⟩
  split at h
  · rename_i hsees
    simp only [bind_eq_ok, pure_eq, Except.ok.injEq, Prod.mk.injEq] at h
    obtain ⟨⟨e, c₁⟩, he, rfl, rfl⟩ := h
    obtain ⟨os, ts, hos, hderives, hall, hrange⟩ := ih.signed hsees he
    exact ⟨_, hall, hrange ▸ .not hos hderives⟩
  split at h
  · rename_i hsees
    simp only [bind_eq_ok, pure_eq, Except.ok.injEq, Prod.mk.injEq] at h
    obtain ⟨⟨e, c₁⟩, he, rfl, rfl⟩ := h
    obtain ⟨os, ts, hos, hderives, hall, hrange⟩ := ih.signed hsees he
    exact ⟨_, hall, hrange ▸ .deref hos hderives⟩
  split at h
  · rename_i hsees
    simp only [bind_eq_ok, pure_eq, Except.ok.injEq, Prod.mk.injEq] at h
    obtain ⟨⟨e, c₁⟩, he, rfl, rfl⟩ := h
    obtain ⟨os, hos, hop⟩ := reads_of_sees hsees
    obtain ⟨ms, hms, hflag⟩ := optional_sound "mut" c.next
    obtain ⟨ts, hts, hderives⟩ := ih.unary he
    have hall := (hop.trans hms).trans hts
    exact ⟨_, hall, hall.range (ne_nil_left (ne_nil_left hos.ne_nil)) ▸ .borrow hos hflag hderives⟩
  · simp only [bind_eq_ok] at h
    obtain ⟨⟨a, c₁⟩, ha, h⟩ := h
    obtain ⟨as, has, hatom⟩ := ih.atom ha
    obtain ⟨ts, hts, hderives⟩ := ih.steps has (.inner rfl hatom) h
    exact ⟨_, has.trans hts, .inner rfl hderives⟩

theorem steps_succ {as : List Token} {a e : Expr} {c₀ c c' : Cursor} (has : c₀.Reads as c)
    (ha : Expr.Derives .path as a) (h : Surface.steps (n + 1) c₀.here a c = .ok (e, c')) :
    ∃ ts, c.Reads ts c' ∧ Expr.Derives .path (as ++ ts) e := by
  simp only [Surface.steps] at h
  split at h
  · rename_i hsees
    simp only [bind_eq_ok] at h
    obtain ⟨⟨x, c₁⟩, hx, h⟩ := h
    obtain ⟨ds, hds, hdot⟩ := reads_of_sees hsees
    obtain ⟨ns, hns, hname⟩ := word_sound .name hx
    have hall := has.trans (hdot.trans hns)
    rw [hall.range (ha.begins.append _).ne_nil] at h
    obtain ⟨ts, hts, hderives⟩ := ih.steps hall (.field ha (.mk hds hname)) h
    exact ⟨_, (hdot.trans hns).trans hts, by simpa using hderives⟩
  split at h
  · rename_i hsees
    simp only [bind_eq_ok] at h
    obtain ⟨⟨i, c₁⟩, hi, c₂, hexpect, h⟩ := h
    obtain ⟨ls, hls, hleft⟩ := reads_of_sees hsees
    obtain ⟨is, his, hindex⟩ := ih.operation (some .disjunction) hi
    obtain ⟨rs, hrs, hright⟩ := expect_sound hexpect
    have hstep := (hleft.trans his).trans hright
    have hall := has.trans hstep
    rw [hall.range (ha.begins.append _).ne_nil] at h
    obtain ⟨ts, hts, hderives⟩ := ih.steps hall (.index ha (.mk hls hindex hrs)) h
    exact ⟨_, hstep.trans hts, by simpa using hderives⟩
  · obtain ⟨rfl, rfl⟩ := Prod.mk.inj (Except.ok.inj h)
    exact ⟨[], .refl c, by rwa [List.append_nil]⟩

theorem arguments_succ {args : List Expr} {c c' : Cursor} (h : Surface.arguments (n + 1) c = .ok (args, c')) :
    ∃ ts rs, c.Reads (ts ++ rs) c' ∧ OrEmpty (Commas (Expr.Derives .disjunction)) ts args ∧ Fixed ")" rs := by
  rw [Surface.arguments] at h
  exact closedList_sound (ih.operation (some .disjunction)) ")" n h

/-- Arguments in parentheses, after the opening one. -/
theorem enclosed_arguments {ls : List Token} {args : List Expr} {c c₁ c' : Cursor} (hls : Fixed "(" ls)
    (hleft : c.Reads ls c₁) (h : Surface.arguments n c₁ = .ok (args, c')) :
    ∃ ts, c.Reads ts c' ∧ Enclosed "(" ")" (OrEmpty (Commas (Expr.Derives .disjunction))) ts args := by
  obtain ⟨ts, rs, hreads, hderives, hrs⟩ := ih.arguments h
  have hall := hleft.trans hreads
  rw [← List.append_assoc] at hall
  exact ⟨_, hall, .mk hls hderives hrs⟩

theorem named_succ {ns : List Token} {x : String} {e : Expr} {c₀ c c' : Cursor} (hns : c₀.Reads ns c)
    (hname : Spelling .name ns x) (h : Surface.named (n + 1) c₀.here x c = .ok (e, c')) :
    ∃ ts, c.Reads ts c' ∧ Expr.Derives .atom (ns ++ ts) e := by
  simp only [Surface.named] at h
  split at h
  · rename_i hsees
    simp only [bind_eq_ok, pure_eq, Except.ok.injEq, Prod.mk.injEq] at h
    obtain ⟨⟨args, c₁⟩, hargs, rfl, rfl⟩ := h
    obtain ⟨ls, hls, hleft⟩ := reads_of_sees hsees
    obtain ⟨as, has, henclosed⟩ := ih.enclosed_arguments hls hleft hargs
    exact ⟨as, has, (hns.trans has).range (ne_nil_left hname.ne_nil) ▸ .call hname henclosed⟩
  split at h
  · rename_i hsees
    simp only [bind_eq_ok] at h
    obtain ⟨⟨v, c₁⟩, hv, h⟩ := h
    obtain ⟨ds, hds, hcolons⟩ := reads_of_sees hsees
    obtain ⟨vs, hvs, hvariant⟩ := word_sound .name hv
    have hstep := hcolons.trans hvs
    split at h
    · rename_i hopen
      simp only [bind_eq_ok, pure_eq, Except.ok.injEq, Prod.mk.injEq] at h
      obtain ⟨⟨args, c₂⟩, hargs, rfl, rfl⟩ := h
      obtain ⟨ls, hls, hleft⟩ := reads_of_sees hopen
      obtain ⟨as, has, henclosed⟩ := ih.enclosed_arguments hls hleft hargs
      have hall := (hns.trans hstep).trans has
      refine ⟨_, hstep.trans has, ?_⟩
      rw [hall.range (ne_nil_left (ne_nil_left hname.ne_nil)), ← List.append_assoc]
      exact .inject hname (.mk hds hvariant) (.given henclosed)
    · obtain ⟨rfl, rfl⟩ := Prod.mk.inj (Except.ok.inj h)
      refine ⟨_, hstep, ?_⟩
      rw [(hns.trans hstep).range (ne_nil_left hname.ne_nil)]
      have hinject := Expr.Derives.inject hname (.mk hds hvariant) .empty
      rwa [List.append_nil] at hinject
  · obtain ⟨rfl, rfl⟩ := Prod.mk.inj (Except.ok.inj h)
    refine ⟨[], .refl c, ?_⟩
    rw [hns.range hname.ne_nil, List.append_nil]
    exact .var hname

theorem atom_succ : Sound (Surface.atom (n + 1)) (Expr.Derives .atom) := by
  intro c x c' h
  simp only [Surface.atom] at h
  split at h
  · rename_i hsees
    obtain ⟨rfl, rfl⟩ := Prod.mk.inj (Except.ok.inj h)
    obtain ⟨ts, hts, hreads⟩ := reads_of_sees hsees
    exact ⟨ts, hreads, hreads.range hts.ne_nil ▸ .true hts⟩
  split at h
  · rename_i hsees
    obtain ⟨rfl, rfl⟩ := Prod.mk.inj (Except.ok.inj h)
    obtain ⟨ts, hts, hreads⟩ := reads_of_sees hsees
    exact ⟨ts, hreads, hreads.range hts.ne_nil ▸ .false hts⟩
  split at h
  · rename_i hsees
    obtain ⟨ls, hls, hleft⟩ := reads_of_sees hsees
    split at h
    · rename_i hclose
      obtain ⟨rfl, rfl⟩ := Prod.mk.inj (Except.ok.inj h)
      obtain ⟨rs, hrs, hright⟩ := reads_of_sees hclose
      have hall := hleft.trans hright
      exact ⟨_, hall, hall.range (ne_nil_left hls.ne_nil) ▸ .unit hls hrs⟩
    · simp only [bind_eq_ok, pure_eq, Except.ok.injEq, Prod.mk.injEq] at h
      obtain ⟨⟨e, c₁⟩, he, c₂, hexpect, rfl, rfl⟩ := h
      obtain ⟨ts, hts, hderives⟩ := ih.operation (some .disjunction) he
      obtain ⟨rs, hrs, hright⟩ := expect_sound hexpect
      exact ⟨_, (hleft.trans hts).trans hright, .paren (.mk hls hderives hrs)⟩
  split at h
  · rename_i hsees
    simp only [bind_eq_ok, pure_eq, Except.ok.injEq, Prod.mk.injEq] at h
    obtain ⟨⟨x, c₁⟩, hx, ⟨r, c₂⟩, hr, c₃, hexpect, ⟨fields, c₄⟩, hfields, rfl, rfl⟩ := h
    obtain ⟨ws, hws, hnew⟩ := reads_of_sees hsees
    obtain ⟨ns, hns, hname⟩ := word_sound .name hx
    obtain ⟨rs, hrs, hregion⟩ := regionArg_sound hr
    obtain ⟨ls, hls, hleft⟩ := expect_sound hexpect
    obtain ⟨fs, es, hfs, hderives, hes⟩ := commaListUntil_sound ih.fieldInit _ n hfields
    have hall := ((hnew.trans hns).trans hrs).trans (hleft.trans hfs)
    refine ⟨_, hall, ?_⟩
    rw [hall.range (ne_nil_left (ne_nil_left (ne_nil_left hws.ne_nil))), ← List.append_assoc ls]
    exact .construct (.mk hws hname) hregion (.mk hls hderives hes)
  split at h
  · rename_i text start stop rest hrest
    obtain ⟨rfl, rfl⟩ := Prod.mk.inj (Except.ok.inj h)
    have hreads := Reads.single hrest
    exact ⟨_, hreads, hreads.range (List.cons_ne_nil _ _) ▸ .int (.mk rfl)⟩
  · rename_i x start stop rest hrest
    have hname : Spelling .name [⟨.name, x, start, stop⟩] x := .mk rfl
    obtain ⟨ts, hts, hderives⟩ := ih.named (.single hrest) hname h
    exact ⟨_, (Reads.single hrest).trans hts, hderives⟩
  · cases h

theorem fieldInit_succ : Sound (Surface.fieldInit (n + 1)) FieldInit.Derives := by
  intro c x c' h
  simp only [Surface.fieldInit, bind_eq_ok, pure_eq, Except.ok.injEq, Prod.mk.injEq] at h
  obtain ⟨⟨x, c₁⟩, hx, c₂, hexpect, ⟨e, c₃⟩, he, rfl, rfl⟩ := h
  obtain ⟨ns, hns, hname⟩ := word_sound .name hx
  obtain ⟨cs, hcs, hcolon⟩ := expect_sound hexpect
  obtain ⟨ts, hts, hderives⟩ := ih.operation (some .disjunction) he
  have hall := hns.trans (hcolon.trans hts)
  exact ⟨_, hall, hall.range (ne_nil_left hname.ne_nil) ▸ .mk hname (.mk hcs hderives)⟩

end ExprSound

theorem exprSound (n : Nat) : ExprSound n := by
  induction n with
  | zero =>
    refine ⟨fun tier c x c' h => ?_, fun _ _ _ h => ?_, fun c x c' h => ?_, fun _ _ h => ?_, fun c x c' h => ?_,
      fun _ _ h => ?_, fun h => ?_, fun c x c' h => ?_⟩
    all_goals cases h
  | succ n ih =>
    exact ⟨ih.operation_succ, ih.tail_succ, ih.unary_succ, ih.steps_succ, ih.atom_succ, ih.named_succ,
      ih.arguments_succ, ih.fieldInit_succ⟩

theorem expr_sound (n : Nat) : Sound (expr n) (Expr.Derives .disjunction) :=
  (exprSound n).operation (some .disjunction)

theorem subPattern_sound : Sound subPattern SubPattern.Derives := by
  intro c x c' h
  simp only [subPattern] at h
  split at h
  · rename_i hsees
    obtain ⟨rfl, rfl⟩ := Prod.mk.inj (Except.ok.inj h)
    obtain ⟨ts, hts, hreads⟩ := reads_of_sees hsees
    exact ⟨ts, hreads, .skip hts⟩
  · simp only [bind_eq_ok, pure_eq, Except.ok.injEq, Prod.mk.injEq] at h
    obtain ⟨⟨x, c₁⟩, hx, rfl, rfl⟩ := h
    obtain ⟨rs, hrs, href⟩ := optional_sound "ref" c
    obtain ⟨ms, hms, hmut⟩ := optional_sound "mut" (c.optional "ref").2
    obtain ⟨ns, hns, hname⟩ := word_sound .name hx
    have hall := (hrs.trans hms).trans hns
    exact ⟨_, hall, hall.range (List.append_ne_nil_of_right_ne_nil _ hname.ne_nil) ▸ .bind href hmut hname⟩

theorem subPatterns_sound (n : Nat) :
    Sound (subPatterns n) (OrEmpty (Enclosed "(" ")" (Commas SubPattern.Derives))) :=
  enclosedList_sound subPattern_sound "(" ")" n

theorem pattern_sound (n : Nat) : Sound (pattern n) Pattern.Derives := by
  intro c x c' h
  simp only [pattern] at h
  split at h
  · rename_i hsees
    obtain ⟨rfl, rfl⟩ := Prod.mk.inj (Except.ok.inj h)
    obtain ⟨ts, hts, hreads⟩ := reads_of_sees hsees
    exact ⟨ts, hreads, .wildcard hts⟩
  simp only [bind_eq_ok] at h
  obtain ⟨⟨x, c₁⟩, hx, h⟩ := h
  obtain ⟨ns, hns, hname⟩ := word_sound .name hx
  split at h
  · rename_i hsees
    simp only [bind_eq_ok, pure_eq, Except.ok.injEq, Prod.mk.injEq] at h
    obtain ⟨⟨v, c₂⟩, hv, ⟨fields, c₃⟩, hfields, rfl, rfl⟩ := h
    obtain ⟨ds, hds, hcolons⟩ := reads_of_sees hsees
    obtain ⟨vs, hvs, hvariant⟩ := word_sound .name hv
    obtain ⟨fs, hfs, hderives⟩ := subPatterns_sound n hfields
    have hall := (hns.trans (hcolons.trans hvs)).trans hfs
    exact ⟨_, hall, hall.range (ne_nil_left (ne_nil_left hname.ne_nil)) ▸ .qualified hname (.mk hds hvariant) hderives⟩
  · simp only [bind_eq_ok, pure_eq, Except.ok.injEq, Prod.mk.injEq] at h
    obtain ⟨⟨fields, c₂⟩, hfields, rfl, rfl⟩ := h
    obtain ⟨fs, hfs, hderives⟩ := subPatterns_sound n hfields
    have hall := hns.trans hfs
    exact ⟨_, hall, hall.range (ne_nil_left hname.ne_nil) ▸ .variant hname hderives⟩

theorem typeAfter_sound (text : String) (n : Nat) : Sound (typeAfter text n) (Maybe (After text Ty.Derives)) := by
  intro c x c' h
  unfold typeAfter at h
  split at h
  · rename_i hsees
    simp only [bind_eq_ok, pure_eq, Except.ok.injEq, Prod.mk.injEq] at h
    obtain ⟨⟨t, c₁⟩, ht, rfl, rfl⟩ := h
    obtain ⟨cs, hcs, hmark⟩ := reads_of_sees hsees
    obtain ⟨ts, hts, hderives⟩ := type_sound n ht
    exact ⟨_, hmark.trans hts, .some (.mk hcs hderives)⟩
  · obtain ⟨rfl, rfl⟩ := Prod.mk.inj (Except.ok.inj h)
    exact ⟨[], .refl c, .none⟩

section

variable {n : Nat} {c₀ c c' : Cursor} {s : Stmt} {ls : List Token}

theorem declaration_sound (hls : Fixed "let" ls) (hlet : c₀.Reads ls c)
    (h : declaration n c₀.here c = .ok (s, c')) : ∃ ts, c₀.Reads ts c' ∧ Stmt.Derives ts s := by
  simp only [declaration, bind_eq_ok] at h
  obtain ⟨⟨x, c₁⟩, hx, ⟨ty, c₂⟩, hty, h⟩ := h
  obtain ⟨ms, hms, hmut⟩ := optional_sound "mut" c
  obtain ⟨ns, hns, hname⟩ := word_sound .name hx
  obtain ⟨ts, hts, htype⟩ := typeAfter_sound ":" n hty
  have hhead := ((hlet.trans hms).trans hns).trans hts
  split at h
  · rename_i hsees
    simp only [bind_eq_ok, pure_eq, Except.ok.injEq, Prod.mk.injEq] at h
    obtain ⟨⟨e, c₃⟩, he, c₄, hexpect, rfl, rfl⟩ := h
    obtain ⟨qs, hqs, hequal⟩ := reads_of_sees hsees
    obtain ⟨es, hes, hvalue⟩ := expr_sound n he
    obtain ⟨ss, hss, hend⟩ := expect_sound hexpect
    have hall := (hhead.trans (hequal.trans hes)).trans hend
    refine ⟨_, hall, ?_⟩
    rw [hall.range (List.append_ne_nil_of_right_ne_nil _ hss.ne_nil)]
    exact .declare hls hmut hname htype (.some (.mk hqs hvalue)) hss
  · simp only [bind_eq_ok, pure_eq, Except.ok.injEq, Prod.mk.injEq] at h
    obtain ⟨c₃, hexpect, rfl, rfl⟩ := h
    obtain ⟨ss, hss, hend⟩ := expect_sound hexpect
    have hall := hhead.trans hend
    refine ⟨_, hall, ?_⟩
    rw [hall.range (List.append_ne_nil_of_right_ne_nil _ hss.ne_nil)]
    have hderives := Stmt.Derives.declare hls hmut hname htype .none hss
    rwa [List.append_nil] at hderives

theorem returning_sound (hls : Fixed "return" ls) (hret : c₀.Reads ls c)
    (h : returning n c₀.here c = .ok (s, c')) : ∃ ts, c₀.Reads ts c' ∧ Stmt.Derives ts s := by
  simp only [returning] at h
  split at h
  · rename_i hsees
    obtain ⟨rfl, rfl⟩ := Prod.mk.inj (Except.ok.inj h)
    obtain ⟨ss, hss, hend⟩ := reads_of_sees hsees
    have hall := hret.trans hend
    refine ⟨_, hall, ?_⟩
    rw [hall.range (ne_nil_left hls.ne_nil)]
    have hderives := Stmt.Derives.ret hls .none hss
    rwa [List.append_nil] at hderives
  · simp only [bind_eq_ok, pure_eq, Except.ok.injEq, Prod.mk.injEq] at h
    obtain ⟨⟨e, c₁⟩, he, c₂, hexpect, rfl, rfl⟩ := h
    obtain ⟨es, hes, hvalue⟩ := expr_sound n he
    obtain ⟨ss, hss, hend⟩ := expect_sound hexpect
    have hall := (hret.trans hes).trans hend
    exact ⟨_, hall, hall.range (List.append_ne_nil_of_right_ne_nil _ hss.ne_nil) ▸ .ret hls (.some hvalue) hss⟩

end

theorem assignment_sound (n : Nat) : Sound (assignment n) Stmt.Derives := by
  intro c x c' h
  simp only [assignment, bind_eq_ok] at h
  obtain ⟨⟨a, c₁⟩, ha, h⟩ := h
  obtain ⟨as, has, htarget⟩ := expr_sound n ha
  split at h
  · rename_i hsees
    simp only [bind_eq_ok, pure_eq, Except.ok.injEq, Prod.mk.injEq] at h
    obtain ⟨⟨b, c₂⟩, hb, c₃, hexpect, rfl, rfl⟩ := h
    obtain ⟨qs, hqs, hequal⟩ := reads_of_sees hsees
    obtain ⟨bs, hbs, hvalue⟩ := expr_sound n hb
    obtain ⟨ss, hss, hend⟩ := expect_sound hexpect
    have hall := (has.trans (hequal.trans hbs)).trans hend
    exact ⟨_, hall, hall.range (List.append_ne_nil_of_right_ne_nil _ hss.ne_nil) ▸
      .assign htarget (.mk hqs hvalue) hss⟩
  · simp only [bind_eq_ok, pure_eq, Except.ok.injEq, Prod.mk.injEq] at h
    obtain ⟨c₂, hexpect, rfl, rfl⟩ := h
    obtain ⟨ss, hss, hend⟩ := expect_sound hexpect
    have hall := has.trans hend
    exact ⟨_, hall, hall.range (List.append_ne_nil_of_right_ne_nil _ hss.ne_nil) ▸ .eval htarget hss⟩

/-- All that is read of statements with this much fuel is derived. -/
structure StmtSound (n : Nat) : Prop where
  stmt : Sound (stmt n) Stmt.Derives
  block : Sound (block n) Block.Derives
  branch : Sound (branch n) Branch.Derives
  alternative : Sound (alternative n) Alternative.Derives
  arm : Sound (arm n) Arm.Derives

namespace StmtSound

variable {n : Nat} (ih : StmtSound n)

include ih

theorem block_succ : Sound (Surface.block (n + 1)) Block.Derives := by
  intro c x c' h
  simp only [Surface.block, bind_eq_ok, pure_eq, Except.ok.injEq, Prod.mk.injEq] at h
  obtain ⟨c₁, hexpect, ⟨ss, c₂⟩, hss, rfl, rfl⟩ := h
  obtain ⟨ls, hls, hleft⟩ := expect_sound hexpect
  obtain ⟨⟨ts, hts, hderives⟩, hclose⟩ := itemsUntil_sound ih.stmt _ n hss
  obtain ⟨rs, hrs, hright⟩ := reads_of_sees hclose
  have hall := (hleft.trans hts).trans hright
  exact ⟨_, hall, hall.range (ne_nil_left (ne_nil_left hls.ne_nil)) ▸ .mk (.mk hls hderives hrs)⟩

theorem branch_succ : Sound (Surface.branch (n + 1)) Branch.Derives := by
  intro c x c' h
  simp only [Surface.branch, bind_eq_ok, pure_eq, Except.ok.injEq, Prod.mk.injEq] at h
  obtain ⟨c₁, hexpect, ⟨cond, c₂⟩, hcond, ⟨yes, c₃⟩, hyes, ⟨no, c₄⟩, hno, rfl, rfl⟩ := h
  obtain ⟨is, his, hif⟩ := expect_sound hexpect
  obtain ⟨cs, hcs, hc⟩ := expr_sound n hcond
  obtain ⟨ys, hys, hy⟩ := ih.block hyes
  obtain ⟨ns, hns, hn⟩ := ih.alternative hno
  have hall := ((hif.trans hcs).trans hys).trans hns
  exact ⟨_, hall, hall.range (ne_nil_left (ne_nil_left (ne_nil_left his.ne_nil))) ▸ .mk (.mk his hc) hy hn⟩

theorem alternative_succ : Sound (Surface.alternative (n + 1)) Alternative.Derives := by
  intro c x c' h
  simp only [Surface.alternative] at h
  split at h
  · rename_i hsees
    obtain ⟨es, hes, helse⟩ := reads_of_sees hsees
    split at h
    · simp only [bind_eq_ok, pure_eq, Except.ok.injEq, Prod.mk.injEq] at h
      obtain ⟨⟨b, c₁⟩, hb, rfl, rfl⟩ := h
      obtain ⟨bs, hbs, hderives⟩ := ih.branch hb
      exact ⟨_, helse.trans hbs, .branch (.mk hes hderives)⟩
    · simp only [bind_eq_ok, pure_eq, Except.ok.injEq, Prod.mk.injEq] at h
      obtain ⟨⟨b, c₁⟩, hb, rfl, rfl⟩ := h
      obtain ⟨bs, hbs, hderives⟩ := ih.block hb
      exact ⟨_, helse.trans hbs, .block (.mk hes hderives)⟩
  · obtain ⟨rfl, rfl⟩ := Prod.mk.inj (Except.ok.inj h)
    exact ⟨[], .refl c, .nothing⟩

theorem arm_succ : Sound (Surface.arm (n + 1)) Arm.Derives := by
  intro c x c' h
  simp only [Surface.arm, bind_eq_ok, pure_eq, Except.ok.injEq, Prod.mk.injEq] at h
  obtain ⟨⟨p, c₁⟩, hp, c₂, hexpect, ⟨b, c₃⟩, hb, rfl, rfl⟩ := h
  obtain ⟨ps, hps, hpattern⟩ := pattern_sound n hp
  obtain ⟨ws, hws, harrow⟩ := expect_sound hexpect
  obtain ⟨bs, hbs, hbody⟩ := ih.block hb
  obtain ⟨cs, hcs, hcomma⟩ := optional_sound "," c₃
  have hall := (hps.trans (harrow.trans hbs)).trans hcs
  refine ⟨_, hall, ?_⟩
  rw [hall.range (ne_nil_left (List.append_ne_nil_of_right_ne_nil _ (ne_nil_left hws.ne_nil)))]
  exact .mk hpattern (.mk hws hbody) hcomma

theorem stmt_succ : Sound (Surface.stmt (n + 1)) Stmt.Derives := by
  intro c x c' h
  simp only [Surface.stmt] at h
  split at h
  · rename_i hsees
    obtain ⟨ls, hls, hlet⟩ := reads_of_sees hsees
    exact declaration_sound hls hlet h
  split at h
  · simp only [bind_eq_ok, pure_eq, Except.ok.injEq, Prod.mk.injEq] at h
    obtain ⟨⟨b, c₁⟩, hb, rfl, rfl⟩ := h
    obtain ⟨ts, hts, hderives⟩ := ih.branch hb
    exact ⟨ts, hts, .branch hderives⟩
  split at h
  · rename_i hsees
    simp only [bind_eq_ok, pure_eq, Except.ok.injEq, Prod.mk.injEq] at h
    obtain ⟨⟨b, c₁⟩, hb, rfl, rfl⟩ := h
    obtain ⟨ls, hls, hloop⟩ := reads_of_sees hsees
    obtain ⟨bs, hbs, hbody⟩ := ih.block hb
    have hall := hloop.trans hbs
    exact ⟨_, hall, hall.range (ne_nil_left hls.ne_nil) ▸ .loop (.mk hls hbody)⟩
  split at h
  · rename_i hsees
    simp only [bind_eq_ok, pure_eq, Except.ok.injEq, Prod.mk.injEq] at h
    obtain ⟨⟨cond, c₁⟩, hcond, ⟨b, c₂⟩, hb, rfl, rfl⟩ := h
    obtain ⟨ws, hws, hwhile⟩ := reads_of_sees hsees
    obtain ⟨cs, hcs, hc⟩ := expr_sound n hcond
    obtain ⟨bs, hbs, hbody⟩ := ih.block hb
    have hall := (hwhile.trans hcs).trans hbs
    exact ⟨_, hall, hall.range (ne_nil_left (ne_nil_left hws.ne_nil)) ▸ .whileLoop (.mk hws hc) hbody⟩
  split at h
  · rename_i hsees
    simp only [bind_eq_ok, pure_eq, Except.ok.injEq, Prod.mk.injEq] at h
    obtain ⟨c₁, hexpect, rfl, rfl⟩ := h
    obtain ⟨bs, hbs, hbreak⟩ := reads_of_sees hsees
    obtain ⟨ss, hss, hend⟩ := expect_sound hexpect
    have hall := hbreak.trans hend
    exact ⟨_, hall, hall.range (ne_nil_left hbs.ne_nil) ▸ .breakLoop hbs hss⟩
  split at h
  · rename_i hsees
    simp only [bind_eq_ok, pure_eq, Except.ok.injEq, Prod.mk.injEq] at h
    obtain ⟨c₁, hexpect, rfl, rfl⟩ := h
    obtain ⟨bs, hbs, hcontinue⟩ := reads_of_sees hsees
    obtain ⟨ss, hss, hend⟩ := expect_sound hexpect
    have hall := hcontinue.trans hend
    exact ⟨_, hall, hall.range (ne_nil_left hbs.ne_nil) ▸ .continueLoop hbs hss⟩
  split at h
  · rename_i hsees
    obtain ⟨rs, hrs, hret⟩ := reads_of_sees hsees
    exact returning_sound hrs hret h
  split at h
  · rename_i hsees
    simp only [bind_eq_ok, pure_eq, Except.ok.injEq, Prod.mk.injEq] at h
    obtain ⟨⟨e, c₁⟩, he, c₂, hexpect, ⟨arms, c₃⟩, harms, rfl, rfl⟩ := h
    obtain ⟨ms, hms, hmatch⟩ := reads_of_sees hsees
    obtain ⟨es, hes, hscrutinee⟩ := expr_sound n he
    obtain ⟨ls, hls, hleft⟩ := expect_sound hexpect
    obtain ⟨⟨as, has, hderives⟩, hclose⟩ := itemsUntil_sound ih.arm _ n harms
    obtain ⟨rs, hrs, hright⟩ := reads_of_sees hclose
    have hall := (hmatch.trans hes).trans ((hleft.trans has).trans hright)
    refine ⟨_, hall, ?_⟩
    rw [hall.range (ne_nil_left (ne_nil_left hms.ne_nil))]
    exact .select (.mk hms hscrutinee) (.mk hls hderives hrs)
  split at h
  · simp only [bind_eq_ok, pure_eq, Except.ok.injEq, Prod.mk.injEq] at h
    obtain ⟨⟨b, c₁⟩, hb, rfl, rfl⟩ := h
    obtain ⟨ts, hts, hderives⟩ := ih.block hb
    exact ⟨ts, hts, .block hderives⟩
  · exact assignment_sound n h

end StmtSound

theorem stmtSound (n : Nat) : StmtSound n := by
  induction n with
  | zero => exact ⟨nofun, nofun, nofun, nofun, nofun⟩
  | succ n ih => exact ⟨ih.stmt_succ, ih.block_succ, ih.branch_succ, ih.alternative_succ, ih.arm_succ⟩

theorem bounds_sound (n : Nat) : Sound (bounds n) (Many (After ":" (Spelling .region))) := by
  induction n with
  | zero => intro c x c' h; cases h
  | succ n ih =>
    intro c x c' h
    simp only [bounds] at h
    split at h
    · rename_i hsees
      simp only [bind_eq_ok, pure_eq, Except.ok.injEq, Prod.mk.injEq] at h
      obtain ⟨⟨r, c₁⟩, hr, ⟨rs, c₂⟩, hrs, rfl, rfl⟩ := h
      obtain ⟨cs, hcs, hcolon⟩ := reads_of_sees hsees
      obtain ⟨ts, hts, hregion⟩ := word_sound .region hr
      obtain ⟨us, hus, hrest⟩ := ih hrs
      exact ⟨_, (hcolon.trans hts).trans hus, .cons (.mk hcs hregion) hrest⟩
    · obtain ⟨rfl, rfl⟩ := Prod.mk.inj (Except.ok.inj h)
      exact ⟨[], .refl c, .nil⟩

theorem regionDecl_sound (n : Nat) : Sound (regionDecl n) RegionDecl.Derives := by
  intro c x c' h
  simp only [regionDecl, bind_eq_ok, pure_eq, Except.ok.injEq, Prod.mk.injEq] at h
  obtain ⟨⟨r, c₁⟩, hr, ⟨bs, c₂⟩, hbs, rfl, rfl⟩ := h
  obtain ⟨rs, hrs, hregion⟩ := word_sound .region hr
  obtain ⟨ts, hts, hbounds⟩ := bounds_sound n hbs
  exact ⟨_, hrs.trans hts, .mk hregion hbounds⟩

theorem regionParams_sound (n : Nat) : Sound (regionParams n) RegionParams :=
  enclosedList_sound (regionDecl_sound n) "<" ">" n

theorem typedName_sound (n : Nat) : Sound (typedName n) TypedName.Derives := by
  intro c x c' h
  simp only [typedName, bind_eq_ok, pure_eq, Except.ok.injEq, Prod.mk.injEq] at h
  obtain ⟨⟨x, c₁⟩, hx, c₂, hexpect, ⟨t, c₃⟩, ht, rfl, rfl⟩ := h
  obtain ⟨ns, hns, hname⟩ := word_sound .name hx
  obtain ⟨cs, hcs, hcolon⟩ := expect_sound hexpect
  obtain ⟨ts, hts, hderives⟩ := type_sound n ht
  have hall := hns.trans (hcolon.trans hts)
  exact ⟨_, hall, hall.range (ne_nil_left hname.ne_nil) ▸ .mk hname (.mk hcs hderives)⟩

theorem variantDecl_sound (n : Nat) : Sound (variantDecl n) VariantDecl.Derives := by
  intro c x c' h
  simp only [variantDecl, bind_eq_ok, pure_eq, Except.ok.injEq, Prod.mk.injEq] at h
  obtain ⟨⟨x, c₁⟩, hx, ⟨payload, c₂⟩, hpayload, rfl, rfl⟩ := h
  obtain ⟨ns, hns, hname⟩ := word_sound .name hx
  obtain ⟨ps, hps, hderives⟩ := enclosedList_sound (type_sound n) "(" ")" n hpayload
  exact ⟨_, hns.trans hps, .mk hname hderives⟩

theorem header_sound (n : Nat) : Sound (header n) Header.Derives := by
  intro c x c' h
  simp only [header, bind_eq_ok, pure_eq, Except.ok.injEq, Prod.mk.injEq] at h
  obtain ⟨⟨x, c₁⟩, hx, ⟨regions, c₂⟩, hregions, c₃, hexpect, ⟨params, c₄⟩, hparams, ⟨ret, c₅⟩, hret, rfl, rfl⟩ := h
  obtain ⟨ns, hns, hname⟩ := word_sound .name hx
  obtain ⟨rs, hrs, hr⟩ := regionParams_sound n hregions
  obtain ⟨ls, hls, hleft⟩ := expect_sound hexpect
  obtain ⟨ps, es, hps, hp, hes⟩ := closedList_sound (typedName_sound n) ")" n hparams
  obtain ⟨ts, hts, ht⟩ := typeAfter_sound "->" n hret
  have hall := ((hns.trans hrs).trans (hleft.trans hps)).trans hts
  refine ⟨_, hall, ?_⟩
  rw [hall.range (ne_nil_left (ne_nil_left (ne_nil_left hname.ne_nil))), ← List.append_assoc ls]
  exact .mk hname hr (.mk hls hp hes) ht

theorem layout_sound {n : Nat} {c₀ c c' : Cursor} {cs : List Token} {copy : Bool} {x : Item} (hcs : c₀.Reads cs c)
    (hcopy : Flag "copy" cs copy) (h : layout n copy c₀.here c = .ok (x, c')) :
    ∃ ts, c₀.Reads ts c' ∧ Item.Derives ts x := by
  simp only [layout] at h
  split at h
  · rename_i hsees
    simp only [bind_eq_ok, pure_eq, Except.ok.injEq, Prod.mk.injEq] at h
    obtain ⟨⟨x, c₁⟩, hx, ⟨regions, c₂⟩, hregions, c₃, hexpect, ⟨fields, c₄⟩, hfields, rfl, rfl⟩ := h
    obtain ⟨ws, hws, hword⟩ := reads_of_sees hsees
    obtain ⟨ns, hns, hname⟩ := word_sound .name hx
    obtain ⟨rs, hrs, hr⟩ := regionParams_sound n hregions
    obtain ⟨ls, hls, hleft⟩ := expect_sound hexpect
    obtain ⟨fs, es, hfs, hf, hes⟩ := commaListUntil_sound (typedName_sound n) _ n hfields
    have hall := ((hcs.trans (hword.trans hns)).trans hrs).trans (hleft.trans hfs)
    refine ⟨_, hall, ?_⟩
    rw [hall.range (List.append_ne_nil_of_right_ne_nil _ (ne_nil_left hls.ne_nil)), ← List.append_assoc ls]
    exact .struct hcopy (.mk hws hname) hr (.mk hls hf hes)
  split at h
  · rename_i hsees
    simp only [bind_eq_ok, pure_eq, Except.ok.injEq, Prod.mk.injEq] at h
    obtain ⟨⟨x, c₁⟩, hx, ⟨regions, c₂⟩, hregions, c₃, hexpect, ⟨variants, c₄⟩, hvariants, rfl, rfl⟩ := h
    obtain ⟨ws, hws, hword⟩ := reads_of_sees hsees
    obtain ⟨ns, hns, hname⟩ := word_sound .name hx
    obtain ⟨rs, hrs, hr⟩ := regionParams_sound n hregions
    obtain ⟨ls, hls, hleft⟩ := expect_sound hexpect
    obtain ⟨vs, es, hvs, hv, hes⟩ := commaListUntil_sound (variantDecl_sound n) _ n hvariants
    have hall := ((hcs.trans (hword.trans hns)).trans hrs).trans (hleft.trans hvs)
    refine ⟨_, hall, ?_⟩
    rw [hall.range (List.append_ne_nil_of_right_ne_nil _ (ne_nil_left hls.ne_nil)), ← List.append_assoc ls]
    exact .enum hcopy (.mk hws hname) hr (.mk hls hv hes)
  · cases h

theorem item_sound (n : Nat) : Sound (item n) Item.Derives := by
  intro c x c' h
  simp only [item] at h
  split at h
  · rename_i hsees
    simp only [bind_eq_ok, pure_eq, Except.ok.injEq, Prod.mk.injEq] at h
    obtain ⟨⟨hd, c₁⟩, hh, ⟨b, c₂⟩, hb, rfl, rfl⟩ := h
    obtain ⟨ws, hws, hfn⟩ := reads_of_sees hsees
    obtain ⟨hs, hhs, hheader⟩ := header_sound n hh
    obtain ⟨bs, hbs, hbody⟩ := (stmtSound n).block hb
    exact ⟨_, (hfn.trans hhs).trans hbs, .function (.mk hws hheader) hbody⟩
  split at h
  · rename_i hsees
    simp only [bind_eq_ok, pure_eq, Except.ok.injEq, Prod.mk.injEq] at h
    obtain ⟨c₁, hfn, ⟨hd, c₂⟩, hh, c₃, hsemi, rfl, rfl⟩ := h
    obtain ⟨es, hes, houter⟩ := reads_of_sees hsees
    obtain ⟨ws, hws, hfn⟩ := expect_sound hfn
    obtain ⟨hs, hhs, hheader⟩ := header_sound n hh
    obtain ⟨ss, hss, hend⟩ := expect_sound hsemi
    exact ⟨_, (houter.trans (hfn.trans hhs)).trans hend, .external hes (.mk hws hheader) hss⟩
  split at h
  · rename_i hsees
    obtain ⟨cs, hcs, hcopy⟩ := reads_of_sees hsees
    exact layout_sound hcopy (.present hcs) h
  · exact layout_sound (.refl c) .absent h

theorem items_sound {fuel n : Nat} {c : Cursor} {xs : List Item} (h : items fuel n c = .ok xs) :
    ProgramText c.rest xs := by
  induction n generalizing c xs with
  | zero => cases h
  | succ n ih =>
    simp only [items] at h
    split at h
    · rename_i hempty
      obtain rfl := Except.ok.inj h
      rw [List.isEmpty_iff.mp hempty]
      exact .nil
    · simp only [bind_eq_ok, pure_eq, Except.ok.injEq] at h
      obtain ⟨⟨x, c₁⟩, hx, xs, hxs, rfl⟩ := h
      obtain ⟨ts, hts, hderives⟩ := item_sound fuel hx
      rw [hts.rest]
      exact .cons hderives (ih hxs)

/-- What is parsed is derived. -/
theorem derives_of_parse {ts : List Token} {xs : List Item} (h : parse ts = .ok xs) : ProgramText ts xs :=
  items_sound h

end Ownership.Surface
