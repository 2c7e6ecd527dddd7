import Ownership.Proofs.Source.Prediction

/-!
The first problem of a text is the one that is reported. The parser is stuck at the
first token that no program goes on with, or at the end of tokens that start one;
scanning stops at the first character that starts no lexeme. Of a bad token and a
bad character the one that comes first in the text is found, since only the tokens
before the character are parsed.
-/
namespace Ownership.Surface

open Outcome

theorem starts_of_append {L : Language Token} {us vs : List Token} (h : us ++ vs ∈ starts L) : us ∈ starts L := by
  obtain ⟨ws, hws⟩ := h
  exact ⟨vs ++ ws, List.append_assoc us vs ws ▸ hws⟩

theorem mem_starts {L : Language Token} {us : List Token} (h : us ∈ L) : us ∈ starts L :=
  ⟨[], (List.append_nil us).symm ▸ h⟩

/-- Where a token is left, an item is read first. -/
theorem item_of_items {fuel n : Nat} {c : Cursor} {us ts : List Token} {t : Token} {xs : List Item}
    (hrest : c.rest = us ++ t :: ts) (h : items fuel n c = .ok xs) :
    ∃ x c' m ys, item fuel c = .ok (x, c') ∧ items fuel m c' = .ok ys := by
  cases n with
  | zero => cases h
  | succ m =>
    rw [items, if_neg (by simp [hrest])] at h
    obtain ⟨⟨x, c'⟩, hx, h⟩ := bind_eq_ok.mp h
    obtain ⟨ys, hys, -⟩ := bind_eq_ok.mp h
    exact ⟨x, c', m, ys, hx, hys⟩

/-- Items that are stuck have read the start of a program; with fuel for the tokens that they have read, no
program has the next one there. -/
theorem items_stuck {fuel n : Nat} {c : Cursor} {e : Stuck} (h : items fuel n c = .error e) :
    ∃ us rest, c.rest = us ++ rest ∧ e = rest.head? ∧ us ∈ starts (words ProgramText) ∧
      (us.length < min (fuel / 16) n → ∀ t ∈ rest.head?, ∀ fuel' n' (d : Cursor) ts, d.rest = us ++ t :: ts →
        ∀ xs, items fuel' n' d ≠ .ok xs) := by
  induction n generalizing c with
  | zero => exact ⟨[], c.rest, rfl, (Except.error.inj h).symm, mem_starts ⟨_, .nil⟩, fun hlt => by omega⟩
  | succ n ih =>
    have hitem := item_steady fuel c (fun r : Nat × Cursor => r.2) Prod.fst
    simp only [items] at h
    split at h
    · cases h
    · rcases bind_eq_error.mp h with h | ⟨⟨x, c₁⟩, hx, h⟩
      · obtain ⟨us, rest, hread, he, ⟨vs, y, hy⟩, hlocal⟩ := hitem.stuck h
        have hone := Many.cons hy .nil
        rw [List.append_nil] at hone
        refine ⟨us, rest, hread, he, ⟨vs, _, hone⟩, fun hlt t ht fuel' n' d ts hd xs hxs => ?_⟩
        obtain ⟨y, d', -, -, hy, -⟩ := item_of_items hd hxs
        exact hlocal (by omega) t ht (fuel', d) ts hd _ hy
      · have h : items fuel n c₁ = .error e := by
          rcases bind_eq_error.mp h with h | ⟨_, _, h⟩
          · exact h
          · cases h
        obtain ⟨us, ⟨y, hy⟩, hread, hlocal⟩ := hitem.ok hx
        obtain ⟨vs, rest, hread', he, ⟨ws, zs, hzs⟩, hlocal'⟩ := ih h
        refine ⟨us ++ vs, rest, ?_, he, ⟨ws, y :: zs, ?_⟩, fun hlt t ht fuel' n' d ts hd xs hxs => ?_⟩
        · rw [hread, hread', List.append_assoc]
        · rw [List.append_assoc]
          exact .cons hy hzs
        · obtain ⟨y', d', m, ys, hy', hys⟩ := item_of_items hd hxs
          rw [List.append_assoc] at hd
          have hd' : d'.rest = vs ++ t :: ts := by
            refine hlocal (fuel', d) y' d' _ hy' hd ?_
            rw [hread']
            exact Steady.head?_append_congr (Option.mem_def.mp ht).symm
          have hpos := List.length_pos_iff.mpr hy.begins.ne_nil
          rw [List.length_append] at hlt
          exact hlocal' (by omega) t ht fuel' m d' ts hd' ys hys

/-- The parser is stuck just at the first token that no program has there, or at the end of tokens that start
a program and make up none. -/
theorem parse_eq_error_iff {ts : List Token} {e : Stuck} : parse ts = .error e ↔ ts ∉ words ProgramText ∧
    ∃ us rest, ts = us ++ rest ∧ e = rest.head? ∧ us ∈ starts (words ProgramText) ∧
      ∀ t ∈ rest.head?, us ++ [t] ∉ starts (words ProgramText) := by
  have hstuck {e : Stuck} (h : parse ts = .error e) : ∃ us rest, ts = us ++ rest ∧ e = rest.head? ∧
      us ∈ starts (words ProgramText) ∧ ∀ t ∈ rest.head?, us ++ [t] ∉ starts (words ProgramText) := by
    obtain ⟨us, rest, hread, he, hstarts, hlocal⟩ := items_stuck h
    refine ⟨us, rest, hread, he, hstarts, fun t ht => ?_⟩
    rintro ⟨vs, xs, hxs⟩
    have hlength : us.length ≤ ts.length := by
      rw [show ts = us ++ rest from hread, List.length_append]
      exact Nat.le_add_right _ _
    have hparse := parse_eq_ok_iff.mpr hxs
    refine hlocal ?_ t ht _ _ _ vs ?_ xs hparse
    · simp only [depthBound]
      omega
    · rw [List.append_assoc]
      rfl
  constructor
  · intro h
    refine ⟨?_, hstuck h⟩
    rintro ⟨xs, hxs⟩
    rw [parse_eq_ok_iff.mpr hxs] at h
    cases h
  · rintro ⟨hno, us, rest, hts, rfl, hstarts, hbad⟩
    cases hparse : parse ts with
    | ok xs => exact absurd ⟨xs, parse_eq_ok_iff.mp hparse⟩ hno
    | error e =>
      obtain ⟨us', rest', hts', rfl, hstarts', hbad'⟩ := hstuck hparse
      rcases List.append_eq_append_iff.mp (hts.symm.trans hts') with ⟨vs, hus, hrest⟩ | ⟨vs, hus, hrest⟩
      · cases vs with
        | nil => rw [hrest, List.nil_append]
        | cons t vs =>
          rw [hus, ← List.singleton_append, ← List.append_assoc] at hstarts'
          exact absurd (starts_of_append hstarts') (hbad t (by rw [hrest]; rfl))
      · cases vs with
        | nil => rw [hrest, List.nil_append]
        | cons t vs =>
          rw [hus, ← List.singleton_append, ← List.append_assoc] at hstarts
          exact absurd (starts_of_append hstarts) (hbad' t (by rw [hrest]; rfl))

/-- Tokens start a program just if the parser is not stuck at one of them. -/
theorem mem_starts_iff {ts : List Token} : ts ∈ starts (words ProgramText) ↔ ∀ t, parse ts ≠ .error (some t) := by
  constructor
  · intro hstarts t hparse
    obtain ⟨-, us, rest, rfl, ht, -, hbad⟩ := parse_eq_error_iff.mp hparse
    obtain ⟨rest, rfl⟩ := List.head?_eq_some_iff.mp ht.symm
    rw [← List.singleton_append, ← List.append_assoc] at hstarts
    exact hbad t rfl (starts_of_append hstarts)
  · intro hnot
    rcases hparse : parse ts with (_ | t) | xs
    · obtain ⟨-, us, rest, rfl, hnone, hstarts, -⟩ := parse_eq_error_iff.mp hparse
      rwa [List.head?_eq_none_iff.mp hnone.symm, List.append_nil]
    · exact absurd hparse (hnot t)
    · exact mem_starts ⟨xs, parse_eq_ok_iff.mp hparse⟩

end Ownership.Surface

namespace Ownership

open Token Surface

/-- Taking the longest lexeme again and again from a position on gives the tokens and gets to a later position. -/
inductive SplitsTo : Position → List Char → List Token → Position → List Char → Prop where
  | here {p : Position} {cs : List Char} : SplitsTo p cs [] p cs
  | skip {p q : Position} {w cs rest : List Char} {ts : List Token} (h : Lexeme none w) (hmax : Longest w (w ++ cs))
      (hrest : SplitsTo (p.afterAll w) cs ts q rest) : SplitsTo p (w ++ cs) ts q rest
  | token {p q : Position} {w cs rest : List Char} {t : Terminal} {ts : List Token} (h : Lexeme (some t) w)
      (hmax : Longest w (w ++ cs)) (hrest : SplitsTo (p.afterAll w) cs ts q rest) :
      SplitsTo p (w ++ cs) (⟨t, String.ofList w, p, p.afterAll w⟩ :: ts) q rest

namespace SplitsTo

/-- Scanning goes on from any position that it gets to. -/
theorem scanFrom {p q : Position} {cs rest : List Char} {ts : List Token} (h : SplitsTo p cs ts q rest) :
    scanFrom p cs = ⟨ts ++ (Ownership.scanFrom q rest).tokens, (Ownership.scanFrom q rest).ending⟩ := by
  induction h with
  | here => rfl
  | skip h hmax _ ih => rw [scanFrom_append h hmax, Option.elim_none, ih]
  | token h hmax _ ih => rw [scanFrom_append h hmax, Option.elim_some, ih, List.cons_append]

/-- Scanning gets to the end of each token that it finds, and to the character that it stops at. -/
theorem of_scanFrom (p : Position) (cs : List Char) :
    (∀ before t after, (Ownership.scanFrom p cs).tokens = before ++ t :: after →
      ∃ rest, SplitsTo p cs (before ++ [t]) t.stop rest) ∧
    ∀ c q, (Ownership.scanFrom p cs).ending = .unmatched c q →
      ∃ rest, SplitsTo p cs (Ownership.scanFrom p cs).tokens q (c :: rest) ∧ lexeme? c rest = none := by
  fun_induction Ownership.scanFrom p cs with
  | case1 p => exact ⟨fun before t after h => by simp at h, fun c q h => by cases h⟩
  | case2 p c cs hnone =>
    refine ⟨fun before t after h => by simp at h, fun c' q h => ?_⟩
    obtain ⟨rfl, rfl⟩ := ScanEnd.unmatched.inj h
    exact ⟨cs, .here, hnone⟩
  | case3 p c cs n text stop rest hfound =>
    rename_i ih
    obtain ⟨hlexeme, -, hmax⟩ := lexeme?_eq_some_iff.mp hfound
    have hsplit : c :: cs.take n ++ cs.drop n = c :: cs := by simp
    rw [← hsplit] at hmax ⊢
    refine ⟨fun before t after h => ?_, fun c' q h => ?_⟩
    · obtain ⟨rest', hto⟩ := ih.1 before t after h
      exact ⟨rest', .skip hlexeme hmax hto⟩
    · obtain ⟨rest', hto, hnone⟩ := ih.2 c' q h
      exact ⟨rest', .skip hlexeme hmax hto, hnone⟩
  | case4 p c cs n text stop rest t hfound =>
    rename_i ih
    obtain ⟨hlexeme, -, hmax⟩ := lexeme?_eq_some_iff.mp hfound
    have hsplit : c :: cs.take n ++ cs.drop n = c :: cs := by simp
    rw [← hsplit] at hmax ⊢
    refine ⟨fun before t after h => ?_, fun c' q h => ?_⟩
    · cases before with
      | nil =>
        obtain ⟨rfl, -⟩ := List.cons.inj h
        exact ⟨_, .token hlexeme hmax .here⟩
      | cons u before =>
        obtain ⟨rfl, hbefore⟩ := List.cons.inj h
        obtain ⟨rest', hto⟩ := ih.1 before t after hbefore
        exact ⟨rest', .token hlexeme hmax hto⟩
    · obtain ⟨rest', hto, hnone⟩ := ih.2 c' q h
      exact ⟨rest', .token hlexeme hmax hto, hnone⟩

end SplitsTo

/-- Nothing is found just where no lexeme starts. -/
theorem lexeme?_eq_none_iff {c : Char} {cs : List Char} :
    lexeme? c cs = none ↔ ∀ k w, Lexeme k w → ¬ w <+: c :: cs := by
  constructor
  · intro hnone k w hw hp
    obtain ⟨k', n, hfound, -⟩ := lexeme?_complete hw hp
    rw [hnone] at hfound
    cases hfound
  · intro hno
    cases hfound : lexeme? c cs with
    | none => rfl
    | some found =>
      obtain ⟨hlexeme, -⟩ := lexeme?_sound hfound
      exact absurd (List.cons_prefix_cons.mpr ⟨rfl, List.take_prefix _ cs⟩) (hno _ _ hlexeme)

/-- What is wrong with a text, and where: everything before it starts a program, and nothing that goes on with it
is one. -/
inductive FirstProblem (text : String) : ReadCause → Position → Prop where
  | token {before : List Token} {t : Token} {rest : List Char}
      (hsplits : SplitsTo {} text.toList (before ++ [t]) t.stop rest) (hstarts : before ∈ starts (words ProgramText))
      (hbad : before ++ [t] ∉ starts (words ProgramText)) : FirstProblem text (.unexpectedToken t) t.start
  | finish {tokens : List Token} {last : Position} (hsplits : Splits {} text.toList tokens)
      (hstarts : tokens ∈ starts (words ProgramText)) (hopen : tokens ∉ words ProgramText)
      (hlast : last = tokens.getLast?.elim {} Token.start) : FirstProblem text (.unexpectedEnd last) last
  | character {tokens : List Token} {c : Char} {p : Position} {rest : List Char}
      (hsplits : SplitsTo {} text.toList tokens p (c :: rest)) (hstarts : tokens ∈ starts (words ProgramText))
      (hbad : ∀ k w, Lexeme k w → ¬ w <+: c :: rest) : FirstProblem text (.unmatched c p) p

theorem readItems_of_firstProblem {text : String} {cause : ReadCause} {p : Position} (h : FirstProblem text cause p)
    (file : Option String) :
    readItems text file = .error ⟨cause, { file := file, line := some p.line, column := some p.column }⟩ := by
  cases h with
  | @token before t rest hsplits hstarts hbad =>
    obtain ⟨more, htokens⟩ : ∃ more, (scan text).tokens = before ++ t :: more := by
      refine ⟨(scanFrom t.stop rest).tokens, ?_⟩
      rw [scan, hsplits.scanFrom, List.append_assoc]
      rfl
    have hparse : parse (scan text).tokens = .error (some t) := by
      refine parse_eq_error_iff.mpr ⟨fun hmem => hbad ?_, before, _, htokens, rfl, hstarts, fun u hu => ?_⟩
      · rw [htokens, ← List.singleton_append, ← List.append_assoc] at hmem
        exact starts_of_append (mem_starts hmem)
      · obtain rfl := Option.some.inj hu
        exact hbad
    simp only [readItems, hparse]
  | @finish tokens last hsplits hstarts hopen hlast =>
    have hparse : parse tokens = .error none := by
      refine parse_eq_error_iff.mpr ⟨hopen, tokens, [], (List.append_nil tokens).symm, rfl, hstarts, fun u hu => ?_⟩
      cases hu
    simp only [readItems, scan_eq_iff.mpr hsplits, hparse, hlast]
  | @character tokens c p rest hsplits hstarts hbad =>
    have hscan : scan text = ⟨tokens, .unmatched c p⟩ := by
      rw [scan, hsplits.scanFrom, scanFrom, lexeme?_eq_none_iff.mpr hbad]
      simp only [List.append_nil]
    rcases hparse : parse tokens with (_ | t) | items
    · simp only [readItems, hscan, hparse]
    · exact absurd hparse (mem_starts_iff.mp hstarts t)
    · simp only [readItems, hscan, hparse]

/-- A text is rejected just for its first problem: a token that no program goes on with, the end of tokens that start
a program and make up none, or a character that starts no lexeme. -/
theorem readItems_eq_error_iff_firstProblem (text : String) (file : Option String) (e : ReadError) :
    readItems text file = .error e ↔ ∃ p, FirstProblem text e.cause p ∧
      e.loc = { file := file, line := some p.line, column := some p.column } := by
  constructor
  · intro h
    obtain ⟨htoken, hcharacter⟩ := SplitsTo.of_scanFrom {} text.toList
    unfold readItems at h
    dsimp only at h
    split at h
    case h_1 => cases h
    case h_2 t hparse =>
      obtain rfl := Except.error.inj h
      obtain ⟨-, before, rest, htokens, ht, hstarts, hbad⟩ := parse_eq_error_iff.mp hparse
      obtain ⟨after, rfl⟩ := List.head?_eq_some_iff.mp ht.symm
      obtain ⟨rest, hsplits⟩ := htoken before t after htokens
      exact ⟨t.start, .token hsplits hstarts (hbad t rfl), rfl⟩
    case h_3 c p hending hnot =>
      obtain rfl := Except.error.inj h
      obtain ⟨rest, hsplits, hnone⟩ := hcharacter c p hending
      exact ⟨p, .character hsplits (mem_starts_iff.mpr hnot) (lexeme?_eq_none_iff.mp hnone), rfl⟩
    case h_4 hparse hending =>
      obtain rfl := Except.error.inj h
      have hsplits := scan_eq_iff.mp (show scan text = ⟨(scan text).tokens, .complete⟩ by rw [← hending])
      have hstarts : (scan text).tokens ∈ starts (words ProgramText) := mem_starts_iff.mpr fun t ht => by
        rw [hparse] at ht
        cases ht
      exact ⟨_, .finish hsplits hstarts (parse_eq_error_iff.mp hparse).1 rfl, rfl⟩
  · obtain ⟨cause, loc⟩ := e
    rintro ⟨p, hproblem, rfl⟩
    exact readItems_of_firstProblem hproblem file

end Ownership
