import Ownership.Source.Token

/-!
How a text splits into tokens. The lexemes are given by classes of texts: blanks,
comments, keywords, names, numbers, regions and operators. A text splits by taking
the longest lexeme from its start, again and again; scanning does just this.
-/
namespace Ownership

open Token

/-- The words that are no names. -/
def reservedWords : List String :=
  ["struct", "enum", "fn", "extern", "let", "if", "else", "loop", "while", "break", "continue", "return", "match", "_",
    "true", "false", "new", "copy", "mut", "ref"]

/-- The texts of the tokens that are no words. -/
def symbols : List String :=
  ["\x7b", "\x7d", ",", ":", "(", ")", ";", "->", "<", ">", "&", "[", "]", "=", "=>", "::", "||", "&&", "==", "!=",
    "<=", ">=", "+", "-", "*", "/", "!", "."]

/-- The characters that words start with. -/
def Letter (c : Char) : Prop := 'A' ≤ c ∧ c ≤ 'Z' ∨ 'a' ≤ c ∧ c ≤ 'z' ∨ c = '_'

def Digit (c : Char) : Prop := '0' ≤ c ∧ c ≤ '9'

/-- The texts of tokens by their terminal, and those that are skipped. -/
inductive Lexeme : Option Terminal → List Char → Prop where
  | blank {c : Char} (h : c ∈ [' ', '\t', '\n', '\r', '\x0c']) : Lexeme none [c]
  | comment {body : List Char} (h : '\n' ∉ body) : Lexeme none ('/' :: '/' :: body)
  | keyword {c : Char} {body : List Char} (hc : Letter c) (hbody : ∀ x ∈ body, Letter x ∨ Digit x)
      (h : String.ofList (c :: body) ∈ reservedWords) : Lexeme (some (.fixed (String.ofList (c :: body)))) (c :: body)
  | name {c : Char} {body : List Char} (hc : Letter c) (hbody : ∀ x ∈ body, Letter x ∨ Digit x)
      (h : String.ofList (c :: body) ∉ reservedWords) : Lexeme (some .name) (c :: body)
  | int {c : Char} {body : List Char} (h : ∀ x ∈ c :: body, Digit x) : Lexeme (some .int) (c :: body)
  | region {c : Char} {body : List Char} (hc : Letter c) (hbody : ∀ x ∈ body, Letter x ∨ Digit x) :
      Lexeme (some .region) ('\'' :: c :: body)
  | operator {text : String} (h : text ∈ symbols) : Lexeme (some (.fixed text)) text.toList

/-- No lexeme at the start of the text is longer. -/
def Longest (w text : List Char) : Prop := ∀ k v, Lexeme k v → v <+: text → v.length ≤ w.length

/-- The text from a position on splits into the tokens. -/
inductive Splits : Position → List Char → List Token → Prop where
  | nil {p : Position} : Splits p [] []
  | skip {p : Position} {w rest : List Char} {ts : List Token} (h : Lexeme none w) (hmax : Longest w (w ++ rest))
      (hrest : Splits (p.afterAll w) rest ts) : Splits p (w ++ rest) ts
  | token {p : Position} {w rest : List Char} {t : Terminal} {ts : List Token} (h : Lexeme (some t) w)
      (hmax : Longest w (w ++ rest)) (hrest : Splits (p.afterAll w) rest ts) :
      Splits p (w ++ rest) (⟨t, String.ofList w, p, p.afterAll w⟩ :: ts)

/-- What no blank satisfies keeps a character from being one. -/
theorem not_isBlank {test : Char → Bool} (htest : [' ', '\t', '\n', '\r', '\x0c'].any test = false)
    {c : Char} (h : test c = true) : isBlank c = false := by
  rw [Bool.eq_false_iff]
  intro hblank
  have hmem : c ∈ [' ', '\t', '\n', '\r', '\x0c'] := by simpa [isBlank, or_assoc] using hblank
  exact List.any_eq_false.mp htest c hmem h

theorem ne_slash {test : Char → Bool} (htest : test '/' = false) {c : Char} (h : test c = true) : c ≠ '/' := by
  rintro rfl
  rw [htest] at h
  cases h

theorem isAlpha_eq (c : Char) : c.isAlpha = (decide (c.val ≥ 'A'.val ∧ c.val ≤ 'Z'.val) ||
    (decide (c.val ≥ 'a'.val) && decide (c.val ≤ 'z'.val))) := rfl

theorem isNameStart_iff {c : Char} : isNameStart c = true ↔ Letter c := by
  simp [isNameStart, isAlpha_eq, Letter, Char.le_def, or_assoc]

theorem isDigit_iff {c : Char} : c.isDigit = true ↔ Digit c := by
  simp [Digit, Char.isDigit, Char.le_def]

theorem isNameChar_iff {c : Char} : isNameChar c = true ↔ Letter c ∨ Digit c := by
  rw [← isNameStart_iff, ← isDigit_iff]
  simp only [isNameChar, isNameStart, Char.isAlphanum, Bool.or_eq_true]
  exact or_right_comm

theorem not_isNameStart_of_isDigit {c : Char} (h : c.isDigit = true) : isNameStart c = false := by
  have hne : c ≠ '_' := by
    rintro rfl
    revert h
    decide
  simp only [Char.isDigit, Bool.and_eq_true, decide_eq_true_eq, UInt32.le_iff_toNat_le] at h
  simp only [isNameStart, isAlpha_eq, hne, decide_false, Bool.or_false, Bool.or_eq_false_iff,
    Bool.and_eq_false_iff, decide_eq_false_iff_not, ge_iff_le, UInt32.le_iff_toNat_le]
  have hbounds : 'A'.val.toNat = 65 ∧ 'Z'.val.toNat = 90 ∧ 'a'.val.toNat = 97 ∧ 'z'.val.toNat = 122 ∧
    '0'.val.toNat = 48 ∧ '9'.val.toNat = 57 := by decide
  omega

theorem isNameChar_of_isNameStart {c : Char} (h : isNameStart c = true) : isNameChar c = true := by
  simp only [isNameStart, Bool.or_eq_true] at h
  simp only [isNameChar, Char.isAlphanum, Bool.or_eq_true]
  exact h.imp_left .inl

/-- A prefix in a class is no longer than the run of the class. -/
theorem length_le_run {test : Char → Bool} {w cs : List Char} (hw : ∀ x ∈ w, test x = true) (h : w <+: cs) :
    w.length ≤ run test cs := by
  obtain ⟨rest, rfl⟩ := h
  rw [run, List.takeWhile_append_of_pos hw, List.length_append]
  exact Nat.le_add_right _ _

theorem mem_take_run (test : Char → Bool) (cs : List Char) : ∀ x ∈ cs.take (run test cs), test x = true := by
  have htake : cs.take (run test cs) = cs.takeWhile test :=
    (List.prefix_iff_eq_take.mp (List.takeWhile_prefix test)).symm
  intro x hx
  rw [htake] at hx
  exact List.all_eq_true.mp List.all_takeWhile x hx

theorem run_le (test : Char → Bool) (cs : List Char) : run test cs ≤ cs.length :=
  (List.takeWhile_prefix test).length_le

theorem isOperator_iff {text : String} : Terminal.isOperator text = true ↔ text ∈ symbols := by
  have hsame : symbols.Perm (Terminal.operators.map Prod.fst) := by decide
  rw [Terminal.isOperator, List.lookup_isSome_iff, hsame.mem_iff]
  simp

theorem isKeyword_iff {word : String} :
    (Terminal.keywords.lookup word).isSome = true ↔ word ∈ reservedWords := by
  have hsame : reservedWords.Perm (Terminal.keywords.map Prod.fst) := by decide
  rw [List.lookup_isSome_iff, hsame.mem_iff]
  simp

/-- Operators have one character or two, and what starts one starts nothing else but a comment. -/
theorem operator_shape {text : String} (h : text ∈ symbols) :
    ∃ c, (text.toList = [c] ∨ ∃ d, text.toList = [c, d] ∧ c ≠ '/') ∧ isBlank c = false ∧ isNameStart c = false ∧
      c.isDigit = false ∧ c ≠ '\'' := by
  have hall : ∀ text ∈ symbols,
      (text.toList.length = 1 ∨ (text.toList.length = 2 ∧ text.toList.head? ≠ some '/')) ∧
        text.toList.head?.all (fun c => !isBlank c && !isNameStart c && !c.isDigit && c ≠ '\'') = true := by
    decide
  obtain ⟨hlength, hfirst⟩ := hall text h
  match htext : text.toList with
  | [] => simp [htext] at hlength
  | [c] =>
    rw [htext] at hfirst
    exact ⟨c, .inl rfl, by simpa [and_assoc] using hfirst⟩
  | [c, d] =>
    rw [htext] at hfirst hlength
    exact ⟨c, .inr ⟨d, rfl, by simpa using hlength⟩, by simpa [and_assoc] using hfirst⟩
  | c :: d :: e :: rest => simp [htext] at hlength

theorem operator?_sound {c : Char} {cs : List Char} {t : Terminal} {n : Nat} (h : operator? c cs = some (t, n)) :
    Lexeme (some t) (c :: cs.take n) ∧ n ≤ cs.length := by
  unfold operator? at h
  simp only at h
  split at h
  · rename_i htwo
    obtain ⟨hne, htwo⟩ := Bool.and_eq_true_iff.mp htwo
    obtain ⟨rfl, rfl⟩ := Prod.mk.inj (Option.some.inj h)
    refine ⟨?_, List.length_pos_iff.mpr (by simpa using hne)⟩
    have hop := Lexeme.operator (isOperator_iff.mp htwo)
    rwa [String.toList_ofList] at hop
  · split at h
    · rename_i hone
      obtain ⟨rfl, rfl⟩ := Prod.mk.inj (Option.some.inj h)
      refine ⟨?_, Nat.zero_le _⟩
      have hop := Lexeme.operator (isOperator_iff.mp hone)
      rwa [String.toList_singleton] at hop
    · cases h

/-- What is found at the start of a text is a lexeme. -/
theorem lexeme?_sound {c : Char} {cs : List Char} {k : Option Terminal} {n : Nat} (h : lexeme? c cs = some (k, n)) :
    Lexeme k (c :: cs.take n) ∧ n ≤ cs.length := by
  unfold lexeme? at h
  split at h
  · rename_i hblank
    obtain ⟨rfl, rfl⟩ := Prod.mk.inj (Option.some.inj h)
    exact ⟨.blank (by simpa [isBlank, or_assoc] using hblank), Nat.zero_le _⟩
  split at h
  · rename_i hcomment
    obtain ⟨rfl, rfl⟩ := Prod.mk.inj (Option.some.inj h)
    refine ⟨?_, run_le _ cs⟩
    simp only [Bool.and_eq_true, decide_eq_true_eq] at hcomment
    obtain ⟨rfl, hhead⟩ := hcomment
    obtain ⟨rest, rfl⟩ := List.head?_eq_some_iff.mp hhead
    have hbody := mem_take_run (· ≠ '\n') ('/' :: rest)
    have hrun : run (· ≠ '\n') ('/' :: rest) = run (· ≠ '\n') rest + 1 := by simp [run]
    rw [hrun, List.take_succ_cons] at hbody ⊢
    refine .comment fun hnewline => ?_
    simpa using hbody '\n' (List.mem_cons_of_mem _ hnewline)
  split at h
  · rename_i hstart
    obtain ⟨rfl, rfl⟩ := Prod.mk.inj (Option.some.inj h)
    refine ⟨?_, run_le _ cs⟩
    have hletter := isNameStart_iff.mp hstart
    have hbody := fun x hx => isNameChar_iff.mp (mem_take_run isNameChar cs x hx)
    unfold Terminal.ofWord
    split
    · rename_i hkeyword
      exact .keyword hletter hbody (isKeyword_iff.mp hkeyword)
    · rename_i hkeyword
      exact .name hletter hbody fun hmem => hkeyword (isKeyword_iff.mpr hmem)
  split at h
  · rename_i hdigit
    obtain ⟨rfl, rfl⟩ := Prod.mk.inj (Option.some.inj h)
    have hbody := fun x hx => isDigit_iff.mp (mem_take_run Char.isDigit cs x hx)
    exact ⟨.int (List.forall_mem_cons.mpr ⟨isDigit_iff.mp hdigit, hbody⟩), run_le _ cs⟩
  split at h
  · rename_i hregion
    obtain ⟨rfl, rfl⟩ := Prod.mk.inj (Option.some.inj h)
    refine ⟨?_, run_le _ cs⟩
    simp only [Bool.and_eq_true, decide_eq_true_eq] at hregion
    obtain ⟨rfl, hhead⟩ := hregion
    match cs with
    | [] => simp at hhead
    | d :: rest =>
      have hstart : isNameStart d = true := by simpa using hhead
      have hchar := isNameChar_of_isNameStart hstart
      have hbody := mem_take_run isNameChar (d :: rest)
      have hrun : run isNameChar (d :: rest) = run isNameChar rest + 1 := by simp [run, hchar]
      rw [hrun, List.take_succ_cons] at hbody ⊢
      exact .region (isNameStart_iff.mp hstart) fun x hx => isNameChar_iff.mp (hbody x (List.mem_cons_of_mem _ hx))
  · obtain ⟨⟨t, m⟩, hop, heq⟩ := Option.map_eq_some_iff.mp h
    obtain ⟨rfl, rfl⟩ := Prod.mk.inj heq
    exact operator?_sound hop

/-- A word at the start of a text is found, or a longer one. -/
theorem lexeme?_word {c : Char} {body cs : List Char} (hc : Letter c)
    (hbody : ∀ x ∈ body, Letter x ∨ Digit x) (hp : body <+: cs) : ∃ n,
      lexeme? c cs = some (some (.ofWord (String.ofList (c :: cs.take n))), n) ∧ body.length ≤ n ∧
        (body.length = n → cs.take n = body) := by
  rw [← isNameStart_iff] at hc
  refine ⟨run isNameChar cs, ?_, length_le_run (fun x hx => isNameChar_iff.mpr (hbody x hx)) hp, fun heq => ?_⟩
  · rw [lexeme?, not_isBlank (by decide) hc]
    simp [ne_slash (by decide) hc, hc]
  · rw [← heq]
    exact (List.prefix_iff_eq_take.mp hp).symm

/-- A lexeme at the start of a text is found, or a longer one. -/
theorem lexeme?_complete {k : Option Terminal} {w : List Char} {c : Char} {cs : List Char} (h : Lexeme k w)
    (hp : w <+: c :: cs) :
    ∃ k' n, lexeme? c cs = some (k', n) ∧ w.length ≤ n + 1 ∧ (w.length = n + 1 → k' = k) := by
  cases h with
  | @blank x hx =>
    obtain ⟨rfl, -⟩ := List.cons_prefix_cons.mp hp
    have hblank : isBlank x = true := by simpa [isBlank, or_assoc] using hx
    exact ⟨none, 0, by rw [lexeme?, if_pos hblank], Nat.le_refl 1, fun _ => rfl⟩
  | @comment body hbody =>
    obtain ⟨rfl, htail⟩ := List.cons_prefix_cons.mp hp
    have hhead : cs.head? = some '/' := by
      obtain ⟨rest, rfl⟩ := htail
      rfl
    have hrun : ('/' :: body).length ≤ run (· ≠ '\n') cs := by
      refine length_le_run (fun x hx => ?_) htail
      rcases List.mem_cons.mp hx with rfl | hx
      · decide
      · simp only [decide_eq_true_eq]
        rintro rfl
        exact hbody hx
    refine ⟨none, run (· ≠ '\n') cs, ?_, Nat.succ_le_succ hrun, fun _ => rfl⟩
    rw [lexeme?, show isBlank '/' = false by decide]
    simp [hhead]
  | @keyword x body hx hbody hkeyword =>
    obtain ⟨rfl, htail⟩ := List.cons_prefix_cons.mp hp
    obtain ⟨n, hn, hle, hword⟩ := lexeme?_word hx hbody htail
    refine ⟨_, n, hn, Nat.succ_le_succ hle, fun heq => ?_⟩
    rw [hword (Nat.succ_inj.mp heq), Terminal.ofWord, if_pos (isKeyword_iff.mpr hkeyword)]
  | @name x body hx hbody hkeyword =>
    obtain ⟨rfl, htail⟩ := List.cons_prefix_cons.mp hp
    obtain ⟨n, hn, hle, hword⟩ := lexeme?_word hx hbody htail
    refine ⟨_, n, hn, Nat.succ_le_succ hle, fun heq => ?_⟩
    rw [hword (Nat.succ_inj.mp heq), Terminal.ofWord, if_neg fun hmem => hkeyword (isKeyword_iff.mp hmem)]
  | @int x body hbody =>
    obtain ⟨rfl, htail⟩ := List.cons_prefix_cons.mp hp
    simp only [← isDigit_iff] at hbody
    obtain ⟨hx, hbody⟩ := List.forall_mem_cons.mp hbody
    refine ⟨some .int, run Char.isDigit cs, ?_, Nat.succ_le_succ (length_le_run hbody htail), fun _ => rfl⟩
    rw [lexeme?, not_isBlank (by decide) hx]
    simp [ne_slash (by decide) hx, not_isNameStart_of_isDigit hx, hx]
  | @region x body hx hbody =>
    obtain ⟨rfl, htail⟩ := List.cons_prefix_cons.mp hp
    have hhead : cs.head? = some x := by
      obtain ⟨rest, rfl⟩ := htail
      rfl
    simp only [← isNameChar_iff] at hbody
    rw [← isNameStart_iff] at hx
    have hchars : ∀ y ∈ x :: body, isNameChar y = true :=
      List.forall_mem_cons.mpr ⟨isNameChar_of_isNameStart hx, hbody⟩
    refine ⟨some .region, run isNameChar cs, ?_, Nat.succ_le_succ (length_le_run hchars htail), fun _ => rfl⟩
    rw [lexeme?, show isBlank '\'' = false by decide]
    simp [hhead, hx, show isNameStart '\'' = false by decide]
  | @operator text hop =>
    obtain ⟨x, hshape, hblank, hstart, hdigit, hquote⟩ := operator_shape hop
    have hfound : c = x → ¬(x = '/' ∧ cs.head? = some '/') →
        lexeme? c cs = (operator? x cs).map fun found => (some found.1, found.2) := by
      rintro rfl hcomment
      rw [lexeme?, hblank]
      simp only [Bool.false_eq_true, if_false, hstart, hdigit, hquote, decide_false, Bool.false_and,
        Bool.and_eq_true, decide_eq_true_eq, if_neg hcomment]
    have hone : Terminal.isOperator text = true := isOperator_iff.mpr hop
    rcases hshape with htext | ⟨d, htext, hslash⟩
    · rw [htext] at hp ⊢
      obtain ⟨rfl, -⟩ := List.cons_prefix_cons.mp hp
      have hsingle : String.singleton x = text := by
        rw [← String.toList_inj, String.toList_singleton, htext]
      by_cases hcomment : x = '/' ∧ cs.head? = some '/'
      · obtain ⟨rfl, hhead⟩ := hcomment
        obtain ⟨rest, rfl⟩ := List.head?_eq_some_iff.mp hhead
        refine ⟨none, run (· ≠ '\n') ('/' :: rest), ?_, by simp, fun heq => ?_⟩
        · rw [lexeme?, hblank]
          simp
        · simp [run] at heq
      · rw [hfound rfl hcomment, operator?]
        simp only [hsingle, hone, if_true]
        split
        · exact ⟨_, 1, rfl, by simp, by simp⟩
        · exact ⟨_, 0, rfl, by simp, fun _ => rfl⟩
    · rw [htext] at hp ⊢
      obtain ⟨rfl, htail⟩ := List.cons_prefix_cons.mp hp
      obtain ⟨rest, rfl⟩ := htail
      have hpair : String.ofList [x, d] = text := by rw [← htext, String.ofList_toList]
      refine ⟨some (.fixed text), 1, ?_, Nat.le_refl 2, fun _ => rfl⟩
      rw [hfound rfl (fun hcomment => hslash hcomment.1), operator?]
      simp [hpair, hone]

theorem Lexeme.ne_nil {k : Option Terminal} {w : List Char} (h : Lexeme k w) : w ≠ [] := by
  cases h with
  | @operator text hop =>
    obtain ⟨c, hshape, -⟩ := operator_shape hop
    rcases hshape with htext | ⟨d, htext, -⟩ <;> simp [htext]
  | _ => exact List.cons_ne_nil _ _

/-- What is found at the start of a text is its longest lexeme. -/
theorem lexeme?_eq_some_iff {c : Char} {cs : List Char} {k : Option Terminal} {n : Nat} :
    lexeme? c cs = some (k, n) ↔
      Lexeme k (c :: cs.take n) ∧ n ≤ cs.length ∧ Longest (c :: cs.take n) (c :: cs) := by
  constructor
  · intro h
    obtain ⟨hlexeme, hle⟩ := lexeme?_sound h
    refine ⟨hlexeme, hle, fun k' v hv hp => ?_⟩
    obtain ⟨k₁, n₁, h₁, hlength, -⟩ := lexeme?_complete hv hp
    rw [h] at h₁
    obtain ⟨rfl, rfl⟩ := Prod.mk.inj (Option.some.inj h₁)
    simpa [Nat.min_eq_left hle] using hlength
  · rintro ⟨hlexeme, hle, hmax⟩
    have hp : c :: cs.take n <+: c :: cs := List.cons_prefix_cons.mpr ⟨rfl, List.take_prefix n cs⟩
    have hn : (c :: cs.take n).length = n + 1 := by simp [Nat.min_eq_left hle]
    obtain ⟨k₁, n₁, h₁, hlength, hkind⟩ := lexeme?_complete hlexeme hp
    obtain ⟨hfound, hle₁⟩ := lexeme?_sound h₁
    have hlonger := hmax k₁ _ hfound (List.cons_prefix_cons.mpr ⟨rfl, List.take_prefix n₁ cs⟩)
    rw [hn] at hlength hkind hlonger
    have hn₁ : n₁ = n := by
      simp only [List.length_cons, List.length_take, Nat.min_eq_left hle₁] at hlonger
      omega
    rw [h₁, hn₁, hkind (by rw [hn₁])]

theorem Splits.of_scanFrom {p : Position} {cs : List Char} {ts : List Token}
    (h : scanFrom p cs = ⟨ts, .complete⟩) : Splits p cs ts := by
  fun_induction scanFrom p cs generalizing ts with
  | case1 p =>
    obtain ⟨rfl, -⟩ := Scan.mk.inj h
    exact .nil
  | case2 p c cs hnone => cases (Scan.mk.inj h).2
  | case3 p c cs n text stop rest hfound =>
    rename_i ih
    obtain ⟨hlexeme, -, hmax⟩ := lexeme?_eq_some_iff.mp hfound
    have hsplit : c :: cs.take n ++ cs.drop n = c :: cs := by simp
    rw [← hsplit] at hmax ⊢
    exact .skip hlexeme hmax (ih h)
  | case4 p c cs n text stop rest t hfound =>
    rename_i ih
    obtain ⟨hlexeme, -, hmax⟩ := lexeme?_eq_some_iff.mp hfound
    have hsplit : c :: cs.take n ++ cs.drop n = c :: cs := by simp
    obtain ⟨rfl, hending⟩ := Scan.mk.inj h
    rw [← hsplit] at hmax ⊢
    exact .token hlexeme hmax (ih (by rw [← hending]))

/-- The longest lexeme at the start of a text is the one that scanning takes. -/
theorem scanFrom_append {p : Position} {k : Option Terminal} {w rest : List Char} (h : Lexeme k w)
    (hmax : Longest w (w ++ rest)) : scanFrom p (w ++ rest) =
      k.elim (scanFrom (p.afterAll w) rest) fun t => { scanFrom (p.afterAll w) rest with
        tokens := ⟨t, String.ofList w, p, p.afterAll w⟩ :: (scanFrom (p.afterAll w) rest).tokens } := by
  match w with
  | [] => exact absurd rfl h.ne_nil
  | c :: body =>
    have htake : c :: (body ++ rest).take body.length = c :: body := by simp
    have hfound : lexeme? c (body ++ rest) = some (k, body.length) := by
      rw [lexeme?_eq_some_iff, htake]
      exact ⟨h, by simp, hmax⟩
    rw [List.cons_append, scanFrom, hfound]
    simp only [htake, List.drop_left]
    cases k <;> rfl

theorem Splits.scanFrom {p : Position} {cs : List Char} {ts : List Token} (h : Splits p cs ts) :
    scanFrom p cs = ⟨ts, .complete⟩ := by
  induction h with
  | nil => rw [Ownership.scanFrom]
  | skip h hmax _ ih => rw [scanFrom_append h hmax, Option.elim_none, ih]
  | token h hmax _ ih => rw [scanFrom_append h hmax, Option.elim_some, ih]

/-- Scanning gets to the end of a text just if it splits, and finds its tokens. -/
theorem scan_eq_iff {text : String} {ts : List Token} : scan text = ⟨ts, .complete⟩ ↔ Splits {} text.toList ts :=
  ⟨Splits.of_scanFrom, Splits.scanFrom⟩

end Ownership
