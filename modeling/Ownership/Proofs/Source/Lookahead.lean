import Mathlib.Computability.Language
import Mathlib.Order.CompletePartialOrder
import Ownership.Proofs.Faults
import Ownership.Proofs.Source.Parsing

/-!
What one run of a parser says of others. A parser that looks one token ahead and
never goes back does the same on all texts that start alike, up to the token that
it looks at. So when it is stuck at a token, it is stuck there whatever follows,
and if what it has read can be completed, that token is the first one that cannot
be there. Fuel is counted in tokens: a run that is stuck before it has read so
many is not short of it.
-/
namespace Ownership.Surface

open Outcome

variable {κ α β : Type}

/-- A keyword or an operator. -/
def lit (text : String) : Language Token := {ts | Fixed text ts}

/-- The words that derive some tree. -/
def words (P : Phrase α) : Language Token := {ts | ∃ x, P ts x}

/-- What can be completed to a word of the language. -/
def starts (L : Language Token) : Language Token := {us | ∃ vs, us ++ vs ∈ L}

section

variable {P : Phrase α} {L M : Language Token} {us vs : List Token} {text : String}

theorem mem_lit : us ∈ lit text ↔ Fixed text us := Iff.rfl

theorem mem_words : us ∈ words P ↔ ∃ x, P us x := Iff.rfl

theorem le_of_mem (h : ∀ us, us ∈ L → us ∈ M) : L ≤ M := h

theorem lit_inhabited (text : String) : [⟨.fixed text, text, {}, {}⟩] ∈ lit text := Fixed.mk rfl

theorem starts_mono (hLM : L ≤ M) (h : us ∈ starts L) : us ∈ starts M := by
  obtain ⟨vs, hvs⟩ := h
  exact ⟨vs, hLM hvs⟩

theorem starts_mul_left (h : us ∈ starts L) (hM : ∃ vs, vs ∈ M) : us ∈ starts (L * M) := by
  obtain ⟨vs, hvs⟩ := h
  obtain ⟨ws, hws⟩ := hM
  exact ⟨vs ++ ws, List.append_assoc us vs ws ▸ Language.append_mem_mul hvs hws⟩

theorem starts_mul_right (h : us ∈ L) (hM : vs ∈ starts M) : us ++ vs ∈ starts (L * M) := by
  obtain ⟨ws, hws⟩ := hM
  exact ⟨ws, List.append_assoc us vs ws ▸ Language.append_mem_mul h hws⟩

end

/-- A run that starts at `c` with the outcome `o`, next to others that start at `cur r` with the outcomes
`out r`. If it succeeds it has read a word, and so much reads any other that meets the same tokens with the
same one behind them. If it is stuck, what it has read starts a word, and no other that meets the same
tokens gets over the one that it is stuck at, unless it had read `k` tokens and may be short of fuel. -/
structure Steady (c : Cursor) (o : Except Stuck (α × Cursor)) (cur : κ → Cursor)
    (out : κ → Except Stuck (α × Cursor)) (k : Nat) (L : Language Token) : Prop where
  inhabited : ∃ us, us ∈ L
  ok : ∀ ⦃x d⦄, o = .ok (x, d) → ∃ us ∈ L, c.rest = us ++ d.rest ∧
    ∀ r y d' ts, out r = .ok (y, d') → (cur r).rest = us ++ ts → ts.head? = d.rest.head? → d'.rest = ts
  stuck : ∀ ⦃e⦄, o = .error e → ∃ us rest, c.rest = us ++ rest ∧ e = rest.head? ∧ us ∈ starts L ∧
    (us.length < k → ∀ t ∈ rest.head?, ∀ r ts, (cur r).rest = us ++ t :: ts → ∀ x, out r ≠ .ok x)

theorem Cursor.sees_congr {c d : Cursor} (h : c.rest.head? = d.rest.head?) (text : String) :
    c.sees text = d.sees text := by
  rw [sees, h, sees]

namespace Steady

variable {c : Cursor} {o : Except Stuck (α × Cursor)} {cur : κ → Cursor} {out : κ → Except Stuck (α × Cursor)}
  {k : Nat} {L M : Language Token}

theorem head?_append_congr {us ts rest : List Token} (h : ts.head? = rest.head?) :
    (us ++ ts).head? = (us ++ rest).head? := by
  rw [List.head?_append, List.head?_append, h]

theorem wider (hLM : L ≤ M) (h : Steady c o cur out k L) : Steady c o cur out k M := by
  refine ⟨h.inhabited.imp fun _ hus => hLM hus, fun x d ho => ?_, fun e ho => ?_⟩
  · obtain ⟨us, hus, hok⟩ := h.ok ho
    exact ⟨us, hLM hus, hok⟩
  · obtain ⟨us, rest, hrest, he, hstarts, hlocal⟩ := h.stuck ho
    exact ⟨us, rest, hrest, he, starts_mono hLM hstarts, hlocal⟩

theorem fewer {m : Nat} (h : Steady c o cur out m L) (hk : k ≤ m) : Steady c o cur out k L := by
  refine ⟨h.inhabited, h.ok, fun e ho => ?_⟩
  obtain ⟨us, rest, hrest, he, hstarts, hlocal⟩ := h.stuck ho
  exact ⟨us, rest, hrest, he, hstarts, fun hlt => hlocal (Nat.lt_of_lt_of_le hlt hk)⟩

/-- Only the runs that look at the same token matter, and only if they succeed. -/
theorem of_runs {out' : κ → Except Stuck (α × Cursor)} (h : Steady c o cur out' k L)
    (hruns : ∀ r x, (cur r).rest.head? = c.rest.head? → out r = .ok x → out' r = .ok x) :
    Steady c o cur out k L := by
  refine ⟨h.inhabited, fun x d ho => ?_, fun e ho => ?_⟩
  · obtain ⟨us, hus, hrest, hlocal⟩ := h.ok ho
    refine ⟨us, hus, hrest, fun r y d' ts hout hts hhead => hlocal r y d' ts (hruns r _ ?_ hout) hts hhead⟩
    rw [hts, hrest]
    exact head?_append_congr hhead
  · obtain ⟨us, rest, hrest, he, hstarts, hlocal⟩ := h.stuck ho
    refine ⟨us, rest, hrest, he, hstarts, fun hlt t ht r ts hts x hout => ?_⟩
    refine hlocal hlt t ht r ts hts x (hruns r x ?_ hout)
    rw [hts, hrest]
    exact head?_append_congr (Option.mem_def.mp ht).symm

/-- Runs without fuel do not succeed. -/
theorem of_succ (g : κ → Nat) {F : κ → Nat → Except Stuck (α × Cursor)} (hzero : ∀ r, F r 0 = (cur r).stuck)
    (h : ∀ m : κ → Nat, Steady c o cur (fun r => F r (m r + 1)) k L) : Steady c o cur (fun r => F r (g r)) k L := by
  refine (h fun r => g r - 1).of_runs fun r x _ hout => ?_
  cases hg : g r with
  | zero =>
    rw [hg, hzero] at hout
    cases hout
  | succ m => rwa [hg] at hout

theorem done {x : α} {y : κ → α} : Steady c (.ok (x, c)) cur (fun r => .ok (y r, cur r)) k 1 := by
  refine ⟨⟨[], Language.nil_mem_one⟩, fun x d ho => ?_, fun e ho => by cases ho⟩
  obtain ⟨rfl, rfl⟩ := Prod.mk.inj (Except.ok.inj ho)
  refine ⟨[], Language.nil_mem_one, rfl, fun r y d' ts hout hts _ => ?_⟩
  obtain ⟨rfl, rfl⟩ := Prod.mk.inj (Except.ok.inj hout)
  exact hts

/-- A parser that is stuck at once has read nothing, which starts any word. -/
theorem halt (hL : ∃ us, us ∈ L) (hlocal : 0 < k → ∀ r x, (cur r).rest.head? = c.rest.head? → out r ≠ .ok x) :
    Steady c c.stuck cur out k L := by
  refine ⟨hL, fun x d ho => (by cases ho), fun e ho => ?_⟩
  refine ⟨[], c.rest, rfl, (Except.error.inj ho).symm, hL, fun hk t ht r ts hts x => hlocal hk r x ?_⟩
  rw [hts, Option.mem_def.mp ht]
  rfl

/-- Reading one more token first. -/
theorem advance {K : Language Token} {t : Token} {rest : List Token} (hrest : c.rest = t :: rest) (hK : [t] ∈ K)
    (h : Steady c.next o (fun r => (cur r).next) out (k - 1) M) : Steady c o cur out k (K * M) := by
  have hnext : c.next.rest = rest := by simp [Cursor.next, hrest]
  have hothers {r : κ} {ts : List Token} (hr : (cur r).rest = t :: ts) : (cur r).next.rest = ts := by
    simp [Cursor.next, hr]
  refine ⟨?_, fun x d ho => ?_, fun e ho => ?_⟩
  · obtain ⟨us, hus⟩ := h.inhabited
    exact ⟨[t] ++ us, Language.append_mem_mul hK hus⟩
  · obtain ⟨us, hus, hread, hlocal⟩ := h.ok ho
    refine ⟨[t] ++ us, Language.append_mem_mul hK hus, ?_, fun r y d' ts hout hts hhead => ?_⟩
    · rw [hrest, ← hnext, hread]
      rfl
    · exact hlocal r y d' ts hout (hothers hts) hhead
  · obtain ⟨us, rest', hread, he, hstarts, hlocal⟩ := h.stuck ho
    refine ⟨[t] ++ us, rest', ?_, he, starts_mul_right hK hstarts, fun hlt u hu r ts hts => ?_⟩
    · rw [hrest, ← hnext, hread]
      rfl
    · rw [List.length_append, List.length_singleton] at hlt
      exact hlocal (by omega) u hu r ts (hothers hts)

theorem next {text : String} (hsees : c.sees text = true)
    (h : Steady c.next o (fun r => (cur r).next) out (k - 1) M) : Steady c o cur out k (lit text * M) := by
  obtain ⟨t, rest, hrest, ht⟩ := Cursor.sees_iff.mp hsees
  exact h.advance hrest (.mk ht)

/-- What the next token decides is decided alike by all that look at it. -/
theorem ite {text : String} {a b : Except Stuck (α × Cursor)} {a' b' : κ → Except Stuck (α × Cursor)}
    (ha : c.sees text = true → Steady c a cur a' k L) (hb : c.sees text = false → Steady c b cur b' k M) :
    Steady c (if c.sees text then a else b) cur (fun r => if (cur r).sees text then a' r else b' r) k (L + M) := by
  cases hsees : c.sees text with
  | true =>
    refine (wider (le_add_of_nonneg_right bot_le) (ha hsees)).of_runs fun r x hr hout => ?_
    rwa [Cursor.sees_congr hr, hsees, if_pos rfl] at hout
  | false =>
    refine (wider (le_add_of_nonneg_left bot_le) (hb hsees)).of_runs fun r x hr hout => ?_
    rwa [Cursor.sees_congr hr, hsees, if_neg Bool.false_ne_true] at hout

/-- The same for anything that the next token decides. -/
theorem choose {δ : Type} {D : Cursor → δ} (hD : ∀ c d : Cursor, c.rest.head? = d.rest.head? → D c = D d)
    {out' : δ → κ → Except Stuck (α × Cursor)} (hout : ∀ r x, D (cur r) = x → out r = out' x r)
    (h : Steady c o cur (out' (D c)) k L) : Steady c o cur out k L :=
  h.of_runs fun r x hr hx => by rwa [hout r _ (hD _ _ hr)] at hx

/-- One parser after another, of whose words the first has at least `m` tokens each. -/
theorem andThen {m : Nat} {f : α × Cursor → Except Stuck (β × Cursor)} {g : κ → α × Cursor → Except Stuck (β × Cursor)}
    (h : Steady c o cur out k L) (hm : ∀ us ∈ L, m ≤ us.length) (hM : ∃ vs, vs ∈ M)
    (hf : ∀ x d, o = .ok (x, d) →
      Steady d (f (x, d)) (fun r : κ × α × Cursor => r.2.2) (fun r => g r.1 (r.2.1, r.2.2)) (k - m) M) :
    Steady c (o >>= f) cur (fun r => out r >>= g r) k (L * M) := by
  refine ⟨?_, fun x d ho => ?_, fun e ho => ?_⟩
  · obtain ⟨us, hus⟩ := h.inhabited
    obtain ⟨vs, hvs⟩ := hM
    exact ⟨us ++ vs, Language.append_mem_mul hus hvs⟩
  · obtain ⟨⟨x₁, d₁⟩, ho₁, ho₂⟩ := bind_eq_ok.mp ho
    obtain ⟨us, hus, hread, hlocal⟩ := h.ok ho₁
    obtain ⟨vs, hvs, hread', hlocal'⟩ := (hf x₁ d₁ ho₁).ok ho₂
    refine ⟨us ++ vs, Language.append_mem_mul hus hvs, ?_, fun r y d' ts hout hts hhead => ?_⟩
    · rw [hread, hread', List.append_assoc]
    · obtain ⟨⟨y₁, d₁'⟩, hout₁, hout₂⟩ := bind_eq_ok.mp hout
      rw [List.append_assoc] at hts
      have hd₁' := hlocal r y₁ d₁' _ hout₁ hts (by rw [hread']; exact head?_append_congr hhead)
      exact hlocal' (r, y₁, d₁') y d' ts hout₂ hd₁' hhead
  · rcases bind_eq_error.mp ho with ho | ⟨⟨x₁, d₁⟩, ho₁, ho₂⟩
    · obtain ⟨us, rest, hread, he, hstarts, hlocal⟩ := h.stuck ho
      refine ⟨us, rest, hread, he, starts_mul_left hstarts hM, fun hlt t ht r ts hts x hout => ?_⟩
      obtain ⟨r₁, hout₁, -⟩ := bind_eq_ok.mp hout
      exact hlocal hlt t ht r ts hts r₁ hout₁
    · obtain ⟨us, hus, hread, hlocal⟩ := h.ok ho₁
      obtain ⟨vs, rest, hread', he, hstarts, hlocal'⟩ := (hf x₁ d₁ ho₁).stuck ho₂
      refine ⟨us ++ vs, rest, ?_, he, starts_mul_right hus hstarts, fun hlt t ht r ts hts x hout => ?_⟩
      · rw [hread, hread', List.append_assoc]
      · obtain ⟨⟨y₁, d₁'⟩, hout₁, hout₂⟩ := bind_eq_ok.mp hout
        rw [List.append_assoc] at hts
        have hhead : (vs ++ t :: ts).head? = d₁.rest.head? := by
          rw [hread']
          exact head?_append_congr (Option.mem_def.mp ht).symm
        have hd₁' := hlocal r y₁ d₁' _ hout₁ hts hhead
        rw [List.length_append] at hlt
        have hlong := hm us hus
        exact hlocal' (by omega) t ht (r, y₁, d₁') ts hd₁' x hout₂

theorem bind [Nonempty α] {f : α × Cursor → Except Stuck (β × Cursor)}
    {g : κ → α × Cursor → Except Stuck (β × Cursor)} (h : Steady c o cur out k L)
    (hf : ∀ x d, Steady d (f (x, d)) (fun r : κ × α × Cursor => r.2.2) (fun r => g r.1 (r.2.1, r.2.2)) k M) :
    Steady c (o >>= f) cur (fun r => out r >>= g r) k (L * M) := by
  obtain ⟨x⟩ := ‹Nonempty α›
  exact h.andThen (m := 0) (fun _ _ => Nat.zero_le _) (hf x default).inhabited fun x d _ => hf x d

/-- The same where the first part is not empty. -/
theorem bindPos [Nonempty α] {f : α × Cursor → Except Stuck (β × Cursor)}
    {g : κ → α × Cursor → Except Stuck (β × Cursor)} (h : Steady c o cur out k L) (hpos : ∀ us ∈ L, us ≠ [])
    (hf : ∀ x d, Steady d (f (x, d)) (fun r : κ × α × Cursor => r.2.2) (fun r => g r.1 (r.2.1, r.2.2)) (k - 1) M) :
    Steady c (o >>= f) cur (fun r => out r >>= g r) k (L * M) := by
  obtain ⟨x⟩ := ‹Nonempty α›
  exact h.andThen (fun us hus => List.length_pos_iff.mpr (hpos us hus)) (hf x default).inhabited fun x d _ => hf x d

theorem map {f : α × Cursor → β} {g : κ → α × Cursor → β} (h : Steady c o cur out k L) :
    Steady c (o >>= fun x => .ok (f x, x.2)) cur (fun r => out r >>= fun x => .ok (g r x, x.2)) k L :=
  mul_one L ▸ h.andThen (m := 0) (fun _ _ => Nat.zero_le _) ⟨[], Language.nil_mem_one⟩ fun _ _ _ => done

theorem expect {text : String} {f : Cursor → Except Stuck (α × Cursor)} {g : κ → Cursor → Except Stuck (α × Cursor)}
    (h : Steady c.next (f c.next) (fun r => (cur r).next) (fun r => g r (cur r).next) (k - 1) M) :
    Steady c (Surface.expect text c >>= f) cur (fun r => Surface.expect text (cur r) >>= g r) k (lit text * M) := by
  cases hsees : c.sees text with
  | true =>
    rw [Surface.expect, if_pos hsees]
    refine (h.next hsees).of_runs fun r x hr hout => ?_
    rwa [Surface.expect, if_pos ((Cursor.sees_congr hr text).trans hsees)] at hout
  | false =>
    rw [Surface.expect, if_neg (Bool.eq_false_iff.mp hsees)]
    obtain ⟨us, hus⟩ := h.inhabited
    refine halt ⟨_, Language.append_mem_mul (lit_inhabited text) hus⟩ fun _ r x hr hout => ?_
    rw [Surface.expect, if_neg (Bool.eq_false_iff.mp ((Cursor.sees_congr hr text).trans hsees))] at hout
    cases hout

/-- A word that may be there, and the rest with it or without. -/
theorem optional {text : String} {o' : Bool → Except Stuck (α × Cursor)} {out' : Bool → κ → Except Stuck (α × Cursor)}
    (ho : ∀ b, c.optional text = (b, bif b then c.next else c) → o = o' b)
    (hout : ∀ b r, (cur r).optional text = (b, bif b then (cur r).next else cur r) → out r = out' b r)
    (h : ∀ b, Steady (bif b then c.next else c) (o' b) (fun r => bif b then (cur r).next else cur r) (out' b) k M) :
    Steady c o cur out k (words (Flag text) * M) := by
  have hread : lit text * M ≤ words (Flag text) * M := mul_le_mul_left (fun _ hts => ⟨true, .present hts⟩) M
  have hskip : M ≤ words (Flag text) * M := fun ts hts =>
    Language.append_mem_mul (show [] ∈ words (Flag text) from ⟨false, .absent⟩) hts
  cases hsees : c.sees text with
  | true =>
    rw [ho true (by simp [Cursor.optional, hsees])]
    refine (wider hread (((h true).fewer (Nat.sub_le k 1)).next hsees)).of_runs fun r x hr hx => ?_
    rwa [← hout true r (by simp [Cursor.optional, (Cursor.sees_congr hr text).trans hsees])]
  | false =>
    rw [ho false (by simp [Cursor.optional, hsees])]
    refine (wider hskip (h false)).of_runs fun r x hr hx => ?_
    have hsame := (Cursor.sees_congr hr text).trans hsees
    rwa [← hout false r (by simpa [Cursor.optional] using hsame)]

theorem close {text : String} {f : Cursor → α} {g : κ → Cursor → α} :
    Steady c (Surface.expect text c >>= fun d => .ok (f d, d)) cur
      (fun r => Surface.expect text (cur r) >>= fun d => .ok (g r d, d)) k (lit text) :=
  mul_one (lit text) ▸ expect done

/-- One token. -/
theorem token {K : Language Token} {t : Token} {rest : List Token} {x : α} {y : κ → α} (hrest : c.rest = t :: rest)
    (hK : [t] ∈ K) : Steady c (.ok (x, c.next)) cur (fun r => .ok (y r, (cur r).next)) k K :=
  mul_one K ▸ done.advance hrest hK

theorem last {text : String} {x : α} {y : κ → α} (hsees : c.sees text = true) :
    Steady c (.ok (x, c.next)) cur (fun r => .ok (y r, (cur r).next)) k (lit text) :=
  mul_one (lit text) ▸ done.next hsees

theorem word (terminal : Terminal) : Steady c (Surface.word terminal c) cur (fun r => Surface.word terminal (cur r)) k
    (words (Spelling terminal)) := by
  have hstuck (hnot : ∀ t ∈ c.rest.head?, t.terminal ≠ terminal) :
      Steady c c.stuck cur (fun r => Surface.word terminal (cur r)) k (words (Spelling terminal)) := by
    refine halt ⟨_, _, .mk (t := ⟨terminal, "", {}, {}⟩) rfl⟩ fun _ r x hr hout => ?_
    rw [Surface.word] at hout
    split at hout
    · rename_i t ts hts
      rw [hts] at hr
      rw [if_neg (hnot t hr.symm)] at hout
      cases hout
    · cases hout
  cases hrest : c.rest with
  | nil =>
    simp only [Surface.word, hrest]
    exact hstuck (by simp [hrest])
  | cons t rest =>
    by_cases ht : t.terminal = terminal
    · simp only [Surface.word, hrest, if_pos ht]
      refine (token (K := words (Spelling terminal)) (y := fun _ => t.text) hrest ⟨_, .mk ht⟩).of_runs
        fun r x hr hout => ?_
      rw [hrest, List.head?_cons] at hr
      obtain ⟨ts, hts⟩ := List.head?_eq_some_iff.mp hr
      simpa only [hts, if_pos ht] using hout
    · simp only [Surface.word, hrest, if_neg ht]
      exact hstuck (by simp [hrest, ht])

theorem optionalRegion : Steady c (Surface.optionalRegion c) cur (fun r => Surface.optionalRegion (cur r)) k
    (words (Maybe (Spelling .region))) := by
  have hnone : (1 : Language Token) ≤ words (Maybe (Spelling .region)) := by
    rintro _ rfl
    exact ⟨none, .none⟩
  cases hrest : c.rest with
  | nil =>
    simp only [Surface.optionalRegion, hrest]
    refine (wider hnone (done (y := fun _ => none))).of_runs fun r x hr hout => ?_
    rw [hrest, List.head?_nil, List.head?_eq_none_iff] at hr
    simpa only [hr] using hout
  | cons t rest =>
    simp only [Surface.optionalRegion, hrest]
    have hsame (r : κ) (hr : (cur r).rest.head? = c.rest.head?) : ∃ ts, (cur r).rest = t :: ts := by
      rw [hrest, List.head?_cons] at hr
      exact List.head?_eq_some_iff.mp hr
    by_cases ht : t.terminal = .region
    · simp only [if_pos ht]
      refine (token (K := words (Maybe (Spelling .region))) (y := fun _ => some t.text) hrest
        ⟨_, .some (.mk ht)⟩).of_runs fun r x hr hout => ?_
      obtain ⟨ts, hts⟩ := hsame r hr
      simpa only [hts, if_pos ht] using hout
    · simp only [if_neg ht]
      refine (wider hnone (done (y := fun _ => none))).of_runs fun r x hr hout => ?_
      obtain ⟨ts, hts⟩ := hsame r hr
      simpa only [hts, if_neg ht] using hout

end Steady

end Ownership.Surface
