import Ownership.Proofs.Source.Parsing

/-!
What the grammar derives is parsed. A function of the parser reads the tokens of
its phrase and stops behind them, unless the token that follows would go on with
the phrase; no rule of the grammar puts such a token there. The fuel of a call is
enough if it is a fixed multiple of the tokens that it is to read.
-/
namespace Ownership.Surface

open Outcome

namespace Cursor

/-- The next token is none of these. -/
def Avoids (c : Cursor) (L : List String) : Prop := ∀ s ∈ L, c.sees s = false

variable {c c' : Cursor} {ts us : List Token} {text : String} {L : List String}

theorem avoids_nil (c : Cursor) : c.Avoids [] := fun _ hs => absurd hs List.not_mem_nil

theorem Avoids.mono {M : List String} (h : c.Avoids L) (hsub : M ⊆ L) : c.Avoids M := fun s hs => h s (hsub hs)

theorem Reads.split {c'' : Cursor} (h : c.Reads (ts ++ us) c'') : ∃ c', c.Reads ts c' ∧ c'.Reads us c'' := by
  refine ⟨⟨us ++ c''.rest, ts.getLast?.elim c.last Token.stop⟩, ⟨?_, rfl⟩, rfl, ?_⟩
  · rw [h.rest, List.append_assoc]
  · rw [h.last, List.getLast?_append]
    cases us.getLast? <;> rfl

theorem Reads.eq_of_nil (h : c.Reads [] c') : c' = c := by
  obtain ⟨rest, last⟩ := c
  obtain ⟨rest', last'⟩ := c'
  obtain ⟨hrest, hlast⟩ := h
  simp_all

theorem Reads.eq_next {t : Token} (h : c.Reads [t] c') : c.next = c' := by
  obtain ⟨rest, last⟩ := c
  obtain ⟨rest', last'⟩ := c'
  obtain ⟨hrest, hlast⟩ := h
  simp_all [next]

theorem Reads.avoids {F : List Terminal} (h : c.Reads ts c') (hts : Begins F ts)
    (hL : ∀ s ∈ L, Terminal.fixed s ∉ F) : c.Avoids L := by
  obtain ⟨t, ht, hmem⟩ := hts
  intro s hs
  rw [sees, h.rest, List.head?_append, ht, Option.some_or]
  simp only [Option.any_some, decide_eq_false_iff_not]
  rintro heq
  exact hL s hs (heq ▸ hmem)

end Cursor

section

variable {c c' : Cursor} {ts : List Token} {text : String}

theorem Begins.sees_iff (h : Begins [.fixed text] ts) (hreads : c.Reads ts c') (s : String) :
    c.sees s = decide (text = s) := by
  obtain ⟨t, ht, hmem⟩ := h
  rw [Cursor.sees, hreads.rest, List.head?_append, ht]
  simp [List.mem_singleton.mp hmem]

theorem Fixed.sees_iff (h : Fixed text ts) (hreads : c.Reads ts c') (s : String) :
    c.sees s = decide (text = s) :=
  (Begins.of_fixed h (List.mem_singleton_self _)).sees_iff hreads s

theorem Fixed.sees (h : Fixed text ts) (hreads : c.Reads ts c') : c.sees text = true := by
  simp [h.sees_iff hreads]

theorem Fixed.next (h : Fixed text ts) (hreads : c.Reads ts c') : c.next = c' := by
  cases h with
  | mk => exact hreads.eq_next

theorem Fixed.avoids {L : List String} (h : Fixed text ts) (hreads : c.Reads ts c') (hL : text ∉ L) :
    c.Avoids L := by
  intro s hs
  rw [h.sees_iff hreads, decide_eq_false_iff_not]
  rintro rfl
  exact hL hs

theorem Fixed.expect (h : Fixed text ts) (hreads : c.Reads ts c') : expect text c = .ok c' := by
  rw [Surface.expect, if_pos (h.sees hreads), h.next hreads]

theorem Spelling.word {terminal : Terminal} {x : String} (h : Spelling terminal ts x) (hreads : c.Reads ts c') :
    word terminal c = .ok (x, c') := by
  cases h with
  | mk ht =>
    have hrest := hreads.rest
    rw [Surface.word]
    split
    · rename_i t rest heq
      rw [hrest, List.singleton_append, List.cons.injEq] at heq
      rw [← heq.1, if_pos ht, hreads.eq_next]
    · rename_i heq
      rw [hrest] at heq
      cases heq

/-- A name stands for no keyword and no operator. -/
theorem Spelling.not_sees {x : String} (h : Spelling .name ts x) (hreads : c.Reads ts c') (s : String) :
    c.sees s = false := by
  cases h with
  | mk ht =>
    rw [Cursor.sees, hreads.rest]
    simp [ht]

theorem Flag.optional {b : Bool} (h : Flag text ts b) (hreads : c.Reads ts c') (hc' : c'.sees text = false) :
    c.optional text = (b, c') := by
  cases h with
  | absent =>
    obtain rfl := hreads.eq_of_nil
    simp [Cursor.optional, hc']
  | present h => simp [Cursor.optional, h.sees hreads, h.next hreads]

theorem Flag.begins {F : List Terminal} {us : List Token} {b : Bool} (h : Flag text ts b) (hus : Begins F us) :
    Begins (.fixed text :: F) (ts ++ us) := by
  cases h with
  | absent =>
    obtain ⟨t, ht, hmem⟩ := hus
    exact ⟨t, ht, List.mem_cons_of_mem _ hmem⟩
  | present h => exact (Begins.of_fixed h List.mem_cons_self).append us

end

/-- A phrase of at most so many tokens is read, if none of the given tokens follows. -/
def Completes {α : Type} (p : Parse α) (P : Phrase α) (k : Nat) (L : List String) : Prop :=
  ∀ ⦃c ts x c'⦄, c.Reads ts c' → P ts x → ts.length ≤ k → c'.Avoids L → p c = .ok (x, c')

theorem optionalRegion_complete {c c' : Cursor} {ts : List Token} {r : Option String} {F : List Terminal}
    (h : Maybe (Spelling .region) ts r) (hreads : c.Reads ts c') {us : List Token} {c'' : Cursor}
    (hus : c'.Reads us c'') (hF : Begins F us) (hregion : Terminal.region ∉ F) :
    optionalRegion c = .ok (r, c') := by
  cases h with
  | none =>
    obtain rfl := hreads.eq_of_nil
    obtain ⟨t, ht, hmem⟩ := hF
    have hne : t.terminal ≠ .region := fun heq => hregion (heq ▸ hmem)
    obtain ⟨rest, rfl⟩ := List.head?_eq_some_iff.mp ht
    rw [optionalRegion, hus.rest]
    simp [hne]
  | some h =>
    cases h with
    | mk ht =>
      have hrest := hreads.rest
      rw [optionalRegion, hrest]
      simp [ht, hreads.eq_next]

section

variable {α : Type} {p : Parse α} {P : Phrase α} {k : Nat} {L : List String} {F : List Terminal} {c c' : Cursor}
  {ts : List Token} {xs : List α}

theorem length_pos_of_begins (h : Begins F ts) : 0 < ts.length := List.length_pos_iff.mpr h.ne_nil

theorem Commas.begins (hP : ∀ {ts x}, P ts x → Begins F ts) (h : Commas P ts xs) : Begins F ts := by
  cases h with
  | one h => exact hP h
  | cons h _ _ => exact ((hP h).append _).append _

theorem commaList_complete (hp : Completes p P k L) (hP : ∀ {ts x}, P ts x → Begins F ts) (hL : "," ∉ L) (n : Nat)
    (hn : k ≤ n) : Completes (commaList p n) (Commas P) k ("," :: L) := by
  have hall : ∀ {m : Nat} {c ts xs c'}, c.Reads ts c' → Commas P ts xs → ts.length ≤ k → ts.length ≤ m →
      c'.Avoids ("," :: L) → commaList p m c = .ok (xs, c') := by
    intro m
    induction m with
    | zero =>
      intro c ts xs c' _ hts _ hm _
      cases hts with
      | one h => exact absurd (length_pos_of_begins (hP h)) (by omega)
      | cons h hc _ =>
        have := length_pos_of_begins (hP h)
        simp only [List.length_append] at hm
        omega
    | succ m ih =>
      intro c ts xs c' hreads hts hk hm havoids
      cases hts with
      | one h =>
        have hc' : c'.sees "," = false := havoids "," List.mem_cons_self
        have hx := hp hreads h hk (havoids.mono (List.subset_cons_self _ _))
        refine bind_eq_ok.mpr ⟨_, hx, ?_⟩
        simp [hc']
      | cons h hc hrest =>
        obtain ⟨c₂, hhead, hus⟩ := hreads.split
        obtain ⟨c₁, hts, hcs⟩ := hhead.split
        simp only [List.length_append] at hk hm
        have hpos := length_pos_of_begins (hP h)
        have hx := hp hts h (by omega) (hc.avoids hcs hL)
        refine bind_eq_ok.mpr ⟨_, hx, ?_⟩
        simp only [hc.sees hcs, if_true, hc.next hcs]
        exact bind_eq_ok.mpr ⟨_, ih hus hrest (by omega) (by omega) havoids, rfl⟩
  exact fun _ _ _ _ hreads hts hk havoids => hall hreads hts hk (Nat.le_trans hk hn) havoids

/-- Items with commas in brackets, or none of it. -/
theorem enclosedList_complete (hp : Completes p P k L) (hP : ∀ {ts x}, P ts x → Begins F ts) (hL : "," ∉ L)
    {left right : String} (hclose : right ∉ "," :: L) {n : Nat} (hn : k ≤ n) :
    Completes (enclosedList left right p n) (OrEmpty (Enclosed left right (Commas P))) k [left] := by
  intro c ts xs c' hreads h hk havoids
  cases h with
  | empty =>
    obtain rfl := hreads.eq_of_nil
    simp [enclosedList, havoids left List.mem_cons_self]
  | given h =>
    cases h with
    | mk hl h hr =>
      obtain ⟨c₂, hhead, hright⟩ := hreads.split
      obtain ⟨c₁, hleft, hts⟩ := hhead.split
      simp only [List.length_append] at hk
      have hlist := commaList_complete hp hP hL n hn hts h (by omega) (hr.avoids hright hclose)
      rw [enclosedList, if_pos (hl.sees hleft), hl.next hleft]
      exact bind_eq_ok.mpr ⟨_, hlist, bind_eq_ok.mpr ⟨_, hr.expect hright, rfl⟩⟩

/-- Items with commas, if there are some, and the token that closes them. -/
theorem closedList_complete (hp : Completes p P k L) (hP : ∀ {ts x}, P ts x → Begins F ts) (hL : "," ∉ L)
    {close : String} (hfirst : Terminal.fixed close ∉ F) (hclose : close ∉ "," :: L) {n : Nat} (hn : k ≤ n)
    {rs : List Token} {c₁ : Cursor} (hts : c.Reads ts c₁) (h : OrEmpty (Commas P) ts xs) (hrs : Fixed close rs)
    (hright : c₁.Reads rs c') (hk : ts.length ≤ k) : closedList close p n c = .ok (xs, c') := by
  rw [closedList]
  cases h with
  | empty =>
    obtain rfl := hts.eq_of_nil
    rw [if_pos (hrs.sees hright), hrs.next hright]
    rfl
  | given h =>
    have hsees : c.sees close = false :=
      hts.avoids (L := [close]) (h.begins hP) (by simpa using hfirst) close List.mem_cons_self
    have hlist := commaList_complete hp hP hL n hn hts h hk (hrs.avoids hright hclose)
    rw [if_neg (by simp [hsees])]
    exact bind_eq_ok.mpr ⟨_, hlist, bind_eq_ok.mpr ⟨_, hrs.expect hright, rfl⟩⟩

/-- Items with commas, and the token that closes them. -/
theorem commaListUntil_complete (hp : Completes p P k L) (hP : ∀ {ts x}, P ts x → Begins F ts) {close : String}
    (hclose : Terminal.fixed close ∉ F) (hcomma : close ≠ ",") (hL : "," ∉ L) (hL' : close ∉ L) {n : Nat}
    {rs : List Token} {c₁ : Cursor} (hts : c.Reads ts c₁) (hderives : OrEmpty (CommasEnd P) ts xs)
    (hrs : Fixed close rs) (hright : c₁.Reads rs c') (hk : ts.length ≤ k) (hn : ts.length < n) :
    commaListUntil close p n c = .ok (xs, c') := by
  induction n generalizing c ts xs with
  | zero => omega
  | succ n ih =>
    have hend : commaListUntil close p (n + 1) c₁ = .ok ([], c') := by
      rw [commaListUntil, if_pos (hrs.sees hright), hrs.next hright]
      rfl
    cases hderives with
    | empty =>
      obtain rfl := hts.eq_of_nil
      exact hend
    | given hderives =>
      cases hderives with
      | mk hcommas hflag =>
        cases hcommas with
        | one h =>
          obtain ⟨c₂, hitem, hcs⟩ := hts.split
          have hbegins := hP h
          have hpos := length_pos_of_begins hbegins
          have hsees : c.sees close = false :=
            hitem.avoids (L := [close]) hbegins (by simpa using hclose) close List.mem_cons_self
          simp only [List.length_append] at hk hn
          rw [commaListUntil, if_neg (by simp [hsees])]
          cases hflag with
          | absent =>
            obtain rfl := hcs.eq_of_nil
            have hx := hp hitem h (by omega) (hrs.avoids hright hL')
            refine bind_eq_ok.mpr ⟨_, hx, ?_⟩
            have hother : c₁.sees "," = false := by
              rw [hrs.sees_iff hright, decide_eq_false_iff_not]
              exact hcomma
            simp only [hother, Bool.false_eq_true, if_false]
            exact bind_eq_ok.mpr ⟨_, hrs.expect hright, rfl⟩
          | present hc =>
            have hx := hp hitem h (by omega) (hc.avoids hcs hL)
            refine bind_eq_ok.mpr ⟨_, hx, ?_⟩
            simp only [hc.sees hcs, if_true, hc.next hcs]
            have hcpos := List.length_pos_iff.mpr hc.ne_nil
            exact bind_eq_ok.mpr ⟨_, ih (.refl c₁) .empty (Nat.zero_le _) (by simp only [List.length_nil]; omega), rfl⟩
        | cons h hc hrest =>
          rw [List.append_assoc] at hts
          obtain ⟨c₃, hhead, htail⟩ := hts.split
          obtain ⟨c₂, hitem, hcs⟩ := hhead.split
          have hbegins := hP h
          have hpos := length_pos_of_begins hbegins
          have hsees : c.sees close = false :=
            hitem.avoids (L := [close]) hbegins (by simpa using hclose) close List.mem_cons_self
          simp only [List.length_append] at hk hn
          rw [commaListUntil, if_neg (by simp [hsees])]
          have hx := hp hitem h (by omega) (hc.avoids hcs hL)
          refine bind_eq_ok.mpr ⟨_, hx, ?_⟩
          simp only [hc.sees hcs, if_true, hc.next hcs]
          have hmore := ih htail (.given (.mk hrest hflag)) (by simp only [List.length_append]; omega)
            (by simp only [List.length_append]; omega)
          exact bind_eq_ok.mpr ⟨_, hmore, rfl⟩

/-- Items up to a token that is left. -/
theorem itemsUntil_complete (hp : Completes p P k L) (hP : ∀ {ts x}, P ts x → Begins F ts) {close : String}
    (hclose : Terminal.fixed close ∉ F) (hF : ∀ s ∈ L, Terminal.fixed s ∉ F) (hL : close ∉ L) {n : Nat}
    {rs : List Token} {c₁ : Cursor} (hts : c.Reads ts c₁) (hderives : Many P ts xs)
    (hrs : Fixed close rs) (hright : c₁.Reads rs c') (hk : ts.length ≤ k) (hn : ts.length < n) :
    itemsUntil close p n c = .ok (xs, c₁) := by
  induction n generalizing c ts xs with
  | zero => omega
  | succ n ih =>
    cases hderives with
    | nil =>
      obtain rfl := hts.eq_of_nil
      rw [itemsUntil, if_pos (hrs.sees hright)]
      rfl
    | cons h hrest =>
      obtain ⟨c₂, hitem, htail⟩ := hts.split
      have hbegins := hP h
      have hpos := length_pos_of_begins hbegins
      have hsees : c.sees close = false :=
        hitem.avoids (L := [close]) hbegins (by simpa using hclose) close List.mem_cons_self
      simp only [List.length_append] at hk hn
      have hnext : c₂.Avoids L := by
        cases hrest with
        | nil =>
          obtain rfl := htail.eq_of_nil
          exact hrs.avoids hright hL
        | cons h' _ =>
          obtain ⟨c₃, hitem', -⟩ := htail.split
          exact hitem'.avoids (hP h') hF
      rw [itemsUntil, if_neg (by simp [hsees])]
      refine bind_eq_ok.mpr ⟨_, hp hitem h (by omega) hnext, ?_⟩
      exact bind_eq_ok.mpr ⟨_, ih htail hrest (by omega) (by omega), rfl⟩

end

theorem regionArg_complete {c c' : Cursor} {ts : List Token} {r : Option String} (hreads : c.Reads ts c')
    (h : Maybe (Enclosed "<" ">" (Spelling .region)) ts r) (hc' : c'.sees "<" = false) :
    regionArg c = .ok (r, c') := by
  cases h with
  | none =>
    obtain rfl := hreads.eq_of_nil
    simp [regionArg, hc']
  | some h =>
    cases h with
    | mk hl h hr =>
      obtain ⟨c₂, hhead, hright⟩ := hreads.split
      obtain ⟨c₁, hleft, hts⟩ := hhead.split
      rw [regionArg, if_pos (hl.sees hleft), hl.next hleft]
      exact bind_eq_ok.mpr ⟨_, h.word hts, bind_eq_ok.mpr ⟨_, hr.expect hright, rfl⟩⟩

/-- What a type can start with. -/
def typeFirst : List Terminal := [.name, .fixed "&", .fixed "["]

theorem Ty.Derives.begins {ts : List Token} {t : Ty} (h : Ty.Derives ts t) : Begins typeFirst ts := by
  cases h with
  | ref ha _ _ _ => exact (((Begins.of_fixed ha (by decide)).append _).append _).append _
  | array h => exact .of_enclosed h (by decide)
  | named hn _ => exact (Begins.of_spelling hn (by decide)).append _

theorem type_complete (n : Nat) : Completes (type n) Ty.Derives n ["<"] := by
  induction n with
  | zero =>
    intro c ts t c' _ h hk _
    exact absurd (length_pos_of_begins h.begins) (by omega)
  | succ n ih =>
    intro c ts t c' hreads h hk havoids
    have hrange := hreads.range h.begins.ne_nil
    cases h with
    | ref ha hr hm ht =>
      obtain ⟨c₃, hhead, hts⟩ := hreads.split
      obtain ⟨c₂, hhead, hms⟩ := hhead.split
      obtain ⟨c₁, has, hrs⟩ := hhead.split
      have hpos := List.length_pos_iff.mpr ha.ne_nil
      simp only [List.length_append] at hk
      have hregion := optionalRegion_complete hr hrs (hms.trans hts) (hm.begins ht.begins) (by decide)
      have hmut := hm.optional hms (hts.avoids (L := ["mut"]) ht.begins (by decide) _ List.mem_cons_self)
      rw [type]
      simp only [ha.sees has, if_true, ha.next has]
      refine bind_eq_ok.mpr ⟨_, hregion, ?_⟩
      simp only [hmut]
      refine bind_eq_ok.mpr ⟨_, ih hts ht (by omega) havoids, ?_⟩
      rw [hrange]
      rfl
    | array h =>
      cases h with
      | mk hl h hr =>
        obtain ⟨c₂, hhead, hright⟩ := hreads.split
        obtain ⟨c₁, hleft, hts⟩ := hhead.split
        have hpos := List.length_pos_iff.mpr hl.ne_nil
        simp only [List.length_append] at hk
        rw [type]
        simp only [hl.sees_iff hleft, decide_true, String.reduceEq, decide_false, Bool.false_eq_true,
          if_false, if_true, hl.next hleft]
        refine bind_eq_ok.mpr ⟨_, ih hts h (by omega) (hr.avoids hright (by decide)), ?_⟩
        refine bind_eq_ok.mpr ⟨_, hr.expect hright, ?_⟩
        rw [hrange]
        rfl
    | named hn hr =>
      obtain ⟨c₁, hns, hrs⟩ := hreads.split
      rw [type]
      simp only [hn.not_sees hns, Bool.false_eq_true, if_false]
      refine bind_eq_ok.mpr ⟨_, hn.word hns, ?_⟩
      refine bind_eq_ok.mpr ⟨_, regionArg_complete hrs hr (havoids "<" (by decide)), ?_⟩
      rw [hrange]
      rfl

/-- The tokens that can go on with an expression, from the loosest operators to what follows a name. -/
def continuations : List String :=
  ["||", "&&", "==", "!=", "<", "<=", ">", ">=", "+", "-", "*", "/", ".", "[", "(", "::"]

/-- The tokens that would go on with an expression of the level. -/
def Level.continues : Level → List String
  | disjunction => continuations
  | conjunction => continuations.drop 1
  | comparison => continuations.drop 2
  | sum => continuations.drop 8
  | product => continuations.drop 10
  | unary | path => continuations.drop 12
  | atom => continuations.drop 14

/-- How many calls lie between an expression and one of the tier. -/
def tierDepth : Option Tier → Nat
  | some .disjunction => 0
  | some .conjunction => 1
  | some .comparison => 2
  | some .sum => 3
  | some .product => 4
  | none => 5

namespace Tier

variable {tier : Tier}

theorem tierDepth_tighter (tier : Tier) : tierDepth tier.tighter = tierDepth (some tier) + 1 := by cases tier <;> rfl

theorem tierDepth_le (tier : Option Tier) : tierDepth tier ≤ 5 := by
  match tier with
  | none => decide
  | some tier => cases tier <;> decide

theorem continues_tighter (tier : Tier) : (levelOf tier.tighter).continues ⊆ tier.level.continues := by
  cases tier <;> decide

/-- An operator of the tier is found, and goes on with nothing tighter. -/
theorem operator?_between {m n : Level} {text : String} {op : BinaryOp} (h : Between tier.level m text n op)
    {c c' : Cursor} {ts : List Token} (hts : Fixed text ts) (hreads : c.Reads ts c') :
    tier.operator? c = some op ∧ c.Avoids (levelOf tier.tighter).continues := by
  have hsees := hts.sees_iff hreads
  cases tier <;> cases h
  all_goals
    refine ⟨?_, hts.avoids hreads (by decide)⟩
    simp [operator?, operators, hsees]

theorem operator?_none {c : Cursor} (h : c.Avoids tier.level.continues) : tier.operator? c = none := by
  rw [operator?, Option.map_eq_none_iff, List.find?_eq_none]
  intro o ho
  have hmem : o.1 ∈ tier.level.continues := by
    revert o
    cases tier <;> decide
  simp [h o.1 hmem]

/-- One operator and its right operand. -/
theorem operationTail_step {m n : Level} {text : String} {op : BinaryOp} (h : Between tier.level m text n op)
    {c c₁ c' : Cursor} {ts : List Token} (hts : Fixed text ts) (hreads : c.Reads ts c₁) {fuel : Nat} {b : Expr}
    (hb : operation fuel tier.tighter c₁ = .ok (b, c')) (start : Position) (a : Expr) :
    operationTail (fuel + 1) tier start a c =
      if tier.chains then operationTail fuel tier start (.binary op a b (c'.since start)) c'
      else .ok (.binary op a b (c'.since start), c') := by
  rw [operationTail, (operator?_between h hts hreads).1]
  simp only [hts.next hreads, hb]
  rfl

end Tier

/-- An operation of a tier: two operands with an operator between them. -/
inductive Tier.Operation (tier : Tier) : Phrase Expr where
  | mk {text : String} {op : BinaryOp} {as os bs : List Token} {a b : Expr}
      (hop : Between tier.level tier.leftLevel text (levelOf tier.tighter) op) (ha : Expr.Derives tier.leftLevel as a)
      (ho : Fixed text os) (hb : Expr.Derives (levelOf tier.tighter) bs b) :
      tier.Operation (as ++ os ++ bs) (.binary op a b (.ofTokens (as ++ os ++ bs)))

theorem Expr.Derives.tier_cases {tier : Tier} {ts : List Token} {e : Expr} (h : Expr.Derives tier.level ts e) :
    Expr.Derives (levelOf tier.tighter) ts e ∨ tier.Operation ts e := by
  generalize hl : tier.level = l at h
  cases h with
  | inner hinner h =>
    rw [← hl, tier.inner_level] at hinner
    obtain rfl := Option.some.inj hinner
    exact .inl h
  | between hop ha ho hb =>
    right
    cases tier <;> cases hl <;> cases hop
    all_goals exact .mk (by constructor) ha ho hb
  | _ => cases tier <;> cases hl

theorem FieldInit.Derives.begins {ts : List Token} {x : FieldInit} (h : FieldInit.Derives ts x) :
    Begins [.name] ts := by
  cases h with
  | mk hn _ => exact (Begins.of_spelling hn List.mem_cons_self).append _

/-- All phrases of expressions that are short enough for this much fuel are read. -/
structure ExprComplete (n : Nat) : Prop where
  operation : ∀ tier, Completes (operation n tier) (Expr.Derives (levelOf tier)) ((n + tierDepth tier) / 16)
    (levelOf tier).continues
  unary : Completes (unary n) (Expr.Derives .unary) ((n + 6) / 16) Level.unary.continues
  atom : Completes (atom n) (Expr.Derives .atom) ((n + 7) / 16) Level.atom.continues
  fieldInit : Completes (fieldInit n) FieldInit.Derives (n / 16) Level.disjunction.continues

namespace ExprComplete

variable {n : Nat}

/-- Operators of a tier that chains are read one after the other. -/
theorem chain (ih : ∀ m ≤ n, ExprComplete m) {tier : Tier} (hchains : tier.chains = true) {ts : List Token} {e : Expr}
    (h : Expr.Derives tier.level ts e) {c c' : Cursor} (hreads : c.Reads ts c')
    (hk : 16 * ts.length ≤ n + 1 + tierDepth (some tier)) (havoids : c'.Avoids (levelOf tier.tighter).continues) :
    ∃ m ≤ n, n ≤ m + ts.length ∧ Surface.operation (n + 1) (some tier) c = operationTail m tier c.here e c' := by
  have hdepth := Tier.tierDepth_le (some tier)
  induction hlength : ts.length using Nat.strongRecOn generalizing ts e c' with
  | ind _ shorter =>
    subst hlength
    have hrange := hreads.range h.begins.ne_nil
    rcases h.tier_cases with h | @⟨text, op, as, os, bs, a, b, hop, ha, ho, hb⟩
    · have hx := (ih n (Nat.le_refl n)).operation tier.tighter hreads h
        (by rw [tier.tierDepth_tighter]; omega) havoids
      refine ⟨n, Nat.le_refl n, by omega, ?_⟩
      rw [Surface.operation, hx]
      rfl
    · obtain ⟨c₂, hhead, hbs⟩ := hreads.split
      obtain ⟨c₁, has, hos⟩ := hhead.split
      obtain ⟨-, hnext⟩ := Tier.operator?_between hop ho hos
      rw [Tier.leftLevel, if_pos hchains] at ha
      have hpos := List.length_pos_iff.mpr ho.ne_nil
      have hposa := length_pos_of_begins ha.begins
      simp only [List.length_append] at hk shorter ⊢
      obtain ⟨m, hle, hm, heq⟩ := shorter as.length (by omega) ha has (by omega) hnext rfl
      obtain ⟨m, rfl⟩ : ∃ m', m = m' + 1 := ⟨m - 1, by omega⟩
      have hx := (ih m (by omega)).operation tier.tighter hbs hb (by omega) havoids
      refine ⟨m, by omega, by omega, ?_⟩
      rw [heq, Tier.operationTail_step hop ho hos hx, if_pos hchains, hrange]

theorem operation_succ (ih : ∀ m ≤ n, ExprComplete m) (tier : Option Tier) :
    Completes (Surface.operation (n + 1) tier) (Expr.Derives (levelOf tier)) ((n + 1 + tierDepth tier) / 16)
      (levelOf tier).continues := by
  intro c ts e c' hreads h hk havoids
  cases tier with
  | none =>
    rw [Surface.operation]
    exact (ih n (Nat.le_refl n)).unary hreads h (by simp only [tierDepth] at hk; omega) havoids
  | some tier =>
    have hdepth := Tier.tierDepth_le (some tier)
    have hpos := length_pos_of_begins h.begins
    have hinner := havoids.mono tier.continues_tighter
    have hnone : tier.operator? c' = none := Tier.operator?_none havoids
    by_cases hchains : tier.chains = true
    · obtain ⟨m, hle, hm, heq⟩ := chain ih hchains h hreads (by omega) hinner
      obtain ⟨m, rfl⟩ : ∃ m', m = m' + 1 := ⟨m - 1, by omega⟩
      rw [heq, operationTail, hnone]
    · have hrange := hreads.range h.begins.ne_nil
      obtain ⟨n, rfl⟩ : ∃ n', n = n' + 1 := ⟨n - 1, by omega⟩
      have hoperand := (ih (n + 1) (Nat.le_refl _)).operation tier.tighter
      rw [tier.tierDepth_tighter] at hoperand
      rcases h.tier_cases with h | @⟨text, op, as, os, bs, a, b, hop, ha, ho, hb⟩
      · rw [Surface.operation]
        refine bind_eq_ok.mpr ⟨_, hoperand hreads h (by omega) hinner, ?_⟩
        simp only [operationTail, hnone]
      · obtain ⟨c₂, hhead, hbs⟩ := hreads.split
        obtain ⟨c₁, has, hos⟩ := hhead.split
        obtain ⟨-, hnext⟩ := Tier.operator?_between hop ho hos
        rw [Tier.leftLevel, if_neg hchains] at ha
        have hposo := List.length_pos_iff.mpr ho.ne_nil
        have hposa := length_pos_of_begins ha.begins
        simp only [List.length_append] at hk
        have hx := (ih n (Nat.le_succ n)).operation tier.tighter hbs hb (by omega) hinner
        rw [Surface.operation]
        refine bind_eq_ok.mpr ⟨_, hoperand has ha (by omega) hnext, ?_⟩
        dsimp only
        rw [Tier.operationTail_step hop ho hos hx, if_neg hchains, hrange]

/-- Fields and elements are read one after the other. -/
theorem path (ih : ∀ m ≤ n, ExprComplete m) {ts : List Token} {e : Expr} (h : Expr.Derives .path ts e)
    {c c' : Cursor} (hreads : c.Reads ts c') (hk : 16 * ts.length ≤ n + 7)
    (havoids : c'.Avoids Level.atom.continues) : ∃ m ≤ n, n ≤ m + ts.length ∧
      (Surface.atom n c >>= fun (e, c₁) => Surface.steps n c.here e c₁) = Surface.steps m c.here e c' := by
  induction hlength : ts.length using Nat.strongRecOn generalizing ts e c' with
  | ind _ shorter =>
    subst hlength
    have hrange := hreads.range h.begins.ne_nil
    cases h with
    | inner hinner h =>
      obtain rfl := Option.some.inj hinner
      have hx := (ih n (Nat.le_refl n)).atom hreads h (by omega) havoids
      refine ⟨n, Nat.le_refl n, by omega, ?_⟩
      rw [hx]
      rfl
    | between hop => cases hop
    | field h hf =>
      cases hf with
      | mk hd hn =>
        obtain ⟨c₁, hts, hstep⟩ := hreads.split
        obtain ⟨c₂, hds, hns⟩ := hstep.split
        have hpos := List.length_pos_iff.mpr hd.ne_nil
        have hposn := List.length_pos_iff.mpr hn.ne_nil
        simp only [List.length_append] at hk shorter ⊢
        obtain ⟨m, hle, hm, heq⟩ := shorter _ (by omega) h hts (by omega) (hd.avoids hds (by decide)) rfl
        have hposh := length_pos_of_begins h.begins
        obtain ⟨m, rfl⟩ : ∃ m', m = m' + 1 := ⟨m - 1, by omega⟩
        refine ⟨m, by omega, by omega, ?_⟩
        have hname : Surface.name c₂ = .ok (_, c') := hn.word hns
        rw [heq, Surface.steps, if_pos (hd.sees hds), hd.next hds, hname, ← hrange]
        rfl
    | index h hi =>
      cases hi with
      | mk hl hi hr =>
        obtain ⟨c₁, hts, hstep⟩ := hreads.split
        obtain ⟨c₃, hhead, hright⟩ := hstep.split
        obtain ⟨c₂, hleft, his⟩ := hhead.split
        have hpos := List.length_pos_iff.mpr hl.ne_nil
        have hposr := List.length_pos_iff.mpr hr.ne_nil
        have hposh := length_pos_of_begins h.begins
        simp only [List.length_append] at hk shorter ⊢
        obtain ⟨m, hle, hm, heq⟩ := shorter _ (by omega) h hts (by omega) (hl.avoids hleft (by decide)) rfl
        obtain ⟨m, rfl⟩ : ∃ m', m = m' + 1 := ⟨m - 1, by omega⟩
        have hx := (ih m (by omega)).operation (some .disjunction) his hi
          (by simp only [tierDepth]; omega) (hr.avoids hright (by decide))
        refine ⟨m, by omega, by omega, ?_⟩
        rw [heq, Surface.steps]
        simp only [hl.sees_iff hleft, decide_true, String.reduceEq, decide_false, Bool.false_eq_true,
          if_false, if_true, hl.next hleft, hx, ← hrange]
        show (Surface.expect "]" c₃ >>= fun c => Surface.steps m _ _ c) = _
        rw [hr.expect hright]
        rfl

theorem unary_succ (ih : ∀ m ≤ n, ExprComplete m) :
    Completes (Surface.unary (n + 1)) (Expr.Derives .unary) ((n + 1 + 6) / 16) Level.unary.continues := by
  have hunary := (ih n (Nat.le_refl n)).unary
  intro c ts e c' hreads h hk havoids
  have hrange := hreads.range h.begins.ne_nil
  cases h with
  | between hop => cases hop
  | neg ho h =>
    obtain ⟨c₁, hos, hts⟩ := hreads.split
    have hpos := List.length_pos_iff.mpr ho.ne_nil
    simp only [List.length_append] at hk
    rw [Surface.unary, if_pos (ho.sees hos), ho.next hos]
    refine bind_eq_ok.mpr ⟨_, hunary hts h (by omega) havoids, ?_⟩
    dsimp only
    rw [hrange]
    rfl
  | not ho h =>
    obtain ⟨c₁, hos, hts⟩ := hreads.split
    have hpos := List.length_pos_iff.mpr ho.ne_nil
    simp only [List.length_append] at hk
    rw [Surface.unary]
    simp only [ho.sees_iff hos, String.reduceEq, decide_false, decide_true, Bool.false_eq_true, if_false,
      if_true, ho.next hos]
    refine bind_eq_ok.mpr ⟨_, hunary hts h (by omega) havoids, ?_⟩
    rw [hrange]
    rfl
  | deref ho h =>
    obtain ⟨c₁, hos, hts⟩ := hreads.split
    have hpos := List.length_pos_iff.mpr ho.ne_nil
    simp only [List.length_append] at hk
    rw [Surface.unary]
    simp only [ho.sees_iff hos, String.reduceEq, decide_false,
      decide_true, Bool.false_eq_true, if_false, if_true, ho.next hos]
    refine bind_eq_ok.mpr ⟨_, hunary hts h (by omega) havoids, ?_⟩
    rw [hrange]
    rfl
  | borrow ho hm h =>
    obtain ⟨c₂, hhead, hts⟩ := hreads.split
    obtain ⟨c₁, hos, hms⟩ := hhead.split
    have hpos := List.length_pos_iff.mpr ho.ne_nil
    simp only [List.length_append] at hk
    have hmut := hm.optional hms (hts.avoids (L := ["mut"]) h.begins (by decide) _ List.mem_cons_self)
    rw [Surface.unary]
    simp only [ho.sees_iff hos, String.reduceEq, decide_false, decide_true, Bool.false_eq_true, if_false, if_true,
      ho.next hos, hmut]
    refine bind_eq_ok.mpr ⟨_, hunary hts h (by omega) havoids, ?_⟩
    rw [hrange]
    rfl
  | inner hinner h =>
    obtain rfl := Option.some.inj hinner
    have hpos := length_pos_of_begins h.begins
    obtain ⟨m, hle, hm, heq⟩ := path ih h hreads (by omega) (havoids.mono (by decide))
    obtain ⟨m, rfl⟩ : ∃ m', m = m' + 1 := ⟨m - 1, by omega⟩
    have hfirst : c.Avoids ["-", "!", "*", "&"] := hreads.avoids h.begins (by decide)
    rw [Surface.unary]
    simp only [hfirst "-" (by decide), hfirst "!" (by decide), hfirst "*" (by decide), hfirst "&" (by decide),
      Bool.false_eq_true, if_false]
    refine heq.trans ?_
    rw [Surface.steps]
    simp only [havoids "." (by decide), havoids "[" (by decide), Bool.false_eq_true, if_false]
    rfl

/-- Arguments in parentheses are read after the opening one. -/
theorem arguments_succ (ih : ExprComplete n) {as : List Token} {args : List Expr} {c c' : Cursor}
    (h : Enclosed "(" ")" (OrEmpty (Commas (Expr.Derives .disjunction))) as args) (hreads : c.Reads as c')
    (hk : 16 * as.length ≤ n + 32) : c.sees "(" = true ∧ Surface.arguments (n + 1) c.next = .ok (args, c') := by
  cases h with
  | mk hl h hr =>
    obtain ⟨c₂, hhead, hright⟩ := hreads.split
    obtain ⟨c₁, hleft, hts⟩ := hhead.split
    have hpos := List.length_pos_iff.mpr hl.ne_nil
    have hposr := List.length_pos_iff.mpr hr.ne_nil
    simp only [List.length_append] at hk
    refine ⟨hl.sees hleft, ?_⟩
    rw [hl.next hleft, Surface.arguments]
    exact closedList_complete (ih.operation (some .disjunction)) Expr.Derives.begins (by decide) (by decide)
      (by decide) (by simp only [tierDepth]; omega) hts h hr hright (by simp only [tierDepth]; omega)

theorem fieldInit_succ (ih : ExprComplete n) :
    Completes (Surface.fieldInit (n + 1)) FieldInit.Derives ((n + 1) / 16) Level.disjunction.continues := by
  intro c ts x c' hreads h hk havoids
  cases h with
  | mk hn he =>
    have hrange := hreads.range (ne_nil_left hn.ne_nil)
    cases he with
    | mk hc he =>
      obtain ⟨c₁, hns, htail⟩ := hreads.split
      obtain ⟨c₂, hcs, hes⟩ := htail.split
      have hpos := List.length_pos_iff.mpr hn.ne_nil
      have hposc := List.length_pos_iff.mpr hc.ne_nil
      simp only [List.length_append] at hk
      have hx := ih.operation (some .disjunction) hes he (by simp only [tierDepth]; omega) havoids
      rw [Surface.fieldInit]
      refine bind_eq_ok.mpr ⟨_, hn.word hns, bind_eq_ok.mpr ⟨_, hc.expect hcs, bind_eq_ok.mpr ⟨_, hx, ?_⟩⟩⟩
      dsimp only
      rw [hrange]
      rfl

theorem atom_succ (ih : ∀ m ≤ n, ExprComplete m) :
    Completes (Surface.atom (n + 1)) (Expr.Derives .atom) ((n + 1 + 7) / 16) Level.atom.continues := by
  intro c ts e c' hreads h hk havoids
  have hpos := length_pos_of_begins h.begins
  have hrange := hreads.range h.begins.ne_nil
  have hword : ∀ {ns x c₁}, Spelling .name ns x → c.Reads ns c₁ →
      Surface.atom (n + 1) c = Surface.named n c.here x c₁ := by
    intro ns x c₁ hn hns
    rw [Surface.atom]
    simp only [hn.not_sees hns, Bool.false_eq_true, if_false]
    cases hn with
    | @mk t ht =>
      obtain ⟨terminal, text, start, stop⟩ := t
      obtain rfl : terminal = .name := ht
      rw [hns.rest]
      simp [hns.eq_next]
  obtain ⟨n, rfl⟩ : ∃ n', n = n' + 2 := ⟨n - 2, by omega⟩
  cases h with
  | inner hinner => cases hinner
  | between hop => cases hop
  | int h =>
    cases h with
    | @mk t ht =>
      obtain ⟨terminal, text, start, stop⟩ := t
      obtain rfl : terminal = .int := ht
      have hsees : ∀ s, c.sees s = false := by simp [Cursor.sees, hreads.rest]
      rw [Surface.atom]
      simp only [hsees, Bool.false_eq_true, if_false]
      rw [hreads.rest]
      simp [hreads.eq_next, hrange]
  | true h =>
    rw [Surface.atom, if_pos (h.sees hreads), h.next hreads, hrange]
    rfl
  | false h =>
    rw [Surface.atom]
    simp only [h.sees_iff hreads, String.reduceEq, decide_false, decide_true, Bool.false_eq_true,
      if_false, if_true, h.next hreads, hrange]
    rfl
  | unit hl hr =>
    obtain ⟨c₁, hleft, hright⟩ := hreads.split
    rw [Surface.atom]
    simp only [hl.sees_iff hleft, String.reduceEq, decide_false, decide_true, Bool.false_eq_true, if_false, if_true,
      hl.next hleft, hr.sees hright, hr.next hright, hrange]
    rfl
  | var h =>
    rw [hword h hreads, Surface.named]
    simp only [havoids "(" (by decide), havoids "::" (by decide), Bool.false_eq_true, if_false, hrange]
    rfl
  | call hn ha =>
    obtain ⟨c₁, hns, has⟩ := hreads.split
    have hposn := List.length_pos_iff.mpr hn.ne_nil
    simp only [List.length_append] at hk
    obtain ⟨hsees, hargs⟩ := arguments_succ (ih n (by omega)) ha has (by omega)
    rw [hword hn hns, Surface.named, if_pos hsees]
    refine bind_eq_ok.mpr ⟨_, hargs, ?_⟩
    dsimp only
    rw [hrange]
    rfl
  | inject hn hv ha =>
    cases hv with
    | mk hd hv =>
      obtain ⟨c₃, hhead, has⟩ := hreads.split
      obtain ⟨c₁, hns, hstep⟩ := hhead.split
      obtain ⟨c₂, hds, hvs⟩ := hstep.split
      have hposn := List.length_pos_iff.mpr hn.ne_nil
      have hvariant : Surface.name c₂ = .ok (_, c₃) := hv.word hvs
      rw [hword hn hns, Surface.named]
      simp only [hd.sees_iff hds, String.reduceEq, decide_false, decide_true, Bool.false_eq_true,
        if_false, if_true, hd.next hds]
      refine bind_eq_ok.mpr ⟨_, hvariant, ?_⟩
      cases ha with
      | empty =>
        obtain rfl := has.eq_of_nil
        simp only [havoids "(" (by decide), Bool.false_eq_true, if_false, hrange]
        rfl
      | given ha =>
        simp only [List.length_append] at hk
        obtain ⟨hsees, hargs⟩ := arguments_succ (ih n (by omega)) ha has (by omega)
        simp only [hsees, if_true]
        refine bind_eq_ok.mpr ⟨_, hargs, ?_⟩
        dsimp only
        rw [hrange]
        rfl
  | construct hn hr hf =>
    cases hn with
    | mk hw hn =>
      cases hf with
      | mk hl hf he =>
        obtain ⟨c₃, hhead, hbody⟩ := hreads.split
        obtain ⟨c₂, hhead, hrs⟩ := hhead.split
        obtain ⟨c₁, hws, hns⟩ := hhead.split
        obtain ⟨c₅, hbody, hright⟩ := hbody.split
        obtain ⟨c₄, hleft, hfs⟩ := hbody.split
        have hposw := List.length_pos_iff.mpr hw.ne_nil
        have hposn := List.length_pos_iff.mpr hn.ne_nil
        simp only [List.length_append] at hk
        have hname : Surface.name c₁ = .ok (_, c₂) := hn.word hns
        have hregion := regionArg_complete hrs hr (hl.avoids hleft (L := ["<"]) (by decide) _ List.mem_cons_self)
        have hfields := commaListUntil_complete (n := n + 2) (ih (n + 2) (Nat.le_refl _)).fieldInit
          FieldInit.Derives.begins (by decide) (by decide) (by decide) (by decide) hfs hf he hright
          (by omega) (by omega)
        rw [Surface.atom]
        simp only [hw.sees_iff hws, String.reduceEq, decide_false, decide_true,
          Bool.false_eq_true, if_false, if_true, hw.next hws]
        refine bind_eq_ok.mpr ⟨_, hname, bind_eq_ok.mpr ⟨_, hregion, bind_eq_ok.mpr ⟨_, hl.expect hleft, ?_⟩⟩⟩
        refine bind_eq_ok.mpr ⟨_, hfields, ?_⟩
        dsimp only
        rw [hrange]
        rfl
  | paren h =>
    cases h with
    | mk hl h hr =>
      obtain ⟨c₂, hhead, hright⟩ := hreads.split
      obtain ⟨c₁, hleft, hts⟩ := hhead.split
      have hposl := List.length_pos_iff.mpr hl.ne_nil
      simp only [List.length_append] at hk
      have hsees : c₁.sees ")" = false := hts.avoids (L := [")"]) h.begins (by decide) _ List.mem_cons_self
      have hx := (ih (n + 2) (Nat.le_refl _)).operation (some .disjunction) hts h (by simp only [tierDepth]; omega)
        (hr.avoids hright (by decide))
      rw [Surface.atom]
      simp only [hl.sees_iff hleft, String.reduceEq, decide_false, decide_true, Bool.false_eq_true, if_false, if_true,
        hl.next hleft, hsees]
      exact bind_eq_ok.mpr ⟨_, hx, bind_eq_ok.mpr ⟨_, hr.expect hright, rfl⟩⟩

end ExprComplete

/-- A phrase of an expression is read with a fuel of sixteen for each of its tokens. -/
theorem exprComplete (n : Nat) : ExprComplete n := by
  induction n using Nat.strongRecOn with
  | ind n ih =>
    match n with
    | 0 =>
      refine ⟨fun tier c ts e c' _ h hk _ => ?_, fun c ts e c' _ h hk _ => ?_, fun c ts e c' _ h hk _ => ?_,
        fun c ts x c' _ h hk _ => ?_⟩
      · have hdepth := Tier.tierDepth_le tier
        exact absurd (length_pos_of_begins h.begins) (by omega)
      · exact absurd (length_pos_of_begins h.begins) (by omega)
      · exact absurd (length_pos_of_begins h.begins) (by omega)
      · exact absurd (length_pos_of_begins h.begins) (by omega)
    | n + 1 =>
      have hle : ∀ m ≤ n, ExprComplete m := fun m hm => ih m (Nat.lt_succ_of_le hm)
      exact ⟨ExprComplete.operation_succ hle, ExprComplete.unary_succ hle, ExprComplete.atom_succ hle,
        ExprComplete.fieldInit_succ (hle n (Nat.le_refl n))⟩

theorem expr_complete (n : Nat) :
    Completes (expr n) (Expr.Derives .disjunction) (n / 16) Level.disjunction.continues :=
  (exprComplete n).operation (some .disjunction)

end Ownership.Surface
