import Ownership.Proofs.Source.Language
import Ownership.Proofs.Source.Scoping

/-!
The names of bindings. A binding of a function that is read from a text is named by
a name token of the text, so by letters, digits and underscores; only the return
slot has a name that no token has.
-/
namespace Ownership

open Outcome Token

/-- The texts of the name tokens. -/
def Token.names (ts : List Token) : List String := (ts.filter (·.terminal = .name)).map Token.text

@[simp] theorem Token.names_append (ts us : List Token) :
    Token.names (ts ++ us) = Token.names ts ++ Token.names us := by
  simp [Token.names]

theorem Splits.isNameChar {p : Position} {cs : List Char} {ts : List Token} (h : Splits p cs ts) {x : String}
    (hx : x ∈ Token.names ts) : ∀ c ∈ x.toList, isNameChar c = true := by
  induction h with
  | nil => cases hx
  | skip _ _ _ ih => exact ih hx
  | @token _ w _ t ts hw _ _ ih =>
    simp only [Token.names, List.mem_map, List.mem_filter, List.mem_cons, decide_eq_true_eq] at hx
    obtain ⟨tok, ⟨rfl | hmem, hname⟩, rfl⟩ := hx
    · obtain rfl : t = .name := hname
      cases hw with
      | name hc hbody _ =>
        simp only [String.toList_ofList, List.forall_mem_cons]
        exact ⟨isNameChar_iff.mpr (.inl hc), fun x hx => isNameChar_iff.mpr (hbody x hx)⟩
    · exact ih (List.mem_map.mpr ⟨tok, List.mem_filter.mpr ⟨hmem, by simpa using hname⟩, rfl⟩)

namespace Surface

variable {ts : List Token}

theorem Spelling.mem_names {x : String} (h : Spelling .name ts x) : x ∈ Token.names ts := by
  cases h with
  | mk h => simp [Token.names, h]

/-- An element of a list with commas is derived from tokens of the list. -/
theorem Commas.exists_of_mem {α : Type} {P : Phrase α} {xs : List α} (h : Commas P ts xs) {x : α} (hx : x ∈ xs) :
    ∃ us, P us x ∧ ∀ y ∈ Token.names us, y ∈ Token.names ts := by
  induction h with
  | one h => exact ⟨_, List.mem_singleton.mp hx ▸ h, fun _ hy => hy⟩
  | cons h _ _ ih =>
    rcases List.mem_cons.mp hx with rfl | hx
    · exact ⟨_, h, fun y hy => by simp [hy]⟩
    · obtain ⟨us, hus, hsub⟩ := ih hx
      exact ⟨us, hus, fun y hy => by simp [hsub y hy]⟩

/-- The names that the fields of a pattern bind. -/
theorem SubPattern.Derives.names {fields : List SubPattern}
    (h : OrEmpty (Enclosed "(" ")" (Commas SubPattern.Derives)) ts fields) (enum : Option String) (variant : String)
    (r : Range) : ∀ x ∈ (Pattern.variant enum variant fields r).names, x ∈ Token.names ts := by
  intro x hx
  obtain ⟨field, hmem, he⟩ := List.mem_filterMap.mp hx
  cases field with
  | skip => cases he
  | bind byRef mutable name range =>
    obtain rfl := Option.some.inj he
    cases h with
    | empty => cases hmem
    | given h =>
      cases h with
      | mk _ h _ =>
        obtain ⟨us, hfield, hsub⟩ := h.exists_of_mem hmem
        cases hfield with
        | bind _ _ hn => simp [hsub name (by simp [hn.mem_names])]

theorem Pattern.Derives.names {p : Pattern} (h : Pattern.Derives ts p) : ∀ x ∈ p.names, x ∈ Token.names ts := by
  intro x hx
  cases h with
  | wildcard => cases hx
  | variant _ hf => simp [SubPattern.Derives.names hf _ _ _ x hx]
  | qualified _ _ hf => simp [SubPattern.Derives.names hf _ _ _ x hx]

mutual

/-- What a statement declares is among the name tokens that it is derived from. -/
theorem Stmt.Derives.names : ∀ (s : Stmt) {ts : List Token}, Stmt.Derives ts s → ∀ x ∈ s.names, x ∈ Token.names ts
  | .declare .., ts, h, x, hx => by
    simp only [Stmt.names, List.mem_singleton] at hx
    subst hx
    cases h with
    | declare _ _ hn _ _ _ => simp [hn.mem_names]
  | .branch b, ts, h, x, hx => by
    cases h with
    | branch h => exact Branch.Derives.names b h x hx
  | .loop body _, ts, h, x, hx => by
    cases h with
    | loop h =>
      cases h with
      | mk _ h => simp [Block.Derives.names body h x hx]
  | .whileLoop _ body _, ts, h, x, hx => by
    cases h with
    | whileLoop _ h => simp [Block.Derives.names body h x hx]
  | .block body, ts, h, x, hx => by
    cases h with
    | block h => exact Block.Derives.names body h x hx
  | .select _ arms _, ts, h, x, hx => by
    cases h with
    | select _ h =>
      cases h with
      | mk _ h _ => simp [Arm.Derives.allNames arms h x hx]
  | .assign .., ts, h, x, hx | .eval .., ts, h, x, hx | .breakLoop _, ts, h, x, hx
  | .continueLoop _, ts, h, x, hx | .ret .., ts, h, x, hx => by simp [Stmt.names] at hx

theorem Stmt.Derives.allNames : ∀ (ss : List Stmt) {ts : List Token}, Many Stmt.Derives ts ss →
    ∀ x ∈ Stmt.allNames ss, x ∈ Token.names ts
  | [], ts, h, x, hx => by cases hx
  | s :: rest, ts, h, x, hx => by
    cases h with
    | cons h hrest =>
      rw [Token.names_append, List.mem_append]
      exact (List.mem_append.mp hx).imp (Stmt.Derives.names s h x) (Stmt.Derives.allNames rest hrest x)

theorem Block.Derives.names : ∀ (b : Block) {ts : List Token}, Block.Derives ts b → ∀ x ∈ b.names, x ∈ Token.names ts
  | .mk statements _, ts, h, x, hx => by
    cases h with
    | mk h =>
      cases h with
      | mk _ h _ => simp [Stmt.Derives.allNames statements h x hx]

theorem Branch.Derives.names : ∀ (b : Branch) {ts : List Token}, Branch.Derives ts b →
    ∀ x ∈ b.names, x ∈ Token.names ts
  | .mk _ yes no _, ts, h, x, hx => by
    cases h with
    | mk _ hy hn =>
      rcases List.mem_append.mp hx with hx | hx
      · simp [Block.Derives.names yes hy x hx]
      · simp [Alternative.Derives.names no hn x hx]

theorem Alternative.Derives.names : ∀ (a : Alternative) {ts : List Token}, Alternative.Derives ts a →
    ∀ x ∈ a.names, x ∈ Token.names ts
  | .nothing, ts, h, x, hx => by cases hx
  | .block body, ts, h, x, hx => by
    cases h with
    | block h =>
      cases h with
      | mk _ h => simp [Block.Derives.names body h x hx]
  | .branch b, ts, h, x, hx => by
    cases h with
    | branch h =>
      cases h with
      | mk _ h => simp [Branch.Derives.names b h x hx]

theorem Arm.Derives.allNames : ∀ (as : List Arm) {ts : List Token}, Many Arm.Derives ts as →
    ∀ x ∈ Arm.allNames as, x ∈ Token.names ts
  | [], ts, h, x, hx => by cases hx
  | .mk p body _ :: rest, ts, h, x, hx => by
    cases h with
    | cons h hrest =>
      cases h with
      | mk hp hb _ =>
        cases hb with
        | mk _ hb =>
          simp only [Arm.allNames, List.mem_append] at hx
          rcases hx with (hx | hx) | hx
          · simp [hp.names x hx]
          · simp [Block.Derives.names body hb x hx]
          · simp [Arm.Derives.allNames rest hrest x hx]

end

/-- The names that a function declares: those of its parameters, and those of its body. -/
def declaredNames (written : Header × Block) : List String :=
  written.1.params.map TypedName.name ++ written.2.names

theorem TypedName.Derives.mem_names {p : TypedName} (h : TypedName.Derives ts p) : p.name ∈ Token.names ts := by
  cases h with
  | mk hn _ => simp [hn.mem_names]

theorem Header.Derives.names {header : Header} (h : Header.Derives ts header) :
    ∀ p ∈ header.params, p.name ∈ Token.names ts := by
  intro p hp
  cases h with
  | mk _ _ hps _ =>
    cases hps with
    | mk _ hps _ =>
      cases hps with
      | empty => cases hp
      | given hps =>
        obtain ⟨us, hparam, hsub⟩ := hps.exists_of_mem hp
        simp [hsub p.name hparam.mem_names]

theorem Item.Derives.names {header : Header} {body : Block} (h : Item.Derives ts (.function header body)) :
    ∀ x ∈ declaredNames (header, body), x ∈ Token.names ts := by
  intro x hx
  cases h with
  | function hh hb =>
    cases hh with
    | mk _ hh =>
      rcases List.mem_append.mp hx with hx | hx
      · obtain ⟨p, hp, rfl⟩ := List.mem_map.mp hx
        simp [hh.names p hp]
      · simp [Block.Derives.names body hb x hx]

theorem ProgramText.names {items : List Item} (h : ProgramText ts items) :
    ∀ written ∈ bodies items, ∀ x ∈ declaredNames written, x ∈ Token.names ts := by
  induction h with
  | nil => simp [bodies]
  | @cons us item vs items h _ ih =>
    intro written hmem x hx
    rw [bodies, List.filterMap_cons] at hmem
    cases item with
    | function header body =>
      rcases List.mem_cons.mp hmem with rfl | hmem
      · simp [h.names x hx]
      · simp [ih written hmem x hx]
    | struct | enum | external => simp [ih written hmem x hx]

end Surface

namespace ReadContext

variable {cx : ReadContext}

/-- The bindings of a function that is read have the names that it declares. -/
theorem function_names {p : PendingFunction} {t u : TypeTable} {f : Function}
    {written : Surface.Header × Surface.Block} (hp : Pends written p) (h : cx.function p t = .ok (f, u)) :
    ∀ id b, f.bindings.get? id = some b → b.name ∈ Surface.declaredNames written := by
  simp only [function, bind_eq_ok, pure_eq, Except.ok.injEq, Prod.mk.injEq] at h
  obtain ⟨⟨body, s⟩, hs, rfl, -⟩ := h
  obtain ⟨_, hparams⟩ := declareParams_spec p.params { types := t }
  have hnames := (declareParams_names p.params { types := t }).trans hp.params
  intro id b hb
  rcases (block_declares p.body hs).named id b hb with hb | hname
  · rcases hparams id b hb with hnone | ⟨q, hq, rfl, _⟩
    · cases hnone
    · have hbound := (declareParams_bound p.params { types := t }).bound q hq
      obtain rfl := Option.some.inj (hb.symm.trans hbound)
      exact List.mem_append_left _ (hnames ▸ List.mem_map_of_mem hq)
  · exact List.mem_append_right _ (hp.body ▸ hname)

theorem functions_names {ps : List PendingFunction} {written : List (Surface.Header × Surface.Block)}
    (hp : List.Forall₂ Pends written ps) {t u : TypeTable} {fs : List Function}
    (h : cx.functions ps t = .ok (fs, u)) :
    ∀ f ∈ fs, ∃ w ∈ written, ∀ id b, f.bindings.get? id = some b → b.name ∈ Surface.declaredNames w := by
  induction hp generalizing t fs with
  | nil =>
    obtain ⟨rfl, _⟩ := Prod.mk.inj (Except.ok.inj h)
    simp
  | @cons w _ _ _ hp _ ih =>
    simp only [functions, bind_eq_ok, pure_eq, Except.ok.injEq, Prod.mk.injEq] at h
    obtain ⟨⟨f, v⟩, hv, ⟨fs', _⟩, hw, rfl, rfl⟩ := h
    refine List.forall_mem_cons.mpr ⟨⟨w, List.mem_cons_self, function_names hp hv⟩, fun g hg => ?_⟩
    obtain ⟨w', hw', hnames⟩ := ih hw g hg
    exact ⟨w', List.mem_cons_of_mem _ hw', hnames⟩

end ReadContext

theorem readProgram_names {text : String} {file : Option String} {program : Program}
    (h : readProgram text file = .ok program) :
    ∀ f ∈ program.functions, ∀ id b, f.bindings.get? id = some b → ∀ c ∈ b.name.toList, isNameChar c = true := by
  simp only [readProgram, bind_eq_ok, pure_eq, Except.ok.injEq] at h
  obtain ⟨items, hitems, d, hd, ⟨fs, types⟩, hf, rfl⟩ := h
  obtain ⟨tokens, hsplits, hderives⟩ := programText_of_readItems hitems
  obtain ⟨new, hnew, hpends⟩ := ReadContext.items_pend items hd
  rw [show d.functions = new by simpa using hnew] at hf
  intro f hmem id b hb
  obtain ⟨w, hw, hnames⟩ := ReadContext.functions_names hpends hf f hmem
  exact hsplits.isNameChar (hderives.names w hw b.name (hnames id b hb))

/-- A binding of a function that is read is named by name characters, or it is the return slot. -/
theorem Context.IsRead.binding_name {cx : Context} (h : cx.IsRead) {id : BindingId} {b : Binding}
    (hb : cx.function.bindings.get? id = some b) :
    (∀ c ∈ b.name.toList, isNameChar c = true) ∨ b.name = "<return>" := by
  obtain ⟨text, file, program, signatures, hread, _, f, hf, rfl⟩ := h
  obtain ⟨f₀, hf₀, rfl⟩ := List.mem_map.mp hf
  have hnames := readProgram_names hread f₀ hf₀
  have hget : (f₀.withReturnSlot program.types.unit.1).bindings.get? id = some b := hb
  unfold Function.withReturnSlot OrderedMap.insertNew at hget
  dsimp only at hget
  split at hget
  · exact .inl (hnames id b hget)
  · by_cases hid : id = returnSlot
    · rw [hid, OrderedMap.get?_insert_self] at hget
      exact .inr (by rw [← Option.some.inj hget])
    · rw [OrderedMap.get?_insert_other _ _ hid] at hget
      exact .inl (hnames id b hget)

end Ownership
