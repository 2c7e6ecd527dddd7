import Ownership.Proofs.Place.Overlap
import Ownership.Verdict

/-!
Payload fields and the slots that they stand for. The comparison of places tells payload fields apart by how
they are spelled; the type table reads them as numbers, and a number has many spellings. So places that compare
as disjoint have no storage in common unless they part at a payload field that they spell in two ways, which
cannot happen where every slot is written as a plain numeral.
-/
namespace Ownership

namespace Numeral

variable {c : Char} {cs : List Char}

theorem toNat_of_isDigit (h : c.isDigit = true) : 48 ≤ c.toNat ∧ c.toNat ≤ 57 := by
  simpa [Char.isDigit, UInt32.le_iff_toNat_le] using h

theorem digit?_of_isDigit (h : c.isDigit = true) : digit? c = some (c.toNat - '0'.toNat) := by
  obtain ⟨hle, hge⟩ := toNat_of_isDigit h
  have hfirst : zeros.find? (fun z => z ≤ c.toNat && c.toNat ≤ z + 9) = some 0x30 :=
    List.find?_cons_of_pos (by simpa using ⟨hle, hge⟩)
  rw [digit?, hfirst]
  rfl

theorem isBlank_of_isDigit (h : c.isDigit = true) : isBlank c = false := by
  obtain ⟨hle, hge⟩ := toNat_of_isDigit h
  simp only [isBlank, Bool.or_eq_false_iff, Bool.and_eq_false_iff, decide_eq_false_iff_not]
  omega

theorem dropWhile_of_digits (h : ∀ c ∈ cs, c.isDigit = true) : cs.dropWhile isBlank = cs := by
  cases cs with
  | nil => rfl
  | cons c cs => rw [List.dropWhile_cons_of_neg (by simp [isBlank_of_isDigit (h c List.mem_cons_self)])]

theorem trim_of_digits (h : ∀ c ∈ cs, c.isDigit = true) : trim cs = cs := by
  rw [trim, dropWhile_of_digits h, dropWhile_of_digits fun c hc => h c (List.mem_reverse.mp hc), List.reverse_reverse]

theorem readMore_of_digits (value : Nat) (h : ∀ c ∈ cs, c.isDigit = true) :
    readMore value cs = some (Nat.ofDigitChars 10 cs value) := by
  induction cs generalizing value with
  | nil => rfl
  | cons c cs ih =>
    obtain ⟨hc, hcs⟩ := List.forall_mem_cons.mp h
    have hbar : c ≠ '_' := by
      rintro rfl
      exact absurd hc (by decide)
    rw [readMore, digit?_of_isDigit hc, Option.bind_some, ih _ hcs, Nat.ofDigitChars_cons]
    · exact fun _ _ heq _ => hbar heq

theorem readSigned_of_digits (hne : cs ≠ []) (h : ∀ c ∈ cs, c.isDigit = true) :
    readSigned cs = some (Nat.ofDigitChars 10 cs 0) := by
  cases cs with
  | nil => exact absurd rfl hne
  | cons c cs =>
    obtain ⟨hc, hcs⟩ := List.forall_mem_cons.mp h
    have hread : readDigits (c :: cs) = some (Nat.ofDigitChars 10 (c :: cs) 0) := by
      rw [readDigits, digit?_of_isDigit hc, Option.bind_some, readMore_of_digits _ hcs, Nat.ofDigitChars_cons,
        Nat.mul_zero, Nat.zero_add]
    unfold readSigned
    split
    · rename_i heq
      obtain ⟨rfl, _⟩ := List.cons.inj heq
      exact absurd hc (by decide)
    · rename_i heq
      obtain ⟨rfl, _⟩ := List.cons.inj heq
      exact absurd hc (by decide)
    · rw [hread]
      rfl

/-- A plain numeral is read as its number, if it is not too long to be read. -/
theorem read?_toString {n : Nat} {i : Int} (h : read? (toString n) = some i) : i = n := by
  have hdigits : ∀ c ∈ Nat.toDigits 10 n, c.isDigit = true :=
    fun c hc => Nat.isDigit_of_mem_toDigits (by decide) (by decide) hc
  rw [read?, Nat.toString_eq_repr, Nat.toList_repr, trim_of_digits hdigits,
    readSigned_of_digits Nat.toDigits_ne_nil hdigits, Nat.ofDigitChars_ten_toDigits] at h
  split at h
  · exact (Option.some.inj h).symm
  · cases h

end Numeral

/-- The payload slot that a field spells, if it spells one. -/
def slot? (field : String) : Option Nat :=
  match Numeral.read? field with
  | some (.ofNat i) => some i
  | _ => none

theorem TypeTable.payloadSlot?_eq (payload : List TypeId) (field : String) :
    payloadSlot? payload field = (slot? field).bind (payload[·]?) := by
  unfold payloadSlot? slot?
  split <;> simp_all

theorem slot?_toString {n i : Nat} (h : slot? (toString n) = some i) : i = n := by
  unfold slot? at h
  split at h
  · rename_i j hread
    obtain rfl := Option.some.inj h
    exact Int.ofNat.inj (Numeral.read?_toString hread)
  · cases h

namespace Step

/-- The variant that is selected after a step. -/
def select (pending : Option String) : Step → Option String
  | .downcast variant => some variant
  | .field _ => none
  | _ => pending

/-- The payload field that a step reads, if a variant is selected. -/
def payload? (pending : Option String) : Step → Option String
  | .field name => pending.map fun _ => name
  | _ => none

end Step

/-- A step as the type table takes it. -/
inductive Cell where
  | part (step : Step)
  | slot (position : Option Nat)
  deriving DecidableEq, Repr

def Step.cell (pending : Option String) (x : Step) : Cell :=
  (x.payload? pending).elim (.part x) fun field => .slot (slot? field)

/-- A concrete path with its payload fields replaced by the slots that they spell. -/
def resolve (pending : Option String) : List Step → List Cell
  | [] => []
  | x :: xs => x.cell pending :: resolve (x.select pending) xs

/-- The payload fields of a concrete path. -/
def payloads (pending : Option String) : List Step → List String
  | [] => []
  | x :: xs => (x.payload? pending).toList ++ payloads (x.select pending) xs

/-- Two concrete paths run together up to a payload field, which they spell in two ways for the same slot. -/
inductive Respelled : Option String → List Step → List Step → Prop where
  | here {variant f g : String} {xs ys : List Step} {i : Nat} (hne : f ≠ g) (hf : slot? f = some i)
      (hg : slot? g = some i) : Respelled (some variant) (.field f :: xs) (.field g :: ys)
  | there {pending : Option String} {x : Step} {xs ys : List Step} (h : Respelled (x.select pending) xs ys) :
      Respelled pending (x :: xs) (x :: ys)

theorem Respelled.symm {pending : Option String} {xs ys : List Step} (h : Respelled pending xs ys) :
    Respelled pending ys xs := by
  induction h with
  | here hne hf hg => exact .here (Ne.symm hne) hg hf
  | there _ ih => exact .there ih

/-- Plain numerals spell a slot in one way only. -/
theorem Respelled.not_plain {pending : Option String} {xs ys : List Step} (h : Respelled pending xs ys) :
    ¬∀ field ∈ payloads pending xs ++ payloads pending ys, ∃ i : Nat, field = toString i := by
  intro hplain
  induction h with
  | @here variant f g xs ys i hne hf hg =>
    obtain ⟨a, rfl⟩ := hplain f (by simp [payloads, Step.payload?])
    obtain ⟨b, rfl⟩ := hplain g (by simp [payloads, Step.payload?])
    exact hne (congrArg toString ((slot?_toString hf).symm.trans (slot?_toString hg)))
  | @there pending x xs ys _ ih =>
    refine ih fun field hfield => hplain field ?_
    simp only [payloads, List.mem_append] at hfield ⊢
    exact hfield.imp .inr .inr

namespace Step

variable {pending : Option String} {x y : Step}

/-- Steps that come to the same are the same, or read payload fields that spell the same slot. -/
theorem eq_of_cell (h : x.cell pending = y.cell pending) : x = y ∨
    ∃ variant f g, pending = some variant ∧ x = .field f ∧ y = .field g ∧ f ≠ g ∧ slot? f = slot? g := by
  by_cases hxy : x = y
  · exact .inl hxy
  · cases pending <;> cases x <;> cases y <;> simp_all [cell, payload?]

end Step

theorem Projection.Admits.select {p : Projection} {x : Step} (h : p.Admits x) (pending : Option String) :
    TypeTable.pendingAfter pending p = x.select pending := by
  cases h <;> rfl

namespace TypeTable

variable {t : TypeTable} {place : Place} {loc : Span}

theorem slot?_of_payloadType {ty next : TypeId} {variant field : String}
    (h : t.payloadType ty variant field = .ok (some next)) : ∃ i, slot? field = some i := by
  obtain ⟨_, _, _, _, payload, _, _, _, hslot⟩ := slot_of_payloadType h
  rw [payloadSlot?_eq] at hslot
  obtain ⟨i, hi, _⟩ := Option.bind_eq_some_iff.mp hslot
  exact ⟨i, hi⟩

/-- Where a typed path comes down to a part of another one, it is a part of it, or they part at a payload field
that they spell in two ways. -/
theorem respelled_of_resolve {ps : List Projection} {xs ys : List Step} (hxs : Traces ps xs) {ty a : TypeId}
    {pending : Option String} (hps : t.walk place loc ty pending ps = .ok a)
    (h : resolve pending xs <+: resolve pending ys) : xs <+: ys ∨ Respelled pending xs ys := by
  induction hxs generalizing ys ty pending with
  | nil => exact .inl List.nil_prefix
  | @cons p x ps xs hstep _ ih =>
    cases ys with
    | nil => simp [resolve] at h
    | cons y ys =>
      obtain ⟨hcell, hrest⟩ := List.cons_prefix_cons.mp h
      obtain ⟨mid, hmid, hps⟩ := walk_cons hps
      rcases Step.eq_of_cell hcell with rfl | ⟨variant, f, g, rfl, rfl, rfl, hne, hslot⟩
      · rw [hstep.select] at hps
        rcases ih hps hrest with hfront | hsplit
        · exact .inl (List.cons_prefix_cons.mpr ⟨rfl, hfront⟩)
        · exact .inr (.there hsplit)
      · cases hstep
        obtain ⟨i, hi⟩ := slot?_of_payloadType hmid
        exact .inr (.here hne hi (hslot.symm.trans hi))

end TypeTable

/-- Two typed places with the same root that compare as disjoint, and concrete paths that they can stand for.
With every payload field replaced by the slot that the type table reads, neither path is a part of the other,
unless the paths part at a payload field that they spell in two ways for the same slot; and they never do
where all payload fields are plain numerals. -/
theorem disjoint_resolved {cx : Context} {p q : Place} {ty ty' : TypeId} (hp : cx.PlaceType p ty)
    (hq : cx.PlaceType q ty') (hroot : p.root = q.root) (h : p.compare q = .disjoint) {xs ys : List Step}
    (hxs : Traces p.path xs) (hys : Traces q.path ys) :
    (Respelled none xs ys ∨ ¬resolve none xs <+: resolve none ys ∧ ¬resolve none ys <+: resolve none xs) ∧
      ((∀ field ∈ payloads none xs ++ payloads none ys, ∃ i : Nat, field = toString i) →
        ¬resolve none xs <+: resolve none ys ∧ ¬resolve none ys <+: resolve none xs) := by
  have hapart : ¬(xs <+: ys ∨ ys <+: xs) := fun hnested => Place.compare_of_nested hroot hxs hys hnested h
  rw [not_or] at hapart
  obtain ⟨_, _, _, hwalk⟩ := hp.walk
  obtain ⟨_, _, _, hwalk'⟩ := hq.walk
  have hsplit : ¬Respelled none xs ys →
      ¬resolve none xs <+: resolve none ys ∧ ¬resolve none ys <+: resolve none xs := by
    refine fun hno => ⟨fun hfront => ?_, fun hfront => ?_⟩
    · exact (TypeTable.respelled_of_resolve hxs hwalk hfront).elim hapart.1 hno
    · exact (TypeTable.respelled_of_resolve hys hwalk' hfront).elim hapart.2 fun hr => hno hr.symm
  exact ⟨Classical.or_iff_not_imp_left.mpr hsplit, fun hplain => hsplit fun hr => hr.not_plain hplain⟩

/-- A function that borrows the first slot of a variant twice, spelled in two ways, and writes through both
borrows. -/
def spellTwice : Context where
  function :=
    { name := "spellTwice"
      params := [⟨"o", 1, 3, {}⟩]
      ret := some 1
      body := .mk [.select (.var "o" 1 {})
        [.mk (some "Some") (.mk
            [.assign (.deref (.var "a" 2 {}) {}) (.int 1 {}) {},
              .assign (.deref (.var "b" 3 {}) {}) (.int 2 {}) {},
              .ret (some (.deref (.var "a" 2 {}) {})) {}] {})
            [⟨"0", "a", 2, true, true, {}⟩, ⟨"00", "b", 3, true, true, {}⟩] {},
          .mk none (.mk [.ret (some (.int 0 {})) {}] {}) [] {}] {}] {}
      bindings := .ofList [(0, ⟨0, "return", 1, .returnValue, {}⟩), (1, ⟨1, "o", 3, .param, {}⟩),
        (2, ⟨2, "a", 2, .localVar, {}⟩), (3, ⟨3, "b", 2, .localVar, {}⟩)] }
  types :=
    { defs := [.scalar "Int" true, .ref 1 true none, .enum "O" none false]
      enums := .ofList [("O", .ofList [("Some", [1, 1]), ("None", [])])] }
  signatures := {}

/-- The slot of the variant that a field spells. -/
def payloadOf (field : String) : Place := { root := 1, path := [.downcast "Some", .field field], name := "o" }

/-- Two slots that are spelled as plain numerals are different storage. -/
theorem disjoint_resolved_spellTwice :
    let first := (payloadOf "0").path.map Projection.step
    let second := (payloadOf "1").path.map Projection.step
    (payloadOf "0").compare (payloadOf "1") = .disjoint ∧
      ¬resolve none first <+: resolve none second ∧ ¬resolve none second <+: resolve none first := by
  intro first second
  have hfirst : spellTwice.PlaceType (payloadOf "0") 1 := ⟨{}, by decide⟩
  have hsecond : spellTwice.PlaceType (payloadOf "1") 1 := ⟨{}, by decide⟩
  have hdisjoint : (payloadOf "0").compare (payloadOf "1") = .disjoint := by decide
  refine ⟨hdisjoint, (disjoint_resolved hfirst hsecond rfl hdisjoint (.map_step _) (.map_step _)).2 ?_⟩
  have hfields : payloads none first ++ payloads none second = [toString 0, toString 1] := by decide
  simp only [first, second] at hfields
  rw [hfields]
  simp only [List.forall_mem_cons]
  exact ⟨⟨0, rfl⟩, ⟨1, rfl⟩, by simp⟩

/-- Two spellings of one slot compare as disjoint, and both borrows are accepted. -/
theorem disjoint_same_slot_spellTwice :
    spellTwice.PlaceType (payloadOf "0") 1 ∧ spellTwice.PlaceType (payloadOf "00") 1 ∧
      (payloadOf "0").Spelled ∧ (payloadOf "00").Spelled ∧
      (payloadOf "0").isExact = true ∧ (payloadOf "00").isExact = true ∧
      (payloadOf "0").compare (payloadOf "00") = .disjoint ∧
      resolve none ((payloadOf "0").path.map Projection.step) =
        resolve none ((payloadOf "00").path.map Projection.step) ∧
      (spellTwice.verdict {}).toOption.map (·.1.accepted) = some true := by
  refine ⟨⟨{}, by decide⟩, ⟨{}, by decide⟩, ⟨.payload (.var "o" 1 {}) "Some" "0" {}, rfl⟩,
    ⟨.payload (.var "o" 1 {}) "Some" "00" {}, rfl⟩, ?_⟩
  decide +kernel

end Ownership
