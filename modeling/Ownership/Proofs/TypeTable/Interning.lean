import Ownership.Proofs.Source.Resolving
import Ownership.Proofs.TypeTable.Founded

/-!
What is put into a type table keeps it founded: a type whose parts are there already, and a
struct or enum whose fields and payloads are.
-/
namespace Ownership

open Outcome

namespace OrderedMap

variable {κ ν : Type} [DecidableEq κ] {m : OrderedMap κ ν} {k j : κ} {v w : ν}

theorem mem_values_insert (h : w ∈ (m.insert k v).values) : w = v ∨ w ∈ m.values := by
  obtain ⟨e, he, rfl⟩ := List.mem_map.mp h
  rcases mem_insertInto he with rfl | he
  · exact .inl rfl
  · exact .inr (List.mem_map_of_mem he)

theorem get?_insert_of_new (hnew : m.get? k = none) (h : m.get? j = some w) : (m.insert k v).get? j = some w := by
  have hne : j ≠ k := by
    rintro rfl
    rw [hnew] at h
    cases h
  exact (get?_insert_other _ _ hne).trans h

theorem eq_or_get?_of_insert (h : (m.insert k v).get? j = some w) : w = v ∨ m.get? j = some w := by
  by_cases hj : j = k
  · rw [hj, get?_insert_self] at h
    exact .inl (Option.some.inj h).symm
  · exact .inr ((get?_insert_other _ _ hj).symm.trans h)

end OrderedMap

/-- A type that is made of no other types. -/
def TypeDef.isPlain : TypeDef → Bool
  | .ref .. | .array _ | .struct .. | .enum .. => false
  | _ => true

/-- The types that a layout mentions. -/
def Layout.parts : Layout → List TypeId
  | .struct fields => fields.values
  | .enum arms => arms.values.flatten

namespace TypeTable

variable {t u v : TypeTable} {ty : TypeId} {d : TypeDef}

/-- A founded table has come to be from another one, and no type was lost. -/
structure Adds (t u : TypeTable) : Prop where
  founded : u.Founded
  grows : t.defs.length ≤ u.defs.length

theorem Adds.refl (h : t.Founded) : t.Adds t := ⟨h, Nat.le_refl _⟩

theorem Adds.trans (h : t.Adds u) (k : u.Adds v) : t.Adds v := ⟨k.founded, Nat.le_trans h.grows k.grows⟩

theorem Adds.knows (h : t.Adds u) (hty : t.Knows ty) : u.Knows ty := hty.mono h.grows

theorem Part.of_layouts (h : t.SameLayouts u) {part : TypeId} (hpart : u.Part d part) : t.Part d part := by
  cases hpart with
  | target => exact .target
  | element => exact .element
  | field hget hmem => exact .field (h.structs ▸ hget) hmem
  | payload hget hmem => exact .payload (h.enums ▸ hget) hmem

theorem LaidOut.of_layouts (h : t.SameLayouts u) (hd : t.LaidOut d) : u.LaidOut d := by
  cases d with
  | struct name region copy =>
    obtain ⟨fields, hfields⟩ := hd
    exact ⟨fields, by rw [h.structs]; exact hfields⟩
  | enum name region copy =>
    obtain ⟨arms, harms⟩ := hd
    exact ⟨arms, by rw [h.enums]; exact harms⟩
  | scalar | unit | unknown | ref | array => trivial

/-- A type whose parts are known can be added. -/
theorem intern_adds (h : t.Founded) (hi : t.intern d = (ty, u)) (hlayout : t.LaidOut d)
    (hparts : ∀ part, t.Part d part → t.Knows part) : t.Adds u ∧ u.Knows ty := by
  have hsame := t.sameLayouts_of_intern hi
  unfold intern at hi
  split at hi
  · rename_i i hfind
    obtain ⟨rfl, rfl⟩ := Prod.mk.inj hi
    have hlt := (List.findIdx?_eq_some_iff_findIdx_eq.mp hfind).1
    exact ⟨.refl h, by simp only [Knows]; omega⟩
  · obtain ⟨rfl, rfl⟩ := Prod.mk.inj hi
    have hgrows : t.defs.length ≤ (t.defs ++ [d]).length := by simp
    have hget : ∀ {x : Int} {e}, TypeTable.get { t with defs := t.defs ++ [d] } x = .ok e →
        t.get x = .ok e ∨ x = (t.defs.length : Int) + 1 ∧ e = d := by
      intro x e hx
      obtain ⟨i, rfl, he⟩ := get_eq_ok.mp hx
      rcases Nat.lt_or_ge i t.defs.length with hlt | hge
      · exact .inl (get_eq_ok.mpr ⟨i, rfl, by rwa [List.getElem?_append_left hlt] at he⟩)
      · rw [List.getElem?_append_right hge, List.getElem?_singleton] at he
        split at he
        · exact .inr ⟨by omega, (Option.some.inj he).symm⟩
        · cases he
    refine ⟨⟨⟨fun x e hx => ?_, fun x e part hx hpart => ?_, fun name fields hf part hpart => ?_,
      fun name arms ha part hpart => ?_⟩, hgrows⟩, ?_⟩
    · rcases hget hx with hold | ⟨_, rfl⟩
      · exact (h.layout x e hold).of_layouts hsame
      · exact hlayout.of_layouts hsame
    · have hpart' := hpart.of_layouts hsame
      rcases hget hx with hold | ⟨rfl, rfl⟩
      · exact h.below x e part hold hpart'
      · obtain ⟨hpos, hle⟩ := hparts part hpart'
        exact ⟨hpos, by omega⟩
    · exact (h.structs name fields hf part hpart).mono hgrows
    · exact (h.enums name arms ha part hpart).mono hgrows
    · simp only [Knows, List.length_append, List.length_singleton]
      omega

theorem intern_plain (h : t.Founded) (hi : t.intern d = (ty, u)) (hd : d.isPlain = true) : t.Adds u ∧ u.Knows ty := by
  refine intern_adds h hi ?_ fun part hpart => ?_
  · cases d with
    | struct | enum => cases hd
    | _ => trivial
  · cases hpart <;> cases hd

theorem ref_adds (h : t.Founded) {target : TypeId} (htarget : t.Knows target) {mutable : Bool} {region : Option String}
    (hi : t.ref target mutable region = (ty, u)) : t.Adds u ∧ u.Knows ty := by
  refine intern_adds h hi trivial fun part hpart => ?_
  cases hpart
  exact htarget

theorem array_adds (h : t.Founded) {element : TypeId} (helement : t.Knows element) (hi : t.array element = (ty, u)) :
    t.Adds u ∧ u.Knows ty := by
  refine intern_adds h hi trivial fun part hpart => ?_
  cases hpart
  exact helement

theorem aggregate_adds (h : t.Founded) {k : Kind} {name : String} {region : Option String}
    (hi : t.aggregate k name region = .ok (ty, u)) : t.Adds u ∧ u.Knows ty := by
  unfold aggregate at hi
  split at hi
  · rename_i hhas
    refine intern_adds h (Except.ok.inj hi) ?_ fun part hpart => ?_
    · cases k <;> exact Option.isSome_iff_exists.mp hhas
    · cases k with
      | struct =>
        cases hpart with
        | field hget hmem => exact h.structs _ _ hget part hmem
      | enum =>
        cases hpart with
        | payload hget hmem => exact h.enums _ _ hget part hmem
  · cases hi

variable {id : TypeId} {name : String} {copy : Bool}

/-- More layouts change nothing for the types that are there. -/
theorem Founded.of_more (h : t.Founded) (hdefs : u.defs = t.defs)
    (hs : ∀ n fields, t.structs.get? n = some fields → u.structs.get? n = some fields)
    (he : ∀ n arms, t.enums.get? n = some arms → u.enums.get? n = some arms)
    (hfields : ∀ n fields, u.structs.get? n = some fields → ∀ part ∈ fields.values, t.Knows part)
    (harms : ∀ n arms, u.enums.get? n = some arms → ∀ part ∈ arms.values.flatten, t.Knows part) : u.Founded := by
  have hget : ∀ ty, u.get ty = t.get ty := by
    intro ty
    unfold get
    rw [hdefs]
  have hknows : ∀ {part : Int}, t.Knows part → u.Knows part := fun hpart => hpart.mono (Nat.le_of_eq (by rw [hdefs]))
  refine ⟨fun ty d hd => ?_, fun ty d part hd hpart => ?_,
    fun n fields hn part hpart => hknows (hfields n fields hn part hpart),
    fun n arms hn part hpart => hknows (harms n arms hn part hpart)⟩
  · have hlayout := h.layout ty d ((hget ty).symm.trans hd)
    cases d with
    | struct n region copy =>
      obtain ⟨fields, hold⟩ := hlayout
      exact ⟨fields, hs n fields hold⟩
    | enum n region copy =>
      obtain ⟨arms, hold⟩ := hlayout
      exact ⟨arms, he n arms hold⟩
    | scalar | unit | unknown | ref | array => trivial
  · have hd := (hget ty).symm.trans hd
    refine h.below ty d part hd ?_
    have hlayout := h.layout ty d hd
    cases hpart with
    | target => exact .target
    | element => exact .element
    | field hnew hmem =>
      obtain ⟨fields, hold⟩ := hlayout
      obtain rfl := Option.some.inj ((hs _ fields hold).symm.trans hnew)
      exact .field hold hmem
    | payload hnew hmem =>
      obtain ⟨arms, hold⟩ := hlayout
      obtain rfl := Option.some.inj ((he _ arms hold).symm.trans hnew)
      exact .payload hold hmem

theorem Founded.register (h : t.Founded) (hnew : t.isDeclared name = false) {layout : Layout}
    (hparts : ∀ part ∈ layout.parts, t.Knows part) : (t.register name layout).Founded := by
  obtain ⟨hstruct, henum⟩ := not_isDeclared hnew
  cases layout with
  | struct fields =>
    refine h.of_more rfl (fun _ _ hn => OrderedMap.get?_insert_of_new hstruct hn) (fun _ _ hn => hn)
      (fun n fs hn => ?_) h.enums
    rcases OrderedMap.eq_or_get?_of_insert hn with rfl | hold
    · exact hparts
    · exact h.structs n fs hold
  | enum arms =>
    refine h.of_more rfl (fun _ _ hn => hn) (fun _ _ hn => OrderedMap.get?_insert_of_new henum hn) h.structs
      fun n as hn => ?_
    rcases OrderedMap.eq_or_get?_of_insert hn with rfl | hold
    · exact hparts
    · exact h.enums n as hold

theorem Founded.markCopy (h : t.Founded) (name : String) (copy : Bool) : (t.markCopy name copy).Founded := by
  cases copy with
  | false => exact h
  | true => exact h.of_more rfl (fun _ _ hn => hn) (fun _ _ hn => hn) h.structs h.enums

/-- A layout of known types can be declared. -/
theorem declare_adds (h : t.Founded) {layout : Layout} (hd : t.declare name layout copy = .ok (id, u))
    (hparts : ∀ part ∈ layout.parts, t.Knows part) : t.Adds u := by
  unfold declare at hd
  split at hd
  · cases hd
  · rename_i hnew
    have hfounded := (h.register (Bool.eq_false_iff.mpr hnew) hparts).markCopy name copy
    obtain ⟨hadds, _⟩ := aggregate_adds hfounded hd
    have hdefs : ((t.register name layout).markCopy name copy).defs = t.defs := by
      cases layout <;> cases copy <;> rfl
    exact ⟨hadds.founded, hdefs ▸ hadds.grows⟩

end TypeTable

end Ownership
