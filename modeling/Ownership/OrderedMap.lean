/-!
Finite maps that remember the order in which their keys first came. Writing to
a key that is present keeps its place and replaces its value.
-/
namespace Ownership

structure OrderedMap (κ ν : Type) where
  entries : List (κ × ν)
  distinct : (entries.map Prod.fst).Nodup
  deriving Repr

instance {κ ν : Type} : EmptyCollection (OrderedMap κ ν) := ⟨⟨[], .nil⟩⟩

instance {κ ν : Type} : Inhabited (OrderedMap κ ν) := ⟨{}⟩

namespace OrderedMap

variable {κ ν : Type} [DecidableEq κ]

def keys (m : OrderedMap κ ν) : List κ := m.entries.map Prod.fst

def values (m : OrderedMap κ ν) : List ν := m.entries.map Prod.snd

def get? (m : OrderedMap κ ν) (k : κ) : Option ν := m.entries.lookup k

def contains (m : OrderedMap κ ν) (k : κ) : Bool := (m.get? k).isSome

def insertInto (k : κ) (v : ν) : List (κ × ν) → List (κ × ν)
  | [] => [(k, v)]
  | (k', v') :: rest => if k' = k then (k', v) :: rest else (k', v') :: insertInto k v rest

/-- Writing to a key that is present keeps the order of the keys. -/
theorem keys_insertInto_of_mem {k : κ} (v : ν) {es : List (κ × ν)} (h : k ∈ es.map Prod.fst) :
    (insertInto k v es).map Prod.fst = es.map Prod.fst := by
  induction es with
  | nil => simp at h
  | cons e es ih =>
    obtain ⟨k', v'⟩ := e
    by_cases hk : k' = k
    · simp [insertInto, hk]
    · have ht : k ∈ es.map Prod.fst := by simpa [Ne.symm hk] using h
      simp [insertInto, hk, ih ht]

/-- A new key comes last. -/
theorem keys_insertInto_of_not_mem {k : κ} (v : ν) {es : List (κ × ν)}
    (h : k ∉ es.map Prod.fst) :
    (insertInto k v es).map Prod.fst = es.map Prod.fst ++ [k] := by
  induction es with
  | nil => simp [insertInto]
  | cons e es ih =>
    obtain ⟨k', v'⟩ := e
    have hk : k' ≠ k := by
      intro he
      exact h (by simp [he])
    have ht : k ∉ es.map Prod.fst := by
      intro hm
      exact h (by simp only [List.map_cons, List.mem_cons]; exact Or.inr hm)
    simp [insertInto, hk, ih ht]

theorem nodup_insertInto (k : κ) (v : ν) {es : List (κ × ν)} (h : (es.map Prod.fst).Nodup) :
    ((insertInto k v es).map Prod.fst).Nodup := by
  by_cases hk : k ∈ es.map Prod.fst
  · rwa [keys_insertInto_of_mem v hk]
  · rw [keys_insertInto_of_not_mem v hk]
    refine List.nodup_append.mpr ⟨h, by simp, ?_⟩
    intro x hx y hy hxy
    rw [List.mem_singleton.mp hy] at hxy
    exact hk (hxy ▸ hx)

def insert (m : OrderedMap κ ν) (k : κ) (v : ν) : OrderedMap κ ν :=
  ⟨insertInto k v m.entries, nodup_insertInto k v m.distinct⟩

/-- Writes only where the key is absent. -/
def insertNew (m : OrderedMap κ ν) (k : κ) (v : ν) : OrderedMap κ ν :=
  if m.contains k then m else m.insert k v

def ofList (pairs : List (κ × ν)) : OrderedMap κ ν :=
  pairs.foldl (fun m p => m.insert p.1 p.2) {}

/-- Gives each of the keys its value. -/
def tabulate (f : κ → ν) (ks : List κ) : OrderedMap κ ν := ofList (ks.map fun k => (k, f k))

def filter (p : κ × ν → Bool) (m : OrderedMap κ ν) : OrderedMap κ ν :=
  ⟨m.entries.filter p, m.distinct.sublist (List.filter_sublist.map Prod.fst)⟩

theorem lookup_insertInto_self (k : κ) (v : ν) (es : List (κ × ν)) :
    (insertInto k v es).lookup k = some v := by
  induction es with
  | nil => simp [insertInto]
  | cons e es ih =>
    obtain ⟨k', v'⟩ := e
    by_cases h : k' = k
    · subst h
      simp [insertInto]
    · have hb : (k == k') = false := by simpa using fun he => h he.symm
      simp [insertInto, h, List.lookup_cons, hb, ih]

theorem lookup_insertInto_other {k j : κ} (v : ν) (h : j ≠ k) (es : List (κ × ν)) :
    (insertInto k v es).lookup j = es.lookup j := by
  induction es with
  | nil =>
    have hb : (j == k) = false := by simpa using h
    simp [insertInto, List.lookup_cons, hb]
  | cons e es ih =>
    obtain ⟨k', v'⟩ := e
    by_cases hk : k' = k
    · subst hk
      have hb : (j == k') = false := by simpa using h
      simp [insertInto, List.lookup_cons, hb]
    · simp [insertInto, hk, List.lookup_cons, ih]

theorem mem_insertInto {k : κ} {v : ν} {es : List (κ × ν)} {e : κ × ν} (h : e ∈ insertInto k v es) :
    e = (k, v) ∨ e ∈ es := by
  induction es with
  | nil => exact .inl (by simpa [insertInto] using h)
  | cons x es ih =>
    obtain ⟨k', v'⟩ := x
    rw [insertInto] at h
    split at h
    · rename_i hk
      rcases List.mem_cons.mp h with rfl | h
      · exact .inl (by rw [hk])
      · exact .inr (List.mem_cons_of_mem _ h)
    · rcases List.mem_cons.mp h with rfl | h
      · exact .inr List.mem_cons_self
      · exact (ih h).imp_right (List.mem_cons_of_mem _)

theorem mem_entries_of_get? {m : OrderedMap κ ν} {k : κ} {v : ν} (h : m.get? k = some v) :
    (k, v) ∈ m.entries := by
  obtain ⟨before, after, heq, _⟩ := List.lookup_eq_some_iff.mp h
  simp [heq]

@[simp] theorem get?_insert_self (m : OrderedMap κ ν) (k : κ) (v : ν) :
    (m.insert k v).get? k = some v :=
  lookup_insertInto_self k v m.entries

theorem get?_insert_other (m : OrderedMap κ ν) {k j : κ} (v : ν) (h : j ≠ k) :
    (m.insert k v).get? j = m.get? j :=
  lookup_insertInto_other v h m.entries

omit [DecidableEq κ] in
@[simp] theorem entries_empty : ({} : OrderedMap κ ν).entries = [] := rfl

@[simp] theorem get?_empty (k : κ) : ({} : OrderedMap κ ν).get? k = none := rfl

@[simp] theorem contains_insert_self (m : OrderedMap κ ν) (k : κ) (v : ν) :
    (m.insert k v).contains k = true := by
  simp [contains]

theorem keys_insert_of_mem (m : OrderedMap κ ν) {k : κ} (v : ν) (h : k ∈ m.keys) :
    (m.insert k v).keys = m.keys :=
  keys_insertInto_of_mem v h

omit [DecidableEq κ] in
theorem nodup_keys (m : OrderedMap κ ν) : m.keys.Nodup := m.distinct

theorem lookup_of_mem {es : List (κ × ν)} (h : (es.map Prod.fst).Nodup) {k : κ} {v : ν}
    (hmem : (k, v) ∈ es) : es.lookup k = some v := by
  induction es with
  | nil => cases hmem
  | cons e es ih =>
    obtain ⟨k', v'⟩ := e
    obtain ⟨hnew, hrest⟩ := List.nodup_cons.mp h
    rcases List.mem_cons.mp hmem with he | hin
    · obtain ⟨rfl, rfl⟩ := Prod.mk.inj he
      simp
    · have hne : (k == k') = false := by
        rw [beq_eq_false_iff_ne]
        rintro rfl
        exact hnew (List.mem_map.mpr ⟨(k, v), hin, rfl⟩)
      simpa [List.lookup_cons, hne] using ih hrest hin

theorem get?_eq_some_of_mem {m : OrderedMap κ ν} {k : κ} {v : ν} (h : (k, v) ∈ m.entries) :
    m.get? k = some v :=
  lookup_of_mem m.distinct h

theorem mem_keys {m : OrderedMap κ ν} {k : κ} : k ∈ m.keys ↔ ∃ v, m.get? k = some v := by
  constructor
  · intro h
    obtain ⟨⟨k', v⟩, hmem, rfl⟩ := List.mem_map.mp h
    exact ⟨v, get?_eq_some_of_mem hmem⟩
  · rintro ⟨v, h⟩
    exact List.mem_map.mpr ⟨(k, v), mem_entries_of_get? h, rfl⟩

theorem get?_tabulate (f : κ → ν) (ks : List κ) (k : κ) :
    (tabulate f ks).get? k = if k ∈ ks then some (f k) else none := by
  have hfold : ∀ (ks : List κ) (m : OrderedMap κ ν),
      ((ks.map fun k => (k, f k)).foldl (fun m p => m.insert p.1 p.2) m).get? k =
        if k ∈ ks then some (f k) else m.get? k := by
    intro ks
    induction ks with
    | nil => exact fun m => rfl
    | cons j ks ih =>
      intro m
      rw [List.map_cons, List.foldl_cons, ih]
      by_cases hmem : k ∈ ks
      · simp [hmem]
      · by_cases hk : k = j
        · simp [hk]
        · simp [hmem, hk, get?_insert_other m (f j) hk]
  exact hfold ks {}

@[simp] theorem mem_keys_tabulate {f : κ → ν} {ks : List κ} {k : κ} : k ∈ (tabulate f ks).keys ↔ k ∈ ks := by
  simp [mem_keys, get?_tabulate]

end OrderedMap

end Ownership
