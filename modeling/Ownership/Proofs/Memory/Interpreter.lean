import Ownership.Proofs.Memory.Execution

/-!
An interpreter for runs. It follows a given path through the graph and takes
every position that the text does not fix to be zero, so what it computes is one
of the runs.
-/
namespace Ownership

namespace Memory

/-- Memory without any pointers. -/
def blank : Memory := ⟨fun _ => none, fun _ => 0⟩

/-- The address that a path leads to. -/
def resolve? (m : Memory) : Address → List Projection → Option Address
  | a, [] => some a
  | a, p :: rest =>
    if p = .deref then (m.cells a).bind fun ptr => m.resolve? ptr.target rest
    else m.resolve? (a.extend [p.step]) rest

theorem resolves_of_resolve? {m : Memory} {a b : Address} {path : List Projection}
    (h : m.resolve? a path = some b) : Resolves m a path b := by
  induction path generalizing a with
  | nil =>
    obtain rfl := Option.some.inj h
    exact .nil a
  | cons p rest ih =>
    rw [resolve?] at h
    split at h
    · rename_i hp
      obtain ⟨ptr, hptr, hrest⟩ := Option.bind_eq_some_iff.mp h
      exact hp ▸ .deref hptr (ih hrest)
    · rename_i hp
      exact .step p.admits_step hp (ih h)

/-- The pointers that a path goes through. -/
def crossed (m : Memory) : Address → List Projection → List Pointer
  | _, [] => []
  | a, p :: rest =>
    if p = .deref then (m.cells a).elim [] fun ptr => ptr :: m.crossed ptr.target rest
    else m.crossed (a.extend [p.step]) rest

theorem crosses_of_mem_crossed {m : Memory} {a : Address} {path : List Projection} {ptr : Pointer}
    (h : ptr ∈ m.crossed a path) : Crosses m a path ptr := by
  induction path generalizing a with
  | nil => cases h
  | cons p rest ih =>
    rw [crossed] at h
    split at h
    · rename_i hp
      subst hp
      cases hc : m.cells a with
      | none => simp [hc] at h
      | some first =>
        rw [hc, Option.elim_some] at h
        rcases List.mem_cons.mp h with rfl | h
        · exact .here hc
        · exact .deref hc (ih h)
    · rename_i hp
      exact .step p.admits_step hp (ih h)

instance (m : Memory) (ptr : Pointer) : Decidable (m.Dangling ptr) :=
  match h : ptr.target.root with
  | .binding id =>
    decidable_of_iff (ptr.birth < m.ended id) (by simp [Dangling, h])
  | .outside _ => isFalse (by simp [Dangling, h])

/-- The address of a place expression. -/
def locate? (m : Memory) (e : Expr) : Option Address :=
  (Place.ofExpr? e).bind fun place => m.resolve? place.root.address place.path

theorem resolves_of_locate? {m : Memory} {e : Expr} {a : Address} (h : m.locate? e = some a) :
    ∃ place, Place.ofExpr? e = some place ∧ Resolves m place.root.address place.path a := by
  obtain ⟨place, hplace, hr⟩ := Option.bind_eq_some_iff.mp h
  exact ⟨place, hplace, resolves_of_resolve? hr⟩

/-- The values of the parts of an aggregate, by position. -/
def parts (values : List Contents) (i : Nat) : Contents := (values[i]?).getD .empty

mutual

def evaluate? (m : Memory) : Expr → Option Contents
  | .int _ _ | .bool _ _ | .unit _ | .unary _ _ _ | .binary _ _ _ _ => some .empty
  | .borrow subject _ _ => (m.locate? subject).map fun a => .pointer (m.pointTo a)
  | .construct _ inits _ => (m.evaluateFields? inits).map fun vs => .fields inits (parts vs)
  | .inject _ variant args _ => (m.evaluateAll? args).map fun vs => .payload variant args.length (parts vs)
  | .call _ _ _ | .foreign => none
  | e@(.var _ _ _) | e@(.field _ _ _) | e@(.index _ _ _) | e@(.deref _ _) | e@(.payload _ _ _ _) =>
    (m.locate? e).map m.read

def evaluateFields? (m : Memory) : List FieldInit → Option (List Contents)
  | [] => some []
  | .mk _ e :: rest => (m.evaluate? e).bind fun v => (m.evaluateFields? rest).map (v :: ·)

def evaluateAll? (m : Memory) : List Expr → Option (List Contents)
  | [] => some []
  | e :: rest => (m.evaluate? e).bind fun v => (m.evaluateAll? rest).map (v :: ·)

end

theorem evaluates_of_read {m : Memory} {e : Expr} {v : Contents} (h : (m.locate? e).map m.read = some v) :
    Evaluates m e v := by
  obtain ⟨a, ha, rfl⟩ := Option.map_eq_some_iff.mp h
  obtain ⟨place, hplace, hr⟩ := resolves_of_locate? ha
  exact .place hplace hr

mutual

theorem evaluates_of_evaluate? {m : Memory} : ∀ (e : Expr) {v : Contents}, m.evaluate? e = some v → Evaluates m e v
  | .int _ _, v, h | .bool _ _, v, h | .unit _, v, h | .unary _ _ _, v, h | .binary _ _ _ _, v, h => by
    obtain rfl := Option.some.inj h
    constructor
  | .borrow subject mutable loc, v, h => by
    simp only [evaluate?, Option.map_eq_some_iff] at h
    obtain ⟨a, ha, rfl⟩ := h
    obtain ⟨place, hplace, hr⟩ := resolves_of_locate? ha
    exact .borrow hplace hr
  | .construct ty inits loc, v, h => by
    simp only [evaluate?, Option.map_eq_some_iff] at h
    obtain ⟨vs, hvs, rfl⟩ := h
    exact .construct fun i f hf => evaluates_of_evaluateFields? inits hvs hf
  | .inject ty variant args loc, v, h => by
    simp only [evaluate?, Option.map_eq_some_iff] at h
    obtain ⟨vs, hvs, rfl⟩ := h
    exact .inject fun i e he => evaluates_of_evaluateAll? args hvs he
  | .call _ _ _, v, h | .foreign, v, h => by simp [evaluate?] at h
  | .var _ _ _, v, h | .field _ _ _, v, h | .index _ _ _, v, h | .deref _ _, v, h | .payload _ _ _ _, v, h => by
    rw [evaluate?] at h
    exact evaluates_of_read h

theorem evaluates_of_evaluateFields? {m : Memory} : ∀ (inits : List FieldInit) {vs : List Contents},
    m.evaluateFields? inits = some vs → ∀ {i : Nat} {f : FieldInit}, inits[i]? = some f →
      Evaluates m f.value (parts vs i)
  | [], vs, h, i, f, hf => by cases hf
  | .mk name e :: rest, vs, h, i, f, hf => by
    simp only [evaluateFields?, Option.bind_eq_some_iff, Option.map_eq_some_iff] at h
    obtain ⟨v, hv, vs', hvs, rfl⟩ := h
    cases i with
    | zero =>
      obtain rfl := Option.some.inj hf
      exact evaluates_of_evaluate? e hv
    | succ i => exact evaluates_of_evaluateFields? rest hvs hf

theorem evaluates_of_evaluateAll? {m : Memory} : ∀ (es : List Expr) {vs : List Contents},
    m.evaluateAll? es = some vs → ∀ {i : Nat} {e : Expr}, es[i]? = some e → Evaluates m e (parts vs i)
  | [], vs, h, i, e, he => by cases he
  | first :: rest, vs, h, i, e, he => by
    simp only [evaluateAll?, Option.bind_eq_some_iff, Option.map_eq_some_iff] at h
    obtain ⟨v, hv, vs', hvs, rfl⟩ := h
    cases i with
    | zero =>
      obtain rfl := Option.some.inj he
      exact evaluates_of_evaluate? first hv
    | succ i => exact evaluates_of_evaluateAll? rest hvs he

end

/-- The memory after a statement. -/
def execute? (m : Memory) : Stmt → Option Memory
  | .storageDead id _ _ => some (m.finish id)
  | .declare _ id none _ => some (m.clear id)
  | .declare _ id (some e) _ => (m.evaluate? e).map (m.write id.address)
  | .assign target e _ => (m.evaluate? e).bind fun v => (m.locate? target).map (m.write · v)
  | .eval _ _ => some m
  | _ => none

theorem executes_of_execute? {m m' : Memory} {s : Stmt} (h : m.execute? s = some m') : Executes m s m' := by
  unfold execute? at h
  split at h
  · obtain rfl := Option.some.inj h
    constructor
  · obtain rfl := Option.some.inj h
    constructor
  · obtain ⟨v, hv, rfl⟩ := Option.map_eq_some_iff.mp h
    exact .init (evaluates_of_evaluate? _ hv)
  · obtain ⟨v, hv, h⟩ := Option.bind_eq_some_iff.mp h
    obtain ⟨a, ha, rfl⟩ := Option.map_eq_some_iff.mp h
    obtain ⟨place, hplace, hr⟩ := resolves_of_locate? ha
    exact .assign (evaluates_of_evaluate? _ hv) hplace hr
  · obtain rfl := Option.some.inj h
    constructor
  · cases h

end Memory

namespace Graph

variable {g : Graph}

/-- The memory after a point. -/
def perform? (g : Graph) (p : Point) (m : Memory) : Option Memory := (g.statementAt p).elim (some m) m.execute?

theorem runs_of_perform? {p : Point} {m m' : Memory} (h : g.perform? p m = some m') : g.Runs p m m' := by
  unfold perform? at h
  unfold Runs
  cases hs : g.statementAt p with
  | none =>
    rw [hs] at h
    exact (Option.some.inj h).symm
  | some s =>
    rw [hs] at h
    exact Memory.executes_of_execute? h

/-- The memory before the last point of a path. -/
def follow? (g : Graph) : Point → List Point → Memory → Option Memory
  | _, [], m => some m
  | p, q :: path, m => if q ∈ g.pointSuccessors p then (g.perform? p m).bind (g.follow? q path) else none

theorem memoryAt_of_follow? {start : Memory → Prop} {p : Point} {path : List Point} {m m' : Memory}
    (hp : p ∈ g.allPoints) (hm : MemoryAt g start p m) (h : g.follow? p path m = some m') :
    MemoryAt g start (path.getLastD p) m' := by
  induction path generalizing p m with
  | nil =>
    obtain rfl := Option.some.inj h
    exact hm
  | cons q path ih =>
    rw [follow?] at h
    split at h
    · rename_i hq
      obtain ⟨m₁, hm₁, hrest⟩ := Option.bind_eq_some_iff.mp h
      rw [List.getLastD_cons]
      refine ih (successor_mem_allPoints hp hq) (hm.next ?_ (runs_of_perform? hm₁)) hrest
      exact follows_of_mem (mem_allPoints.mp hp).2 hq
    · cases h

/-- Whether some access at the end of a path goes through a pointer that passes a test. The run
starts with nothing in memory. -/
def meets (g : Graph) (fx : EffectMap) (path : List Point) (test : Memory → Pointer → Bool) : Bool :=
  (g.follow? ⟨g.entry, 0⟩ path .blank).any fun m =>
    (fx.accesses (path.getLastD ⟨g.entry, 0⟩)).any fun a =>
      (m.crossed a.place.root.address a.place.path).any (test m)

theorem crosses_of_meets {fx : EffectMap} {path : List Point} {test : Memory → Pointer → Bool}
    (h : g.meets fx path test = true) {start : Memory → Prop} (hstart : start .blank) :
    ∃ m a ptr, MemoryAt g start (path.getLastD ⟨g.entry, 0⟩) m ∧
      a ∈ fx.accesses (path.getLastD ⟨g.entry, 0⟩) ∧
      Crosses m a.place.root.address a.place.path ptr ∧ test m ptr = true := by
  simp only [meets, Option.any_eq_true, List.any_eq_true] at h
  obtain ⟨m, hm, a, ha, ptr, hptr, htest⟩ := h
  exact ⟨m, a, ptr, memoryAt_of_follow? g.entry_mem_allPoints (.entry hstart) hm, ha,
    Memory.crosses_of_mem_crossed hptr, htest⟩

end Graph

end Ownership
