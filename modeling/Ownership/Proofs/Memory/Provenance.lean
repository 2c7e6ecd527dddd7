import Ownership.Proofs.Effect.Operands
import Ownership.Proofs.Loan.Exclusivity
import Ownership.Proofs.Memory.Typing
import Ownership.Proofs.Region.Inference

/-!
Where the pointers in memory come from. Each was made by a borrow of storage
that belongs to a binding, perhaps by way of further pointers, or came in from
the caller. Region variables follow pointers: the variable of a binding is to
account for every pointer in the storage of the binding, the variable of a loan
for every pointer in the storage that is lent. `Needs` says what this takes; it
asks for more than is generated where references are stored behind references.
-/
namespace Ownership

open Outcome

namespace Stages

/-- The loan is of storage of a binding itself that can hold references, and the variable is that of
the binding. -/
def Lends (s : Stages) (cx : Context) (k : Site) (v : RegionVar) : Prop :=
  ∃ p ∈ s.graph.allPoints, ∃ a ∈ s.effects.accesses p, a.loan = some k ∧ a.place.throughDeref = false ∧
    (∃ ty n, cx.PlaceType a.place ty ∧ cx.types.Holds ty n) ∧
    (s.regions cx).holder? a.place.root = some v

/-- The first variable accounts for pointers that the second one accounts for. Besides what is
generated, a loan accounts for what its storage holds, and a variable for what is stored in its
storage by way of a reference. -/
inductive Needs (s : Stages) (cx : Context) : RegionVar → RegionVar → Prop where
  | refl (v : RegionVar) : Needs s cx v v
  | trans {u v w : RegionVar} (h : Needs s cx u v) (k : Needs s cx v w) : Needs s cx u w
  | generated {u v : RegionVar} (h : s.generated.Relates u v) : Needs s cx u v
  | universal {m n : String} (hm : m ∈ s.frame.universals) (hn : n ∈ s.frame.universals) :
      Needs s cx (.universal m) (.universal n)
  | lent {k : Site} {v : RegionVar} (h : s.Lends cx k v) : Needs s cx (.loan k) v
  | stored {p : Point} {f : Flow} {q v u : RegionVar} {k : Site} {src : Source}
      (hp : p ∈ s.graph.allPoints) (hf : f ∈ (s.effects.get p).flows) (hd : f.dest.throughDeref = true)
      (hq : (s.regions cx).holder? f.dest.root = some q) (hk : Needs s cx q (.loan k))
      (hv : s.Lends cx k v) (hsrc : src ∈ f.value) (hu : (s.regions cx).HasVar src u) : Needs s cx v u
  | storedOutside {p : Point} {f : Flow} {q u : RegionVar} {n : String} {src : Source}
      (hp : p ∈ s.graph.allPoints) (hf : f ∈ (s.effects.get p).flows) (hd : f.dest.throughDeref = true)
      (hq : (s.regions cx).holder? f.dest.root = some q) (hk : Needs s cx q (.universal n))
      (hn : n ∈ s.frame.universals) (hsrc : src ∈ f.value) (hu : (s.regions cx).HasVar src u) :
      Needs s cx (.universal n) u

/-- The inferred extents allow for all that. -/
def Respects (s : Stages) (cx : Context) : Prop := ∀ u v, s.Needs cx u v → s.Within u v

/-- The variable that accounts for the pointers in some storage. -/
def Owner (s : Stages) (cx : Context) : Root → RegionVar → Prop
  | .binding id, v => (s.regions cx).holder? id = some v
  | .outside _, v => ∃ n ∈ s.frame.universals, v = .universal n

end Stages

/-- What made a pointer: an access that borrows storage of a binding, or the caller. -/
inductive Origin where
  | borrow (a : Access) (k : Site)
  | caller (name : String)

def Origin.var : Origin → RegionVar
  | .borrow _ k => .loan k
  | .caller name => .universal name

namespace Stages

/-- The pointer leads into storage that its origin gave access to. -/
def Made (s : Stages) (ptr : Pointer) : Origin → Prop
  | .borrow a k => ∃ p ∈ s.graph.allPoints, a ∈ s.effects.accesses p ∧ a.loan = some k ∧
      a.place.throughDeref = false ∧ ptr.target.root = .binding a.place.root ∧
      ∃ steps, Traces a.place.path steps ∧ steps <+: ptr.target.path
  | .caller name => name ∈ s.frame.universals ∧ ∃ n, ptr.target.root = .outside n

/-- The loan of the origin is in scope before the point. -/
def InScope (s : Stages) (p : Point) : Origin → Prop
  | .borrow a _ => ∃ l ∈ s.loans.scopeAt p, a.loan? = some l
  | .caller _ => True

/-- The loan of the origin is in scope before the point, or made there. -/
def Held (s : Stages) (p : Point) : Origin → Prop
  | .borrow a _ => (∃ l ∈ s.loans.scopeAt p, a.loan? = some l) ∨ a ∈ s.effects.accesses p
  | .caller _ => True

theorem InScope.held {s : Stages} {p : Point} {o : Origin} (h : s.InScope p o) : s.Held p o := by
  cases o with
  | borrow a k => exact .inl h
  | caller name => trivial

/-- The run may still get to the address from the point on. -/
inductive Accessible (s : Stages) (m : Memory) (p : Point) : Address → Prop where
  | binding {b : BindingId} (steps : List Step) (hb : s.Active b p) : Accessible s m p ⟨.binding b, steps⟩
  | outside (n : Nat) (steps : List Step) : Accessible s m p ⟨.outside n, steps⟩
  | through {a : Address} {ptr : Pointer} (steps : List Step) (ha : Accessible s m p a)
      (hc : m.cells a = some ptr) : Accessible s m p (ptr.target.extend steps)

namespace Accessible

variable {s : Stages} {m : Memory} {p : Point} {a b : Address}

theorem extend (h : s.Accessible m p a) (steps : List Step) : s.Accessible m p (a.extend steps) := by
  cases h with
  | binding steps' hb => exact .binding _ hb
  | outside n steps' => exact .outside n _
  | through steps' ha hc =>
    rw [Address.extend_extend]
    exact .through _ ha hc

theorem target (h : s.Accessible m p a) {ptr : Pointer} (hc : m.cells a = some ptr) :
    s.Accessible m p ptr.target := by
  simpa using Accessible.through [] h hc

theorem resolves {path : List Projection} (hr : Resolves m a path b) (h : s.Accessible m p a) :
    s.Accessible m p b := by
  induction hr with
  | nil => exact h
  | step _ _ _ ih => exact ih (h.extend _)
  | deref hc _ ih => exact ih (h.target hc)

/-- Every pointer that is crossed on the way is found in an accessible cell. -/
theorem crosses {path : List Projection} {ptr : Pointer} (hx : Crosses m a path ptr)
    (h : s.Accessible m p a) : ∃ b, s.Accessible m p b ∧ m.cells b = some ptr := by
  induction hx with
  | here hc => exact ⟨_, h, hc⟩
  | step _ _ _ ih => exact ih (h.extend _)
  | deref hc _ ih => exact ih (h.target hc)

end Accessible

end Stages

/-- The storage of the pointer's target has not ended since the pointer was made. -/
def Memory.Fresh (m : Memory) (ptr : Pointer) : Prop :=
  ∀ id, ptr.target.root = .binding id → ptr.birth = m.ended id

theorem Memory.Fresh.not_dangling {m : Memory} {ptr : Pointer} (h : m.Fresh ptr) : ¬m.Dangling ptr := by
  rintro ⟨id, hid, hlt⟩
  rw [h id hid] at hlt
  exact Nat.lt_irrefl _ hlt

theorem Memory.fresh_pointTo (m : Memory) (a : Address) : m.Fresh (m.pointTo a) := by
  intro id hid
  have hroot : a.root = .binding id := hid
  simp [pointTo, hroot]

/-- All pointers in memory are accounted for before a point, and those that the run may still get to
are fresh and have their loans in scope. -/
structure Stages.Accounts (s : Stages) (cx : Context) (outside : Nat → TypeId) (p : Point) (m : Memory) :
    Prop where
  typed : m.WellTyped cx outside
  cells : ∀ a ptr, m.cells a = some ptr → ∃ o, s.Made ptr o ∧
    (∃ v, s.Owner cx a.root v ∧ s.Needs cx v o.var) ∧
    (s.Accessible m p a → m.Fresh ptr ∧ s.InScope p o)

section

variable {cx : Context} {limit : Option Int} {s : Stages} {outside : Nat → TypeId}

/-- Two variables for the same storage account for the same. -/
theorem Stages.Owner.needs {root : Root} {u v : RegionVar} (h : s.Owner cx root u) (k : s.Owner cx root v) :
    s.Needs cx u v := by
  cases root with
  | binding id =>
    obtain rfl := Option.some.inj (h.symm.trans k)
    exact .refl u
  | outside n =>
    obtain ⟨_, hm, rfl⟩ := h
    obtain ⟨_, hn, rfl⟩ := k
    exact .universal hm hn

theorem Stages.Made.extend {ptr ptr' : Pointer} {o : Origin} (h : s.Made ptr o) {steps : List Step}
    (ht : ptr'.target = ptr.target.extend steps) : s.Made ptr' o := by
  cases o with
  | borrow a k =>
    obtain ⟨p, hp, ha, hk, hd, hroot, front, htraces, hfront⟩ := h
    refine ⟨p, hp, ha, hk, hd, by rw [ht]; exact hroot, front, htraces, ?_⟩
    rw [ht]
    exact hfront.trans (List.prefix_append _ _)
  | caller name =>
    obtain ⟨hname, n, hroot⟩ := h
    exact ⟨hname, n, by rw [ht]; exact hroot⟩

variable (h : cx.Completes limit s) (hread : cx.IsRead)

include h hread

/-- Storage with a pointer in it has an owner. -/
theorem Memory.WellTyped.owner {m : Memory} (hm : m.WellTyped cx outside) {a : Address} {ptr : Pointer}
    (hc : m.cells a = some ptr) : ∃ v, s.Owner cx a.root v := by
  obtain ⟨found, _, _, _, ⟨ty, hty, hdescend⟩, hget, _⟩ := hm a ptr hc
  cases hroot : a.root with
  | binding id =>
    rw [hroot] at hty
    obtain ⟨bd, hbd, rfl⟩ := hty
    obtain ⟨k, hk⟩ := TypeTable.holds_of_descend hdescend ⟨0, .ref hget⟩
    obtain ⟨c, hc, hheld⟩ := Context.exists_holder h.frame h.tracked hread.wellBound hbd
    cases c with
    | true => exact hheld rfl
    | false => exact absurd hk (TypeTable.not_holds_of_carriesRefs hread.separate hc)
  | outside n => exact ⟨_, staticRegion, (Context.declareUniversals_spec h.frame).2.1, rfl⟩

/-- Where a pointer is found behind one that an origin made, the origin's variable accounts for what
accounts for it. The borrowed place leads part of the way to the pointer, so its type holds a
reference. -/
theorem Stages.Made.owner {m : Memory} (hm : m.WellTyped cx outside) {ptr ptr' : Pointer} {o : Origin}
    (hmade : s.Made ptr o) {steps : List Step} (hc : m.cells (ptr.target.extend steps) = some ptr') :
    ∃ v, s.Owner cx ptr.target.root v ∧ s.Needs cx o.var v ∧
      ∀ k, o.var = .loan k → s.Lends cx k v := by
  cases o with
  | caller name =>
    obtain ⟨hname, n, hroot⟩ := hmade
    refine ⟨.universal name, ?_, .refl _, fun k hk => by cases hk⟩
    rw [hroot]
    exact ⟨name, hname, rfl⟩
  | borrow a k =>
    obtain ⟨v, hv⟩ := hm.owner h hread hc
    rw [Address.extend_root] at hv
    obtain ⟨p, hp, ha, hk, hdirect, hroot, front, htraces, tail, htail⟩ := hmade
    have hheld : (s.regions cx).holder? a.place.root = some v := by
      rw [hroot] at hv
      exact hv
    obtain ⟨ty, hty⟩ := (Context.isUse_of_loan h.effects hp ha hk).typed
    obtain ⟨bd, loc, hbd, hwalk⟩ := hty.walk
    obtain ⟨found, _, _, _, ⟨start, hstart, hdescend⟩, hfound, _⟩ := hm _ _ hc
    rw [Address.extend_root, hroot] at hstart
    obtain ⟨bd', hbd', rfl⟩ := hstart
    obtain rfl := Option.some.inj (hbd.symm.trans hbd')
    rw [Address.extend, ← htail, List.append_assoc, TypeTable.descend_append,
      TypeTable.descend_of_walk htraces hwalk] at hdescend
    have hrest : cx.types.descend (ty, none) (tail ++ steps) = some (found, none) := hdescend
    obtain ⟨n, hn⟩ := TypeTable.holds_of_descend hrest ⟨0, .ref hfound⟩
    have hlends : s.Lends cx k v := ⟨p, hp, a, ha, hk, hdirect, ⟨ty, n, hty, hn⟩, hheld⟩
    refine ⟨v, hv, .lent hlends, fun k' hk' => ?_⟩
    cases hk'
    exact hlends

end

/-- The address lies behind a pointer that the variable accounts for, with its loan in scope. -/
def Stages.Behind (s : Stages) (cx : Context) (p : Point) (u : RegionVar) (a : Address) : Prop :=
  ∃ o ptr steps, s.Made ptr o ∧ s.Needs cx u o.var ∧ s.InScope p o ∧ a = ptr.target.extend steps

theorem Stages.Behind.extend {s : Stages} {cx : Context} {p : Point} {u : RegionVar} {a : Address}
    (h : s.Behind cx p u a) (steps : List Step) : s.Behind cx p u (a.extend steps) := by
  obtain ⟨o, ptr, front, hmade, hneeds, hscope, rfl⟩ := h
  exact ⟨o, ptr, front ++ steps, hmade, hneeds, hscope, Address.extend_extend _ _ _⟩

theorem Resolves.traces {m : Memory} {a b : Address} {path : List Projection} (h : Resolves m a path b)
    (hd : .deref ∉ path) : ∃ steps, Traces path steps ∧ b = a.extend steps := by
  induction h with
  | nil a => exact ⟨[], .nil, by simp⟩
  | step hs _ _ ih =>
    obtain ⟨steps, hsteps, rfl⟩ := ih fun hmem => hd (List.mem_cons_of_mem _ hmem)
    exact ⟨_, .cons hs hsteps, by simp⟩
  | deref => exact absurd List.mem_cons_self hd

namespace Stages.Accounts

variable {cx : Context} {limit : Option Int} {s : Stages} {outside : Nat → TypeId} {p : Point} {m : Memory}

/-- A variable that accounts for the storage accounts for the pointers in it. -/
theorem behind (hm : s.Accounts cx outside p m) {a : Address} {ptr : Pointer} (hc : m.cells a = some ptr)
    (ha : s.Accessible m p a) {u v : RegionVar} (hv : s.Owner cx a.root v) (hu : s.Needs cx u v) :
    s.Behind cx p u ptr.target := by
  obtain ⟨o, hmade, ⟨v', hv', hneeds⟩, hgood⟩ := hm.cells a ptr hc
  exact ⟨o, ptr, [], hmade, hu.trans ((hv.needs hv').trans hneeds), (hgood ha).2, by simp⟩

variable (h : cx.Completes limit s) (hread : cx.IsRead) (hm : s.Accounts cx outside p m)

include h hread hm

theorem resolves_behind {a b : Address} {path : List Projection} (hr : Resolves m a path b) {u : RegionVar}
    (ha : s.Accessible m p a) (hb : s.Behind cx p u a) : s.Behind cx p u b := by
  induction hr with
  | nil => exact hb
  | step _ _ _ ih => exact ih (ha.extend _) (hb.extend _)
  | deref hc _ ih =>
    obtain ⟨o, ptr', steps, hmade, hneeds, _, rfl⟩ := hb
    obtain ⟨v, hv, hlent, _⟩ := hmade.owner h hread hm.typed hc
    exact ih (ha.target hc) (hm.behind hc ha hv (hneeds.trans hlent))

/-- Following a path either stays in the storage it starts in or ends behind a pointer. -/
theorem resolves {a b : Address} {path : List Projection} (hr : Resolves m a path b)
    (ha : s.Accessible m p a) {u : RegionVar} (hu : s.Owner cx a.root u) :
    (.deref ∉ path ∧ b.root = a.root) ∨ s.Behind cx p u b := by
  induction hr with
  | nil => exact .inl ⟨by simp, rfl⟩
  | step _ hp _ ih =>
    refine (ih (ha.extend _) hu).imp_left fun ⟨hd, hroot⟩ => ⟨?_, hroot⟩
    simpa [hd] using Ne.symm hp
  | deref hc hr _ =>
    exact .inr (hm.resolves_behind h hread hr (ha.target hc) (hm.behind hc ha hu (.refl u)))

/-- The same for the owner of a pointer that is found there. -/
theorem owner_resolves {a b : Address} {path : List Projection} (hr : Resolves m a path b)
    (ha : s.Accessible m p a) {u : RegionVar} (hu : s.Owner cx a.root u) {steps : List Step} {ptr : Pointer}
    (hc : m.cells (b.extend steps) = some ptr) : ∃ v, s.Owner cx b.root v ∧ s.Needs cx u v := by
  rcases hm.resolves h hread hr ha hu with ⟨_, hroot⟩ | ⟨o, ptr', front, hmade, hneeds, _, rfl⟩
  · exact ⟨u, by rw [hroot]; exact hu, .refl u⟩
  · rw [Address.extend_extend] at hc
    obtain ⟨v, hv, hlent, _⟩ := hmade.owner h hread hm.typed hc
    exact ⟨v, hv, hneeds.trans hlent⟩

end Stages.Accounts

/-- A pointer in a value that is computed at a point. -/
structure Stages.Arrives (s : Stages) (m : Memory) (p : Point) (ptr : Pointer) (o : Origin) : Prop where
  made : s.Made ptr o
  fresh : m.Fresh ptr
  held : s.Held p o
  reach : ∀ steps, s.Accessible m p (ptr.target.extend steps)

/-- The pointer arrives by way of a source of the value. -/
def Stages.Supplies (s : Stages) (cx : Context) (m : Memory) (p : Point) (value : Value) (ptr : Pointer) :
    Prop :=
  ∃ o, s.Arrives m p ptr o ∧ ∃ src ∈ value, ∃ u, (s.regions cx).HasVar src u ∧ s.Needs cx u o.var

/-- The pointers in an aggregate arrive by way of its parts. -/
theorem Stages.supplies_aggregate {s : Stages} {cx : Context} {m : Memory} {p : Point} {es : List Expr}
    {span : Span} {w u : Walk} {parts : List Value} (hw : w.Evaluated cx)
    (ho : cx.operands es span w = .ok (parts, u)) (hsub : u.effects.accesses ⊆ s.effects.accesses p)
    (hrec : ∀ src ∈ (u.aggregate parts).1, (s.regions cx).Recorded s.generated src) {i : Nat} {e : Expr}
    (he : es[i]? = some e) {ptr : Pointer}
    (hpart : ∀ {w w' : Walk} {value : Value}, w.Evaluated cx → cx.operand e span w = .ok (value, w') →
      w'.effects.accesses ⊆ s.effects.accesses p →
      (∀ src ∈ value, (s.regions cx).Recorded s.generated src) → s.Supplies cx m p value ptr) :
    s.Supplies cx m p (u.aggregate parts).1 ptr := by
  obtain ⟨w₁, w₂, part, hw₁, hpart', hgrows, hget⟩ := Context.operands_get hw ho he
  have hmem := List.mem_of_getElem? hget
  obtain ⟨o, harrives, src, hsrc, v, hv, hneeds⟩ := hpart hw₁ hpart'
    (fun a ha => hsub (hgrows.accesses.subset ha)) fun src hsrc => (RegionProblem.recorded_part hrec hmem hsrc).1
  obtain ⟨_, whole, hwhole, hvar, hrelates⟩ := RegionProblem.recorded_part hrec hmem hsrc
  exact ⟨o, harrives, whole, hwhole, _, hvar, .trans (.generated (hrelates v hv)) hneeds⟩

namespace Stages.Accounts

variable {cx : Context} {limit : Option Int} {s : Stages} {outside : Nat → TypeId} {p : Point} {m : Memory}
  (h : cx.Completes limit s) (hread : cx.IsRead) (hm : s.Accounts cx outside p m)

include h hread hm

/-- What a place that is used by value holds. There is a pointer in it, so its type carries
references. -/
theorem supplies_place {place : Place} {value : Value} {w : Walk} (hu : cx.Uses place value w)
    (hw : w.effects.accesses ⊆ s.effects.accesses p) {a : Address}
    (hr : Resolves m place.root.address place.path a) {steps : List Step} {ptr : Pointer}
    (hc : m.read a steps = some ptr) : s.Supplies cx m p value ptr := by
  obtain ⟨⟨acc, hacc, rfl, hkind⟩, ty, carries, hty, hcarries, rfl⟩ := hu
  have hd : acc.defines = false := by rcases hkind with hk | hk <;> simp [Access.defines, hk]
  have hroot : s.Accessible m p acc.place.root.address := .binding _ (Stages.active_of_use (hw hacc) hd)
  have hcell := (hroot.resolves hr).extend steps
  obtain ⟨found, hfound, hlike⟩ := hm.typed.place hty hr
  obtain ⟨k, hk⟩ := ((hm.typed.read hfound).alike hlike).holds hc
  cases carries with
  | false => exact absurd hk (TypeTable.not_holds_of_carriesRefs hread.separate hcarries)
  | true =>
    obtain ⟨u, hu⟩ := Context.exists_holder_root h.frame h.tracked hread.separate hread.wellBound hty
      (.inl hcarries)
    obtain ⟨v, hv, huv⟩ := hm.owner_resolves h hread hr hroot hu hc
    obtain ⟨o, hmade, ⟨v', hv', hneeds⟩, hgood⟩ := hm.cells _ _ hc
    obtain ⟨hfresh, hscope⟩ := hgood hcell
    exact ⟨o, ⟨hmade, hfresh, hscope.held, fun more => .through more hcell hc⟩, .place acc.place,
      List.mem_singleton_self _, u, hu, huv.trans ((hv.needs hv').trans hneeds)⟩

/-- The pointer that a borrow makes. In a reborrow the pointer that leads there accounts for the new
one. -/
theorem arrives_borrow (hp : p ∈ s.graph.allPoints) {acc : Access} (hacc : acc ∈ s.effects.accesses p)
    {k : Site} (hk : acc.loan = some k) {a : Address}
    (hr : Resolves m acc.place.root.address acc.place.path a) :
    ∃ o, s.Arrives m p (m.pointTo a) o ∧ s.Needs cx (.loan k) o.var := by
  have huse := Context.isUse_of_loan h.effects hp hacc hk
  have hroot : s.Accessible m p acc.place.root.address :=
    .binding _ (Stages.active_of_use hacc huse.defines)
  have hreach : ∀ steps, s.Accessible m p ((m.pointTo a).target.extend steps) :=
    fun steps => (hroot.resolves hr).extend steps
  cases hthrough : acc.place.throughDeref with
  | false =>
    have hdirect : .deref ∉ acc.place.path := by simpa [Place.throughDeref] using hthrough
    obtain ⟨steps, hsteps, rfl⟩ := hr.traces hdirect
    exact ⟨.borrow acc k, ⟨⟨p, hp, hacc, hk, hthrough, rfl, steps, hsteps, List.prefix_rfl⟩,
      m.fresh_pointTo _, .inr hacc, hreach⟩, .refl _⟩
  | true =>
    obtain ⟨ty, hty⟩ := huse.typed
    obtain ⟨u, hu⟩ := Context.exists_holder_root h.frame h.tracked hread.separate hread.wellBound hty
      (.inr hthrough)
    have hreborrow := (h.generated hp).loans acc hacc k u hk hu hthrough
    rcases hm.resolves h hread hr hroot hu with ⟨hdirect, _⟩ | ⟨o, ptr, steps, hmade, hneeds, hscope, ha⟩
    · simp [Place.throughDeref, hdirect] at hthrough
    · exact ⟨o, ⟨hmade.extend ha, m.fresh_pointTo a, hscope.held, hreach⟩, .trans (.generated hreborrow) hneeds⟩

/-- All pointers in a value arrive from the sources that are collected for it. -/
theorem supplies (hp : p ∈ s.graph.allPoints) {e : Expr} {v : Contents} (hev : Evaluates m e v) :
    ∀ {span : Span} {w w' : Walk} {value : Value}, w.Evaluated cx → cx.operand e span w = .ok (value, w') →
      w'.effects.accesses ⊆ s.effects.accesses p →
      (∀ src ∈ value, (s.regions cx).Recorded s.generated src) →
      ∀ steps ptr, v steps = some ptr → s.Supplies cx m p value ptr := by
  induction hev with
  | place hplace hr =>
    intro span w w' value _ ho hsub _ steps ptr hptr
    exact hm.supplies_place h hread (Context.operand_place hplace ho) hsub hr hptr
  | borrow hplace hr =>
    intro span w w' value _ ho hsub _ steps ptr hptr
    obtain ⟨acc, hacc, rfl, k, hk, rfl⟩ := Context.operand_borrow hplace ho
    cases steps with
    | nil =>
      obtain rfl := Option.some.inj hptr
      obtain ⟨o, harrives, hneeds⟩ := hm.arrives_borrow h hread hp (hsub hacc) hk hr
      exact ⟨o, harrives, .loan k, List.mem_singleton_self _, _, rfl, hneeds⟩
    | cons _ _ => cases hptr
  | int | bool | unit | unary | binary =>
    intro span w w' value _ _ _ _ steps ptr hptr
    cases hptr
  | @construct ty inits loc values _ ih =>
    intro span w w' value hw ho hsub hrec steps ptr hptr
    obtain ⟨parts, u, hparts, rfl, heffects⟩ := Context.operand_parts rfl ho
    rw [heffects] at hsub
    obtain ⟨i, init, rest, hinit, rfl, hptr'⟩ := Contents.fields_eq_some hptr
    have hvalue : (inits.map FieldInit.value)[i]? = some init.value := by simp [hinit]
    refine Stages.supplies_aggregate hw hparts hsub hrec hvalue ?_
    exact fun hw' ho' hsub' hrec' => ih i init hinit hw' ho' hsub' hrec' rest ptr hptr'
  | @inject ty variant args loc values _ ih =>
    intro span w w' value hw ho hsub hrec steps ptr hptr
    obtain ⟨parts, u, hparts, rfl, heffects⟩ := Context.operand_parts rfl ho
    rw [heffects] at hsub
    obtain ⟨i, arg, _, rest, harg, _, rfl, hptr'⟩ := Contents.payload_eq_some hptr
    refine Stages.supplies_aggregate hw hparts hsub hrec harg ?_
    exact fun hw' ho' hsub' hrec' => ih i arg harg hw' ho' hsub' hrec' rest ptr hptr'

end Stages.Accounts

end Ownership
