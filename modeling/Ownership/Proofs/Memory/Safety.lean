import Ownership.Proofs.Memory.Interpreter
import Ownership.Proofs.Memory.Provenance

/-!
Pointers stay fresh. A point leaves a pointer in memory where it was, in storage
that it does not define, or brings it in with a value that it stores. If the
inferred extents allow for references behind references, an accepted function
then never goes through a pointer to storage that has ended: as long as the run
may get to a pointer the loan that made it is in scope, and storage does not end
while such a loan is in scope.
-/
namespace Ownership

open Outcome

namespace Stages

/-- No access of the point defines the binding that the storage belongs to. -/
def Spares (s : Stages) (p : Point) (root : Root) : Prop :=
  ∀ a ∈ s.effects.accesses p, root = .binding a.place.root → a.defines = false

/-- What a point does to memory, as far as pointers go. -/
structure Passes (s : Stages) (cx : Context) (p : Point) (m m' : Memory) : Prop where
  cells : ∀ a ptr, m'.cells a = some ptr → (m.cells a = some ptr ∧ s.Spares p a.root) ∨
    ∃ o, s.Arrives m p ptr o ∧ ∃ v, s.Owner cx a.root v ∧ s.Needs cx v o.var
  ended : ∀ id, m'.ended id = m.ended id ∨
    ∃ a ∈ s.effects.accesses p, a.kind = .storageDead ∧ a.place.root = id

/-- Every pointer in memory is accounted for by an owner of its storage. -/
def Backs (s : Stages) (cx : Context) (m : Memory) : Prop :=
  ∀ a ptr, m.cells a = some ptr → ∃ o, s.Made ptr o ∧ ∃ v, s.Owner cx a.root v ∧ s.Needs cx v o.var

/-- The owner of an accessible pointer covers the point. -/
theorem Accessible.covers {s : Stages} {cx : Context} {limit : Option Int} {outside : Nat → TypeId}
    (h : cx.Completes limit s) (hread : cx.IsRead) (hresp : s.Respects cx) {m : Memory}
    (hm : m.WellTyped cx outside) (hback : s.Backs cx m) {p : Point} (hp : p ∈ s.graph.allPoints)
    {a : Address} (ha : s.Accessible m p a) :
    ∀ {ptr : Pointer} {v : RegionVar}, m.cells a = some ptr → s.Owner cx a.root v → s.Covers v p := by
  induction ha with
  | binding steps hb =>
    intro ptr v _ hv
    exact h.active_covers hv hp hb
  | outside n steps =>
    rintro ptr v _ ⟨name, hname, rfl⟩
    exact h.universal_covers hname hp
  | through steps _ hc ih =>
    intro ptr v hptr hv
    obtain ⟨o, hmade, u, hu, hneeds⟩ := hback _ _ hc
    obtain ⟨v', hv', hlent, _⟩ := hmade.owner h hread hm hptr
    exact hresp u v (hneeds.trans (hlent.trans (Owner.needs hv' hv))) p hp (ih hc hu)

section

variable {s : Stages} {cx : Context} {limit : Option Int} {outside : Nat → TypeId} {p q : Point}
  {m m' : Memory}

/-- What is accessible after a point was so before it, unless the point defined it. -/
theorem Accessible.before (hpass : s.Passes cx p m m') (hp : p ∈ s.graph.allPoints)
    (hq : q ∈ s.graph.pointSuccessors p) {a : Address} (ha : s.Accessible m' q a)
    (hs : s.Spares p a.root) : s.Accessible m p a := by
  induction ha with
  | binding steps hb => exact .binding steps (hb.before hp hq fun a ha hroot => hs a ha (by rw [hroot]))
  | outside n steps => exact .outside n steps
  | through steps _ hc ih =>
    rcases hpass.cells _ _ hc with ⟨hold, hspared⟩ | ⟨o, harrives, _⟩
    · exact .through steps (ih hspared) hold
    · exact harrives.reach steps

variable (h : cx.Completes limit s) (hp : p ∈ s.graph.allPoints)

include h hp

theorem Held.next (hq : q ∈ s.graph.pointSuccessors p) {ptr : Pointer} {o : Origin} (hmade : s.Made ptr o)
    (hheld : s.Held p o) (hc : s.Covers o.var q) : s.InScope q o := by
  cases o with
  | caller name => trivial
  | borrow a k =>
    obtain ⟨_, _, _, hk, _⟩ := hmade
    obtain ⟨l, hl, hsite⟩ : ∃ l, a.loan? = some l ∧ l.site = k := by simp [Access.loan?, hk]
    subst hsite
    refine ⟨l, scopeAt_closed h.pruned h.loans hp hq ?_ hc, hl⟩
    rcases hheld with ⟨l', hl', he⟩ | ha
    · obtain rfl := Option.some.inj (he.symm.trans hl)
      exact .inl hl'
    · exact .inr ⟨a, ha, hl⟩

/-- Storage does not end while a loan that gives access to it is held. -/
theorem Held.fresh (hclean : s.Clean) (hpass : s.Passes cx p m m') {ptr : Pointer} {o : Origin}
    (hmade : s.Made ptr o) (hheld : s.Held p o) (hfresh : m.Fresh ptr) : m'.Fresh ptr := by
  intro id hid
  rcases hpass.ended id with he | ⟨acc, hacc, hkind, rfl⟩
  · rw [he]
    exact hfresh id hid
  exfalso
  cases o with
  | caller name =>
    obtain ⟨_, n, hroot⟩ := hmade
    rw [hroot] at hid
    cases hid
  | borrow a k =>
    obtain ⟨_, _, _, hk, hdirect, hroot, _⟩ := hmade
    have hsame : a.place.root = acc.place.root := Root.binding.inj (hroot.symm.trans hid)
    rcases hheld with ⟨l, hl, he⟩ | ha
    · simp only [Access.loan?, hk, Option.map_some, Option.some.injEq] at he
      subst he
      have hderef := hclean.storageDead h hp hacc hkind hl hsame
      simp [Place.throughDeref, hderef] at hdirect
    · rw [Context.alone_of_storageDead h.effects hp hacc hkind, List.mem_singleton] at ha
      subst ha
      exact Walk.use_not_ended (Context.isUse_of_loan h.effects hp hacc hk) hkind

/-- A point keeps pointers accounted for. -/
theorem Accounts.next (hread : cx.IsRead) (hclean : s.Clean) (hresp : s.Respects cx)
    (hq : q ∈ s.graph.pointSuccessors p) (hm : s.Accounts cx outside p m) (hpass : s.Passes cx p m m')
    (htyped : m'.WellTyped cx outside) : s.Accounts cx outside q m' := by
  have hmem := Graph.successor_mem_allPoints hp hq
  have hcells : ∀ a ptr, m'.cells a = some ptr → ∃ o, s.Made ptr o ∧
      (∃ v, s.Owner cx a.root v ∧ s.Needs cx v o.var) ∧
      (s.Accessible m' q a → m.Fresh ptr ∧ s.Held p o) := by
    intro a ptr hc
    rcases hpass.cells a ptr hc with ⟨hold, hspared⟩ | ⟨o, harrives, howner⟩
    · obtain ⟨o, hmade, howner, hgood⟩ := hm.cells a ptr hold
      refine ⟨o, hmade, howner, fun ha => ?_⟩
      obtain ⟨hfresh, hscope⟩ := hgood (ha.before hpass hp hq hspared)
      exact ⟨hfresh, hscope.held⟩
    · exact ⟨o, harrives.made, howner, fun _ => ⟨harrives.fresh, harrives.held⟩⟩
  have hback : s.Backs cx m' := fun a ptr hc =>
    let ⟨o, hmade, howner, _⟩ := hcells a ptr hc
    ⟨o, hmade, howner⟩
  refine ⟨htyped, fun a ptr hc => ?_⟩
  obtain ⟨o, hmade, ⟨v, hv, hneeds⟩, hgood⟩ := hcells a ptr hc
  refine ⟨o, hmade, ⟨v, hv, hneeds⟩, fun ha => ?_⟩
  obtain ⟨hfresh, hheld⟩ := hgood ha
  have hcovers := ha.covers h hread hresp htyped hback hmem hc hv
  exact ⟨hheld.fresh h hp hclean hpass hmade hfresh, hheld.next h hp hq hmade (hresp _ _ hneeds q hmem hcovers)⟩

end

end Stages

section

variable {s : Stages} {cx : Context} {limit : Option Int} {outside : Nat → TypeId} {p : Point}
  {m m' : Memory}

theorem Stages.passes_refl (h : ∀ a ∈ s.effects.accesses p, a.defines = false) : s.Passes cx p m m :=
  ⟨fun _ _ hc => .inl ⟨hc, fun acc hacc _ => h acc hacc⟩, fun _ => .inl rfl⟩

/-- A point that leaves a binding without a value. -/
theorem Stages.passes_clear {id : BindingId}
    (h : ∀ a ∈ s.effects.accesses p, a.place.root ≠ id → a.defines = false) {ended : BindingId → Nat}
    (hended : ∀ b, ended b = m.ended b ∨
      ∃ a ∈ s.effects.accesses p, a.kind = .storageDead ∧ a.place.root = b) :
    s.Passes cx p m { m.clear id with ended := ended } := by
  refine ⟨fun a ptr hc => ?_, hended⟩
  obtain ⟨hne, hold⟩ := Memory.clear_cells hc
  refine .inl ⟨hold, fun acc hacc hroot => h acc hacc fun he => hne ?_⟩
  rw [hroot, he]

variable (h : cx.Completes limit s) (hread : cx.IsRead) (hm : s.Accounts cx outside p m)

include h hread hm

/-- What arrives in a value is accounted for where the value is stored. -/
theorem Stages.Accounts.stored (hp : p ∈ s.graph.allPoints) {f : Flow} (hf : f ∈ (s.effects.get p).flows)
    {ty : TypeId} (hty : cx.PlaceType f.dest ty) (hactive : f.dest.path ≠ [] → s.Active f.dest.root p)
    {a : Address} (hr : Resolves m f.dest.root.address f.dest.path a) (htyped : m'.WellTyped cx outside)
    {steps : List Step} {ptr : Pointer} (hc : m'.cells (a.extend steps) = some ptr)
    (hsup : (∀ src ∈ f.value, (s.regions cx).Recorded s.generated src) → s.Supplies cx m p f.value ptr) :
    ∃ o, s.Arrives m p ptr o ∧ ∃ v, s.Owner cx a.root v ∧ s.Needs cx v o.var := by
  have hflow := (h.generated hp).flows f hf
  cases hthrough : f.dest.throughDeref with
  | false =>
    obtain ⟨front, _, rfl⟩ := hr.traces (by simpa [Place.throughDeref] using hthrough)
    obtain ⟨v, hv⟩ := htyped.owner h hread hc
    have hfeeds := hflow v hv
    obtain ⟨o, harrives, src, hsrc, u, hu, hneeds⟩ := hsup fun src hsrc => (hfeeds src hsrc).1
    exact ⟨o, harrives, v, hv, .trans (.generated ((hfeeds src hsrc).2 u hu)) hneeds⟩
  | true =>
    obtain ⟨r, hr'⟩ := Context.exists_holder_root h.frame h.tracked hread.separate hread.wellBound hty
      (.inr hthrough)
    have hfeeds := hflow r hr'
    obtain ⟨o, harrives, src, hsrc, u, hu, hneeds⟩ := hsup fun src hsrc => (hfeeds src hsrc).1
    refine ⟨o, harrives, ?_⟩
    have hroot : s.Accessible m p f.dest.root.address := by
      refine .binding _ (hactive fun hnil => ?_)
      simp [Place.throughDeref, hnil] at hthrough
    rcases hm.resolves h hread hr hroot hr' with ⟨hdirect, _⟩ | ⟨o', ptr', front, hmade, hback, _, rfl⟩
    · simp [Place.throughDeref, hdirect] at hthrough
    · rw [Address.extend_extend] at hc
      cases o' with
      | borrow acc k =>
        obtain ⟨v, hv, _, hlends⟩ := hmade.owner h hread htyped hc
        exact ⟨v, hv, .trans (.stored hp hf hthrough hr' hback (hlends k rfl) hsrc hu) hneeds⟩
      | caller name =>
        obtain ⟨hname, n, hn⟩ := hmade
        refine ⟨.universal name, ?_, .trans (.storedOutside hp hf hthrough hr' hback hname hsrc hu) hneeds⟩
        rw [Address.extend_root, hn]
        exact ⟨name, hname, rfl⟩

/-- A point that stores the value of an expression. A value for the whole binding leaves nothing of
what the binding held. -/
theorem Stages.Accounts.passes_write (hp : p ∈ s.graph.allPoints) {e : Expr} {dest : Place}
    (hs : cx.Stores p e dest (s.effects.get p)) {a : Address} (hr : Resolves m dest.root.address dest.path a)
    {v : Contents} (hv : Evaluates m e v) (htyped : (m.write a v).WellTyped cx outside) :
    s.Passes cx p m (m.write a v) := by
  obtain ⟨loc, u, f, hf, rfl, ho, hsub, -⟩ := hs.value
  obtain ⟨ty, hty⟩ := hs.typed
  refine ⟨fun b ptr hc => ?_, fun _ => .inl rfl⟩
  rcases Memory.write_cells hc with ⟨steps, rfl, hnew⟩ | ⟨hne, hold⟩
  · refine .inr (hm.stored h hread hp hf hty (fun hpath => ?_) hr htyped hc fun hrec => ?_)
    · obtain ⟨acc, hacc, hroot, hd⟩ := hs.used hpath
      exact hroot ▸ Stages.active_of_use hacc hd
    · exact hm.supplies h hread hp hv (cx.evaluated_start p) ho hsub hrec steps ptr hnew
  · refine .inl ⟨hold, fun acc hacc hroot => ?_⟩
    cases hd : acc.defines with
    | false => rfl
    | true =>
      obtain ⟨hsame, hnil⟩ := hs.defines acc hacc hd
      rw [hnil] at hr
      cases hr
      refine absurd ?_ (hne b.path)
      rw [Address.extend, BindingId.address, ← hsame, ← hroot]
      rfl

theorem Stages.Accounts.passes (hp : p ∈ s.graph.allPoints) (hrun : s.graph.Runs p m m')
    (htyped : m'.WellTyped cx outside) : s.Passes cx p m m' := by
  obtain ⟨w, hw, hget⟩ := Context.effects_get h.effects hp
  have haccesses : s.effects.accesses p = w.effects.accesses := by rw [EffectMap.accesses, hget]
  unfold Graph.Runs at hrun
  split at hrun
  · rename_i stmt hstmt
    rw [Context.collectAt_statement hstmt] at hw
    cases hrun with
    | storageDead id name loc =>
      simp only [Context.statement, bind_eq_ok, pure_eq, Except.ok.injEq] at hw
      obtain ⟨_, _, rfl⟩ := hw
      refine Stages.passes_clear (fun a ha hne => ?_) fun b => ?_
      · rw [haccesses] at ha
        exact absurd (by rw [List.mem_singleton.mp ha]) hne
      · by_cases hb : b = id
        · refine .inr ⟨_, by rw [haccesses]; exact List.mem_singleton_self _, rfl, hb.symm⟩
        · exact .inl (if_neg hb)
    | declare name id loc =>
      simp only [Context.statement, Context.access, bind_eq_ok, pure_eq, Except.ok.injEq] at hw
      obtain ⟨_, _, rfl⟩ := hw
      refine Stages.passes_clear (fun a ha hne => ?_) fun b => .inl rfl
      rw [haccesses] at ha
      exact absurd (by rw [List.mem_singleton.mp ha]) hne
    | init hv => exact hm.passes_write h hread hp (hget ▸ Context.stores_init hw) (.nil _) hv htyped
    | assign hv hplace hr => exact hm.passes_write h hread hp (hget ▸ Context.stores_assign hplace hw) hr hv htyped
    | eval e loc => exact Stages.passes_refl (haccesses ▸ Context.defines_eval hw)
  · rename_i hnone
    subst hrun
    refine Stages.passes_refl ?_
    rw [haccesses]
    unfold Context.collectAt at hw
    rw [hnone] at hw
    cases ht : (s.graph.block p.block).terminator with
    | none =>
      simp only [ht, Option.elim_none, Except.ok.injEq] at hw
      subst hw
      simp
    | some t =>
      simp only [ht, Option.elim_some] at hw
      exact Context.defines_terminator hw

end

/-- A memory with which a call may enter the function: what the parameters hold leads outside, and
so does everything out there. -/
structure Memory.Enters (cx : Context) (outside : Nat → TypeId) (m : Memory) : Prop where
  typed : m.WellTyped cx outside
  targets : ∀ a ptr, m.cells a = some ptr → ∃ n, ptr.target.root = .outside n
  params : ∀ id steps ptr, m.cells ⟨.binding id, steps⟩ = some ptr →
    ∃ b, cx.function.bindings.get? id = some b ∧ b.kind = .param

/-- The runs account for all that the body does: it makes no calls, and stores only what fits. -/
structure Stages.Admits (s : Stages) (cx : Context) : Prop where
  typed : cx.wellTyped s.graph = true
  calls : ∀ p ∈ s.graph.allPoints, (s.effects.get p).calls = []

section

variable {s : Stages} {cx : Context} {limit : Option Int} {outside : Nat → TypeId} {p : Point}
  {m m' : Memory} (h : cx.Completes limit s) (hread : cx.IsRead)

include h hread

theorem Stages.accounts_start (hm : m.Enters cx outside) (p : Point) : s.Accounts cx outside p m := by
  refine ⟨hm.typed, fun a ptr hc => ?_⟩
  obtain ⟨n, hn⟩ := hm.targets a ptr hc
  have hfresh : m.Fresh ptr := fun id hid => by
    rw [hn] at hid
    cases hid
  obtain ⟨v, hv⟩ := hm.typed.owner h hread hc
  obtain ⟨name, hname, rfl⟩ : ∃ name ∈ s.frame.universals, v = .universal name := by
    obtain ⟨root, steps⟩ := a
    cases root with
    | outside n => exact hv
    | binding id =>
      rcases Context.holder_cases h.frame hv with ⟨name, rfl, htracked⟩ | hname
      · obtain ⟨b, hb, hparam⟩ := hm.params id steps ptr hc
        have hlocal := Context.kind_of_tracked h.tracked htracked hb
        rw [hlocal] at hparam
        cases hparam
      · exact hname
  exact ⟨.caller name, ⟨hname, n, hn⟩, ⟨_, hv, .refl _⟩, fun _ => ⟨hfresh, trivial⟩⟩

omit h hread in
theorem Stages.runs_wellTyped (hs : s.Admits cx) (hp : p ∈ s.graph.allPoints) (hm : m.WellTyped cx outside)
    (hrun : s.graph.Runs p m m') : m'.WellTyped cx outside := by
  have htyped := List.all_eq_true.mp hs.typed p hp
  unfold Graph.Runs at hrun
  split at hrun
  · rename_i stmt hstmt
    rw [hstmt, Option.all_some] at htyped
    exact hrun.wellTyped hm htyped
  · exact hrun ▸ hm

/-- All pointers are accounted for wherever a run leads. -/
theorem Stages.accounts_at (hclean : s.Clean) (hs : s.Admits cx) (hresp : s.Respects cx)
    (hm : MemoryAt s.graph (Memory.Enters cx outside) p m) :
    p ∈ s.graph.allPoints ∧ s.Accounts cx outside p m := by
  refine Graph.Reaches.invariant h.pruned (fun p m => s.Accounts cx outside p m) ?_ ?_ hm
  · exact fun m hm => Stages.accounts_start h hread hm _
  · intro p q m m' hp hm hq hrun
    have htyped := Stages.runs_wellTyped hs hp hm.typed hrun
    exact hm.next h hp hread hclean hresp hq (hm.passes h hread hp hrun htyped) htyped

end

/-- Whether the type of a place is known to hold no references. -/
def Context.plainPlace (cx : Context) (place : Place) : Bool :=
  ((cx.function.typeOf cx.types place {}).toOption.bind fun ty =>
    (cx.types.carriesRefs (some ty)).toOption) = some false

/-- Whether no storage that can hold references is itself borrowed, and no reference is stored
behind another one. -/
def Context.flat (cx : Context) (g : Graph) (fx : EffectMap) : Bool :=
  g.allPoints.all fun p =>
    ((fx.accesses p).all fun a => a.loan.isNone || a.place.throughDeref || cx.plainPlace a.place) &&
      (fx.get p).flows.all fun f => !f.dest.throughDeref || f.value.isEmpty

section

variable {s : Stages} {cx : Context} {limit : Option Int}

theorem Stages.not_lends_of_flat (hread : cx.IsRead) (hflat : cx.flat s.graph s.effects = true) {k : Site}
    {v : RegionVar} : ¬s.Lends cx k v := by
  rintro ⟨p, hp, a, ha, hk, hdirect, ⟨ty, n, hty, hn⟩, _⟩
  have hpoint := List.all_eq_true.mp hflat p hp
  simp only [Bool.and_eq_true, List.all_eq_true] at hpoint
  have hplain := hpoint.1 a ha
  simp only [hk, hdirect, Option.isNone_some, Bool.or_self, Bool.false_or, Context.plainPlace,
    decide_eq_true_eq, Option.bind_eq_some_iff] at hplain
  obtain ⟨ty', hty', hcarries⟩ := hplain
  obtain rfl := hty.unique ⟨_, eq_ok_of_toOption hty'⟩
  exact TypeTable.not_holds_of_carriesRefs hread.separate (eq_ok_of_toOption hcarries) hn

theorem Stages.not_stored_of_flat (hflat : cx.flat s.graph s.effects = true) {p : Point}
    (hp : p ∈ s.graph.allPoints) {f : Flow} (hf : f ∈ (s.effects.get p).flows)
    (hd : f.dest.throughDeref = true) : f.value = [] := by
  have hpoint := List.all_eq_true.mp hflat p hp
  simp only [Bool.and_eq_true, List.all_eq_true] at hpoint
  simpa [hd] using hpoint.2 f hf

/-- What is generated suffices for a flat body. -/
theorem Stages.respects_of_flat (h : cx.Completes limit s) (hread : cx.IsRead)
    (hflat : cx.flat s.graph s.effects = true) : s.Respects cx := by
  intro u v hneeds
  induction hneeds with
  | refl v => exact .refl v
  | trans _ _ ih ih' => exact ih.trans ih'
  | generated hr => exact h.within hr
  | universal _ hn => exact fun p hp _ => h.universal_covers hn hp
  | lent hk => exact absurd hk (Stages.not_lends_of_flat hread hflat)
  | stored hp hf hd _ _ hv hsrc _ => exact absurd hv (Stages.not_lends_of_flat hread hflat)
  | storedOutside hp hf hd _ _ _ hsrc _ =>
    rw [Stages.not_stored_of_flat hflat hp hf hd] at hsrc
    cases hsrc

end

/-- An accepted function whose extents respect what references behind references need never goes
through a dangling pointer: wherever a run leads and whatever is accessed there, each pointer on the
way to it points at storage that has not ended since the pointer was made. -/
theorem no_dangling_access {cx : Context} {config : Config} {r : Verdict × List LogLine} {s : Stages}
    (hread : cx.IsRead) (hv : cx.verdict config = .ok r) (hacc : r.1.accepted = true)
    (h : cx.Completes config.maxIterations s) (hs : s.Admits cx) (hresp : s.Respects cx)
    {outside : Nat → TypeId} {p : Point} {m : Memory}
    (hm : MemoryAt s.graph (Memory.Enters cx outside) p m) {a : Access} (ha : a ∈ s.effects.accesses p)
    {ptr : Pointer} (hx : Crosses m a.place.root.address a.place.path ptr) : ¬m.Dangling ptr := by
  obtain ⟨s', h', hclean, _⟩ := Context.accepted_clean hv hacc
  obtain rfl := h.unique h'
  obtain ⟨hp, haccounts⟩ := Stages.accounts_at h hread hclean hs hresp hm
  have hd : a.defines = false := by
    cases hd : a.defines with
    | false => rfl
    | true =>
      rw [Context.path_of_defines h.effects hp ha hd] at hx
      cases hx
  obtain ⟨b, hb, hc⟩ := (Stages.Accessible.binding [] (Stages.active_of_use ha hd)).crosses hx
  obtain ⟨_, _, _, hgood⟩ := haccounts.cells b ptr hc
  exact (hgood hb).1.not_dangling

/-- Whether the function is accepted, its body passes a check, and the run along a path goes through
a pointer that passes a test. -/
def Context.accepts (cx : Context) (check : Graph → EffectMap → Bool) (path : List Point)
    (test : Memory → Pointer → Bool) : Bool :=
  match cx.verdict {} with
  | .ok r => r.1.accepted && r.1.graph.any fun g =>
      (cx.effects g).toOption.any fun fx => check g fx && g.meets fx path test
  | .error _ => false

theorem Memory.enters_blank (cx : Context) (outside : Nat → TypeId) : Memory.Enters cx outside .blank where
  typed _ _ hc := nomatch hc
  targets _ _ hc := nomatch hc
  params _ _ _ hc := nomatch hc

theorem Context.exists_of_accepts {cx : Context} {check : Graph → EffectMap → Bool} {path : List Point}
    {test : Memory → Pointer → Bool} (h : cx.accepts check path test = true) :
    ∃ r s, cx.verdict {} = .ok r ∧ r.1.accepted = true ∧ cx.Completes none s ∧
      check s.graph s.effects = true ∧ ∃ p m a ptr, MemoryAt s.graph (Memory.Enters cx fun _ => 0) p m ∧
        a ∈ s.effects.accesses p ∧ Crosses m a.place.root.address a.place.path ptr ∧ test m ptr = true := by
  unfold accepts at h
  split at h
  · rename_i r hr
    simp only [Bool.and_eq_true, Option.any_eq_true] at h
    obtain ⟨hacc, g, hg, fx, hfx, hcheck, hmeets⟩ := h
    obtain ⟨s, hs, _, hgraph, _⟩ := Context.accepted_clean hr hacc
    obtain rfl := Option.some.inj (hg.symm.trans hgraph)
    obtain rfl := Except.ok.inj (hs.effects.symm.trans (eq_ok_of_toOption hfx))
    obtain ⟨m, a, ptr, hrun⟩ := Graph.crosses_of_meets hmeets (Memory.enters_blank cx fun _ => 0)
    exact ⟨r, s, hr, hacc, hs, hcheck, _, m, a, ptr, hrun⟩
  · cases h

/-- Whether the runs account for all that the body does. -/
def Context.admits (cx : Context) (g : Graph) (fx : EffectMap) : Bool :=
  cx.wellTyped g && g.allPoints.all fun p => (fx.get p).calls.isEmpty

theorem Stages.admits_of_admits {s : Stages} {cx : Context} (h : cx.admits s.graph s.effects = true) :
    s.Admits cx := by
  simp only [Context.admits, Bool.and_eq_true, List.all_eq_true, List.isEmpty_iff] at h
  exact ⟨h.1, h.2⟩

/-- A reference is led into a block, where what it refers to ends, and out of it again. -/
def ledInto : Context :=
  Context.ofText ("fn f() -> Int \x7b let a: Int = 1; let x: &mut Int = &mut a; " ++
    "\x7b let b: Int = 2; x = &mut b; *x = 3; \x7d x = &mut a; return *x; \x7d") "f"

/-- Storage has ended when the reference is used for the last time, but not that of its target. -/
theorem no_dangling_access_ledInto : ledInto.IsRead ∧ ∃ r s p m a ptr,
    ledInto.verdict {} = .ok r ∧ r.1.accepted = true ∧ ledInto.Completes none s ∧ s.Admits ledInto ∧
      s.Respects ledInto ∧ MemoryAt s.graph (Memory.Enters ledInto fun _ => 0) p m ∧
      a ∈ s.effects.accesses p ∧ Crosses m a.place.root.address a.place.path ptr ∧ 0 < m.ended 3 ∧
      ¬m.Dangling ptr := by
  have hread : ledInto.IsRead := Context.isRead_ofText (by decide +kernel)
  have haccepts : ledInto.accepts (fun g fx => ledInto.admits g fx && ledInto.flat g fx)
      ((List.range 7).map fun i => ⟨0, i + 1⟩) (fun m _ => 0 < m.ended 3) = true := by decide +kernel
  obtain ⟨r, s, hv, hacc, h, hcheck, p, m, a, ptr, hm, ha, hx, hended⟩ := Context.exists_of_accepts haccepts
  rw [Bool.and_eq_true] at hcheck
  have hs := Stages.admits_of_admits hcheck.1
  have hresp := Stages.respects_of_flat h hread hcheck.2
  exact ⟨hread, r, s, p, m, a, ptr, hv, hacc, h, hs, hresp, hm, ha, hx, of_decide_eq_true hended,
    no_dangling_access hread hv hacc h hs hresp hm ha hx⟩

/-- A reference to storage of a block is stored through another reference, and outlives the block. -/
def storedThrough : Context :=
  Context.ofText ("fn f() -> Int \x7b let a: Int = 1; let x: &Int = &a; " ++
    "\x7b let y: Int = 2; let p: &mut &Int = &mut x; *p = &y; \x7d return *x; \x7d") "f"

/-- The function is accepted, but its run goes through a dangling pointer. -/
theorem dangling_access_storedThrough : storedThrough.IsRead ∧ ∃ r s p m a ptr,
    storedThrough.verdict {} = .ok r ∧ r.1.accepted = true ∧ storedThrough.Completes none s ∧
      s.Admits storedThrough ∧ MemoryAt s.graph (Memory.Enters storedThrough fun _ => 0) p m ∧
      a ∈ s.effects.accesses p ∧ Crosses m a.place.root.address a.place.path ptr ∧ m.Dangling ptr := by
  have hread : storedThrough.IsRead := Context.isRead_ofText (by decide +kernel)
  have haccepts : storedThrough.accepts storedThrough.admits
      ((List.range 7).map fun i => ⟨0, i + 1⟩) (fun m ptr => m.Dangling ptr) = true := by decide +kernel
  obtain ⟨r, s, hv, hacc, h, hcheck, p, m, a, ptr, hm, ha, hx, hdangling⟩ := Context.exists_of_accepts haccepts
  exact ⟨hread, r, s, p, m, a, ptr, hv, hacc, h, Stages.admits_of_admits hcheck, hm, ha, hx,
    of_decide_eq_true hdangling⟩

end Ownership
