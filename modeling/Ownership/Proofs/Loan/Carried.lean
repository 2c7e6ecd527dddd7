import Mathlib.Data.Set.Defs
import Ownership.Proofs.Loan.Scope
import Ownership.Proofs.Region.Inference

/-!
Carried loans. Along a path, a binding carries the loans of the values that were
stored in it since it was last given a whole new value. Where a local binding is
live, all the loans it carries are in scope: each of them covers the extent of
the binding's variable, and was in scope or made at every point on the way.
-/
namespace Ownership

open Outcome

namespace RegionProblem

/-- The loans of a source, from those that the bindings carry. -/
inductive Carries (r : RegionProblem) (carried : BindingId → Set Site) : Source → Site → Prop where
  | loan (k : Site) : Carries r carried (.loan k) k
  | reborrow {s k : Site} {place : Place} (hs : r.loanPlace? s = some place)
      (hd : place.throughDeref = true) (hk : k ∈ carried place.root) : Carries r carried (.loan s) k
  | place {p : Place} {k : Site} (hk : k ∈ carried p.root) : Carries r carried (.place p) k
  | part {s k : Site} {parts : List Value} {part : Value} {src : Source} (hpart : part ∈ parts)
      (hsrc : src ∈ part) (hk : Carries r carried src k) : Carries r carried (.aggregate s parts) k
  | call {s k : Site} {call : CallSite} {i : Nat} {ty : TypeId} {arg : Value} {src : Source}
      {v : RegionVar} (hs : r.call? s = some call) (hty : call.signature.params[i]? = some ty)
      (harg : call.args[i]? = some arg) (hv : r.paramVar call.site ty i = .ok (some v))
      (hret : r.resultRegion call = .ok (some v)) (hsrc : src ∈ arg)
      (hk : Carries r carried src k) : Carries r carried (.call s) k

/-- What the bindings carry after a point: a binding that is given a new value or ended loses what
it carried, and the loans of what is stored in it come in. -/
def carriedAfter (r : RegionProblem) (fx : Effects) (carried : BindingId → Set Site) (b : BindingId) :
    Set Site :=
  {k | (k ∈ carried b ∧ ∀ a ∈ fx.accesses, a.place.root = b → a.defines = false) ∨
    ∃ f ∈ fx.flows, f.dest.root = b ∧ ∃ src ∈ f.value, r.Carries carried src k}

end RegionProblem

/-- Some path reaches a point while the bindings carry these loans. -/
def CarriedAt (g : Graph) (r : RegionProblem) : Point → (BindingId → Set Site) → Prop :=
  g.Reaches (· = fun _ => (∅ : Set Site)) fun p _ carried carried' =>
    carried' = r.carriedAfter (r.effects.get p) carried

/-- The loan is among those in scope before the point. -/
def LoanResult.Holds (r : LoanResult) (p : Point) (k : Site) : Prop := ∃ l ∈ r.scopeAt p, l.site = k

namespace Context.Completes

variable {cx : Context} {limit : Option Int} {s : Stages} (h : cx.Completes limit s)

include h

/-- A loan that is in scope before a point, or is made there, is in scope before each successor
that its extent covers. -/
theorem holds_next {p q : Point} (hp : p ∈ s.graph.allPoints) (hq : q ∈ s.graph.pointSuccessors p)
    {k : Site} (hk : s.loans.Holds p k ∨ ∃ a ∈ s.effects.accesses p, a.loan = some k)
    (hc : s.Covers (.loan k) q) : s.loans.Holds q k := by
  rcases hk with ⟨l, hl, rfl⟩ | ⟨a, ha, hloan⟩
  · exact ⟨l, scopeAt_closed h.pruned h.loans hp hq (.inl hl) hc, rfl⟩
  · have hmade : a.loan? = some ⟨k, a.place, a.kind = .borrowMut, a.span⟩ := by
      simp [Access.loan?, hloan]
    exact ⟨_, scopeAt_closed h.pruned h.loans hp hq (.inr ⟨a, ha, hmade⟩) hc, rfl⟩

end Context.Completes

/-- The loans that a binding with a variable carries cover the extent of the variable, and where
the binding is active they are in scope. -/
def Stages.Kept (s : Stages) (cx : Context) (p : Point) (carried : BindingId → Set Site) : Prop :=
  ∀ b v, (s.regions cx).holder? b = some v → ∀ k ∈ carried b,
    s.Within v (.loan k) ∧ (s.Active b p → s.loans.Holds p k)

theorem RegionProblem.loanPlace?_eq_some {r : RegionProblem} {site : Site} {place : Place}
    (h : r.loanPlace? site = some place) :
    ∃ a ∈ r.effects.accesses site.point, a.loan = some site ∧ a.place = place := by
  simp only [loanPlace?, Option.map_eq_some_iff] at h
  obtain ⟨a, ha, rfl⟩ := h
  exact ⟨a, List.mem_of_find?_eq_some ha, by simpa using List.find?_some ha, rfl⟩

theorem RegionProblem.call?_eq_some {r : RegionProblem} {site : Site} {call : CallSite}
    (h : r.call? site = some call) : call ∈ (r.effects.get site.point).calls ∧ call.site = site :=
  ⟨List.mem_of_find?_eq_some h, by simpa using List.find?_some h⟩

namespace Context.Completes

variable {cx : Context} {limit : Option Int} {s : Stages} (h : cx.Completes limit s)

include h

/-- The loans of a source of a value at a point: each covers the extent of the source's variable,
and is in scope or made there. -/
theorem carries_kept (hread : cx.IsRead) {p : Point} (hp : p ∈ s.graph.allPoints)
    {carried : BindingId → Set Site} (hkept : s.Kept cx p carried) {w : Walk} (hw : w.point = p)
    (hget : s.effects.get p = w.effects) (hcollected : w.Collected cx) {src : Source} {k : Site}
    (hk : (s.regions cx).Carries carried src k) (hg : Grounded cx w src)
    (hrec : (s.regions cx).Recorded s.generated src) :
    (∃ u, (s.regions cx).HasVar src u ∧ s.Within u (.loan k)) ∧
      (s.loans.Holds p k ∨ ∃ a ∈ s.effects.accesses p, a.loan = some k) := by
  have haccesses : s.effects.accesses p = w.effects.accesses := by rw [EffectMap.accesses, hget]
  have hgenerated := h.generated hp
  induction hk with
  | loan k =>
    cases hg with
    | loan ha hs => exact ⟨⟨_, rfl, .refl _⟩, .inr ⟨_, haccesses ▸ ha, hs⟩⟩
  | @reborrow site k place hs hd hk =>
    cases hg with
    | loan ha hloan =>
      obtain rfl : site.point = p := hw ▸ (hcollected.isUse_of_loan ha hloan).site site hloan
      obtain ⟨b, hb, hbloan, rfl⟩ := RegionProblem.loanPlace?_eq_some hs
      have huse := hcollected.isUse_of_loan (haccesses ▸ hb) hbloan
      obtain ⟨ty, hty⟩ := huse.typed
      obtain ⟨v, hv⟩ := exists_holder_root h.frame h.tracked hread.separate hread.wellBound hty (.inr hd)
      obtain ⟨hwithin, hscope⟩ := hkept _ v hv k hk
      refine ⟨⟨_, rfl, .trans ?_ hwithin⟩, .inl (hscope (Stages.active_of_use hb huse.defines))⟩
      exact h.within (hgenerated.loans b hb site v hbloan hv hd)
  | @place q k hk =>
    cases hg with
    | @place _ a _ ha hq hkind hty hcarries =>
      subst hq
      obtain ⟨v, hv⟩ := exists_holder_root h.frame h.tracked hread.separate hread.wellBound hty (.inl hcarries)
      obtain ⟨hwithin, hscope⟩ := hkept _ v hv k hk
      have hd : a.defines = false := by rcases hkind with hkind | hkind <;> simp [Access.defines, hkind]
      exact ⟨⟨v, hv, hwithin⟩, .inl (hscope (Stages.active_of_use (haccesses ▸ ha) hd))⟩
  | @part site k parts part src hpart hsrc _ ih =>
    cases hg with
    | aggregate hparts =>
      cases hrec with
      | aggregate hrecs hvars =>
        obtain ⟨⟨u, hu, hwithin⟩, hscope⟩ := ih (hparts part hpart src hsrc) (hrecs part hpart src hsrc)
        exact ⟨⟨_, rfl, (h.within (hvars part hpart src hsrc u hu)).trans hwithin⟩, hscope⟩
  | @call site k call i ty arg src v hs hty harg hv hret hsrc _ ih =>
    cases hg with
    | @call _ c hc hsite =>
      obtain rfl : site.point = p := hw ▸ hsite ▸ hcollected.calls c hc
      obtain ⟨hmem, rfl⟩ := RegionProblem.call?_eq_some hs
      obtain ⟨hrecs, hvars⟩ := (hgenerated.calls call hmem).args i ty arg v hty harg hv src hsrc
      have hground := hcollected.args call (hget ▸ hmem) arg (List.mem_of_getElem? harg) src hsrc
      obtain ⟨⟨u, hu, hwithin⟩, hscope⟩ := ih hground hrecs
      exact ⟨⟨v, ⟨call, hs, hret⟩, (h.within (hvars u hu)).trans hwithin⟩, hscope⟩

/-- One step keeps it so. What a variable carries covers it, and is in scope before the point or
made there. -/
theorem kept_next (hread : cx.IsRead) {p q : Point} (hp : p ∈ s.graph.allPoints)
    (hq : q ∈ s.graph.pointSuccessors p) {carried : BindingId → Set Site} (hkept : s.Kept cx p carried) :
    s.Kept cx q ((s.regions cx).carriedAfter (s.effects.get p) carried) := by
  intro b v hv k hk
  have hmem := Graph.successor_mem_allPoints hp hq
  suffices hsuff : s.Within v (.loan k) ∧
      (s.Active b q → s.loans.Holds p k ∨ ∃ a ∈ s.effects.accesses p, a.loan = some k) by
    refine ⟨hsuff.1, fun hactive => h.holds_next hp hq (hsuff.2 hactive) (hsuff.1 q hmem ?_)⟩
    exact h.active_covers hv hmem hactive
  rcases hk with ⟨hk, hd⟩ | ⟨f, hf, rfl, src, hsrc, hk⟩
  · obtain ⟨hwithin, hscope⟩ := hkept b v hv k hk
    exact ⟨hwithin, fun hactive => .inl (hscope (hactive.before hp hq hd))⟩
  · obtain ⟨w, hw, hget, hcollected⟩ := effects_collected h.effects hp
    obtain ⟨hrec, hvars⟩ := (h.generated hp).flows f hf v hv src hsrc
    obtain ⟨⟨u, hu, hwithin⟩, hscope⟩ := h.carries_kept hread hp hkept hw hget hcollected hk
      (hcollected.values f (hget ▸ hf) src hsrc) hrec
    exact ⟨(h.within (hvars u hu)).trans hwithin, fun _ => hscope⟩

/-- What any path carries is kept. -/
theorem carriedAt_kept (hread : cx.IsRead) {p : Point} {carried : BindingId → Set Site}
    (hc : CarriedAt s.graph (s.regions cx) p carried) : p ∈ s.graph.allPoints ∧ s.Kept cx p carried := by
  refine Graph.Reaches.invariant h.pruned (fun p carried => s.Kept cx p carried) ?_ ?_ hc
  · rintro carried rfl b v _ k hk
    cases hk
  · rintro p q carried _ hp hkept hq rfl
    exact h.kept_next hread hp hq hkept

end Context.Completes

/-- Where a local binding that carries references is live, every loan that it carries along the
path is in scope. -/
theorem live_binding_keeps_loans {cx : Context} {config : Config} {r : LoanResult} (hread : cx.IsRead)
    (h : (cx.analysis config).loans = .ok r) :
    ∃ g fx frame live, (cx.analysis config).graph = .ok g ∧ (cx.analysis config).effects = .ok fx ∧
      (cx.analysis config).frame = .ok frame ∧ (cx.analysis config).liveness = .ok live ∧
      ∀ p carried, CarriedAt g (cx.regionProblem fx frame live) p carried →
        ∀ b bd, cx.function.bindings.get? b = some bd → bd.kind = .localVar →
          cx.types.carriesRefs (some bd.ty) = .ok true → LiveAt g fx b p →
            ∀ k ∈ carried b, ∃ l ∈ r.scopeAt p, l.site = k := by
  obtain ⟨s, hs, rfl, hg, hfx, hframe, hlive, _⟩ := Context.analysis_completes h
  refine ⟨s.graph, s.effects, s.frame, s.liveness, hg, hfx, hframe, hlive, ?_⟩
  intro p carried hc b bd hbd hkind hcarries hb k hk
  obtain ⟨c, hc', hin⟩ := (Context.trackedLocals_spec hs.tracked).2 b bd hbd hkind
  obtain rfl := Except.ok.inj (hc'.symm.trans hcarries)
  obtain ⟨name, hv⟩ := Context.tracked_holder (r := s.frame) hs.tracked (hin rfl)
  exact ((hs.carriedAt_kept hread hc).2 b _ hv k hk).2 (.inr hb)

/-- Whether the source is this loan. -/
def Source.isLoan (k : Site) : Source → Bool
  | .loan s => s = k
  | _ => false

/-- Whether the loan is stored into the binding. -/
def Effects.storesLoan (fx : Effects) (b : BindingId) (k : Site) : Bool :=
  fx.flows.any fun f => f.dest.root = b && f.value.any (·.isLoan k)

theorem Effects.exists_flow_of_storesLoan {fx : Effects} {b : BindingId} {k : Site}
    (h : fx.storesLoan b k = true) : ∃ f ∈ fx.flows, f.dest.root = b ∧ .loan k ∈ f.value := by
  simp only [storesLoan, List.any_eq_true, Bool.and_eq_true, decide_eq_true_eq] at h
  obtain ⟨f, hf, hroot, src, hsrc, hloan⟩ := h
  cases src with
  | loan s =>
    obtain rfl : s = k := by simpa [Source.isLoan] using hloan
    exact ⟨f, hf, hroot, hsrc⟩
  | place | call | aggregate => cases hloan

/-- A binding is borrowed, and then what the borrow points at is borrowed again. -/
def borrowTwice : Context :=
  Context.ofText ("fn f() \x7b let a: Int = 1; let x: &mut Int = &mut a; " ++
    "let y: &mut Int = &mut *x; *y = 2; \x7d") "f"

/-- The second borrow carries the loan of the first one, which is in scope where it is used. -/
theorem live_binding_keeps_loans_borrowTwice : borrowTwice.IsRead ∧
    ∃ r g fx frame live carried, (borrowTwice.analysis {}).loans = .ok r ∧
      (borrowTwice.analysis {}).graph = .ok g ∧ (borrowTwice.analysis {}).effects = .ok fx ∧
      CarriedAt g (borrowTwice.regionProblem fx frame live) ⟨0, 3⟩ carried ∧
      LiveAt g fx 3 ⟨0, 3⟩ ∧ ⟨⟨0, 1⟩, 0⟩ ∈ carried 3 ∧
      ∃ l ∈ r.scopeAt ⟨0, 3⟩, l.site = ⟨⟨0, 1⟩, 0⟩ := by
  have hread : borrowTwice.IsRead := Context.isRead_ofText (by decide +kernel)
  obtain ⟨r, hr⟩ := exists_eq_ok (x := (borrowTwice.analysis {}).loans) (by decide +kernel)
  obtain ⟨g, fx, frame, live, hg, hfx, hframe, hlive, hall⟩ := live_binding_keeps_loans hread hr
  have hpath : (borrowTwice.analysis {}).graph.toOption.map (fun g => (g.entry, g.last 0)) =
      some (0, 7) := by decide +kernel
  simp only [hg, Except.toOption, Option.map_some, Option.some.injEq, Prod.mk.injEq] at hpath
  obtain ⟨hentry, hlast⟩ := hpath
  have hmet : (borrowTwice.analysis {}).effects.toOption.map (fun fx =>
      (((fx.accesses ⟨0, 2⟩).find? (·.loan = some ⟨⟨0, 2⟩, 0⟩)).map Access.place,
        (fx.accesses ⟨0, 3⟩).any fun a => a.place.root = 3 && !a.defines,
        (fx.get ⟨0, 1⟩).storesLoan 2 ⟨⟨0, 1⟩, 0⟩, (fx.get ⟨0, 2⟩).storesLoan 3 ⟨⟨0, 2⟩, 0⟩)) =
      some (some ⟨2, [.deref], "x"⟩, true, true, true) := by decide +kernel
  simp only [hfx, Except.toOption, Option.map_some, Option.some.injEq, Prod.mk.injEq] at hmet
  obtain ⟨hplace, huse, hfirst, hsecond⟩ := hmet
  obtain ⟨f, hf, hroot, hstored⟩ := Effects.exists_flow_of_storesLoan hfirst
  obtain ⟨f', hf', hroot', hstored'⟩ := Effects.exists_flow_of_storesLoan hsecond
  have hstart : CarriedAt g (borrowTwice.regionProblem fx frame live) ⟨g.entry, 0⟩ fun _ => ∅ := .entry rfl
  rw [hentry] at hstart
  have hcarried := ((hstart.next (.along (by rw [hlast]; decide)) rfl).next
    (.along (by rw [hlast]; decide)) rfl).next (.along (by rw [hlast]; decide)) rfl
  have hlive : LiveAt g fx 3 ⟨0, 3⟩ := by
    simp only [List.any_eq_true, Bool.and_eq_true, decide_eq_true_eq, Bool.not_eq_true'] at huse
    obtain ⟨a, ha, hroot, hd⟩ := huse
    exact .use ha hroot hd
  have hx : ∀ carried, ⟨⟨0, 1⟩, 0⟩ ∈
      (borrowTwice.regionProblem fx frame live).carriedAfter (fx.get ⟨0, 1⟩) carried 2 :=
    fun _ => Or.inr ⟨f, hf, hroot, _, hstored, .loan _⟩
  have hy : ∀ carried, ⟨⟨0, 1⟩, 0⟩ ∈ carried 2 → ⟨⟨0, 1⟩, 0⟩ ∈
      (borrowTwice.regionProblem fx frame live).carriedAfter (fx.get ⟨0, 2⟩) carried 3 :=
    fun _ hk => Or.inr ⟨f', hf', hroot', _, hstored', .reborrow hplace rfl hk⟩
  have hlocal : (borrowTwice.function.bindings.get? 3).map (fun bd =>
      (bd.kind, (borrowTwice.types.carriesRefs (some bd.ty)).toOption)) = some (.localVar, some true) := by
    decide +kernel
  simp only [Option.map_eq_some_iff, Prod.mk.injEq] at hlocal
  obtain ⟨bd, hbd, hlocal⟩ := hlocal
  exact ⟨hread, r, g, fx, frame, live, _, hr, hg, hfx, hcarried, hlive, hy _ (hx _),
    hall _ _ hcarried 3 bd hbd hlocal.1 (eq_ok_of_toOption hlocal.2) hlive _ (hy _ (hx _))⟩

end Ownership
