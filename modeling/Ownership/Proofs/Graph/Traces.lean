import Ownership.Proofs.Graph.Layout

/-!
Lowering keeps the meaning of a body. The structured meaning of code is a
behaviour: which events its runs show, and how they end. Behaviours are put
together the way statements are. The graph's side is what the paths from a point
show, ends of storage left out. A point realizes a behaviour when its paths show
just the runs of the behaviour, each followed by what the point that its end
leads to shows. The code of every statement realizes its behaviour, and so a body
and its graph have the same traces.
-/
namespace Ownership

/-- What a run shows: statements that compute, conditions with their outcome, scrutinees with the
arm that is taken, and the end of the function. -/
inductive Event where
  | step (s : Stmt)
  | test (cond : Expr) (outcome : Bool)
  | choose (scrutinee : Expr) (arm : Nat) (label : String)
  | finish

/-- How a run of some code ends: it falls out of the code, leaves it by a jump, or is cut off. -/
inductive Exit where
  | done | broken | continued | returned | cut
  deriving DecidableEq, Repr

/-- The runs of some code: the events that they show, and how they end. -/
abbrev Behaviour := List Event → Exit → Prop

namespace Behaviour

/-- The events happen in order; the run may be cut off between any two of them. -/
def events (es : List Event) : Behaviour := fun t x => t = es ∧ x = .done ∨ t <+: es ∧ x = .cut

/-- Nothing happens but the exit. -/
def leaves (exit : Exit) : Behaviour := fun t x => t = [] ∧ (x = exit ∨ x = .cut)

/-- The second behaviour follows where the first one is done. -/
def andThen (first second : Behaviour) : Behaviour := fun t x =>
  first t x ∧ x ≠ .done ∨ ∃ t₁ t₂, t = t₁ ++ t₂ ∧ first t₁ .done ∧ second t₂ x

def either (a b : Behaviour) : Behaviour := fun t x => a t x ∨ b t x

/-- The behaviour happens again and again, until a run of it leaves the loop or is cut off. -/
inductive Repeats (body : Behaviour) : Behaviour where
  | halt : Repeats body [] .cut
  | again {t₁ t₂ : List Event} {x y : Exit} (h : body t₁ x) (hx : x = .done ∨ x = .continued)
      (hrest : Repeats body t₂ y) : Repeats body (t₁ ++ t₂) y
  | broken {t : List Event} (h : body t .broken) : Repeats body t .done
  | leave {t : List Event} {x : Exit} (h : body t x) (hx : x = .returned ∨ x = .cut) : Repeats body t x

end Behaviour

open Behaviour

mutual

/-- The meaning of a statement; `ret` is the name of the return slot. -/
def Stmt.Runs (ret : String) : Stmt → Behaviour
  | .declare name id value loc => events [.step (.declare name id value loc)]
  | .assign target value loc => events [.step (.assign target value loc)]
  | .eval expr loc => events [.step (.eval expr loc)]
  | .block body => body.Runs ret
  | .branch cond yes no _ =>
    either (andThen (events [.test cond true]) (yes.Runs ret))
      (andThen (events [.test cond false]) (Block.RunsOptional ret no))
  | .loop body _ => Repeats (body.Runs ret)
  | .breakLoop _ => leaves .broken
  | .continueLoop _ => leaves .continued
  | .ret value loc => andThen (events ((returnStores ret value loc).map .step)) (leaves .returned)
  | .select scrutinee arms _ => Arm.RunsAny ret scrutinee 0 arms
  | .storageDead .. => fun _ _ => False
  | .foreign => fun _ _ => False

def Stmt.RunsAll (ret : String) : List Stmt → Behaviour
  | [] => events []
  | s :: rest => andThen (s.Runs ret) (Stmt.RunsAll ret rest)

def Block.Runs (ret : String) : Block → Behaviour
  | .mk statements _ => Stmt.RunsAll ret statements

def Block.RunsOptional (ret : String) : Option Block → Behaviour
  | none => events []
  | some b => b.Runs ret

/-- One of the arms is taken, which are numbered from `i` on: it binds its payload, and its body runs. -/
def Arm.RunsAny (ret : String) (scrutinee : Expr) : Nat → List Arm → Behaviour
  | _, [] => leaves .cut
  | i, .mk variant body bindings _ :: rest =>
    either (andThen (events [.choose scrutinee i (variant.getD "_")])
        (andThen (events ((payloadDeclarations scrutinee variant bindings).map .step)) (body.Runs ret)))
      (Arm.RunsAny ret scrutinee (i + 1) rest)

end

/-- The run is over: the end of the body was reached, or a return. -/
def Exit.Over (x : Exit) : Prop := x = .done ∨ x = .returned

/-- The traces of a function and their beginnings: what a run of the body shows, and the end of
the function where the run is over. -/
def Function.Traces (f : Function) (t : List Event) : Prop :=
  ∃ t' x, Stmt.RunsAll f.returnName f.body.statements t' x ∧
    ((x = .cut ∨ x.Over) ∧ t = t' ∨ x.Over ∧ t = t' ++ [.finish])

/-- The event of a statement in a graph; ends of storage show nothing. -/
def Stmt.events (s : Stmt) : List Event := if s.isStorageDead then [] else [.step s]

/-- What taking an edge shows, which is the terminator's edge number `i`. -/
def Terminator.events (t : Terminator) (i : Nat) (e : Edge) : List Event :=
  match t.kind, t.cond, t.scrutinee with
  | .branch, some cond, _ => [.test cond (e.label = "then")]
  | .switch, _, some scrutinee => [.choose scrutinee i e.label]
  | _, _, _ => []

namespace Graph

variable {g : Graph} {p q : Point} {n : Nat} {t : List Event}

/-- A path of `n` steps from the point shows the events. -/
inductive Emits (g : Graph) : Nat → Point → List Event → Prop where
  | stop (p : Point) : Emits g 0 p []
  | finish {p : Point} {term : Terminator} (h : g.EndsWith p term) (hk : term.kind = .ret) :
      Emits g 0 p [.finish]
  | along {n : Nat} {p : Point} {s : Stmt} {t : List Event} (h : g.statementAt p = some s)
      (hrest : Emits g n ⟨p.block, p.index + 1⟩ t) : Emits g (n + 1) p (s.events ++ t)
  | across {n i : Nat} {p : Point} {term : Terminator} {e : Edge} {t : List Event}
      (h : g.EndsWith p term) (he : term.edges[i]? = some e) (hrest : Emits g n ⟨e.target, 0⟩ t) :
      Emits g (n + 1) p (term.events i e ++ t)

/-- Some path from the point shows the events. -/
def Shows (g : Graph) (p : Point) (t : List Event) : Prop := ∃ n, g.Emits n p t

/-- What the paths from the entry show. -/
def Traces (g : Graph) (t : List Event) : Prop := g.Shows ⟨g.entry, 0⟩ t

theorem shows_nil (g : Graph) (p : Point) : g.Shows p [] := ⟨0, .stop p⟩

theorem not_endsWith_of_statement {s : Stmt} {term : Terminator} (h : g.statementAt p = some s) :
    ¬ g.EndsWith p term := by
  intro he
  have hlt : p.index < g.last p.block := (List.getElem?_eq_some_iff.mp h).1
  have hlast := he.last
  omega

/-- A path from a statement has not left it, or goes on after it. -/
theorem Emits.of_statement {s : Stmt} (h : g.statementAt p = some s) (he : g.Emits n p t) :
    t = [] ∨ ∃ m t', m < n ∧ t = s.events ++ t' ∧ g.Emits m ⟨p.block, p.index + 1⟩ t' := by
  cases he with
  | stop p => exact .inl rfl
  | finish hend _ => exact absurd hend (not_endsWith_of_statement h)
  | @along m _ s' t' hs hrest =>
    obtain rfl := Option.some.inj (h.symm.trans hs)
    exact .inr ⟨m, t', Nat.lt_succ_self m, rfl, hrest⟩
  | across hend _ _ => exact absurd hend (not_endsWith_of_statement h)

/-- A path from the end of a block has not left it, or takes one of its edges. -/
theorem Emits.of_endsWith {term : Terminator} (h : g.EndsWith p term) (hk : term.kind ≠ .ret)
    (he : g.Emits n p t) : t = [] ∨ ∃ m i e t', m < n ∧ term.edges[i]? = some e ∧
      t = term.events i e ++ t' ∧ g.Emits m ⟨e.target, 0⟩ t' := by
  have hsame : ∀ other, g.EndsWith p other → other = term := fun other ho =>
    Option.some.inj (ho.terminator.symm.trans h.terminator)
  cases he with
  | stop p => exact .inl rfl
  | finish hend hret =>
    rw [hsame _ hend] at hret
    exact absurd hret hk
  | along hs _ => exact absurd h (not_endsWith_of_statement hs)
  | @across m i _ other e t' hend hedge hrest =>
    obtain rfl := hsame _ hend
    exact .inr ⟨m, i, e, t', Nat.lt_succ_self m, hedge, rfl, hrest⟩

/-- Nothing is shown between the two points. -/
structure Leads (g : Graph) (p q : Point) : Prop where
  shows : ∀ t, g.Shows q t → g.Shows p t
  only : ∀ n t, g.Emits n p t → ∃ m ≤ n, g.Emits m q t

theorem Leads.refl (g : Graph) (p : Point) : g.Leads p p where
  shows _ h := h
  only n _ h := ⟨n, Nat.le_refl n, h⟩

theorem Leads.trans {r : Point} (h : g.Leads p q) (k : g.Leads q r) : g.Leads p r where
  shows t ht := h.shows t (k.shows t ht)
  only n t ht := by
    obtain ⟨m, hm, hq⟩ := h.only n t ht
    obtain ⟨l, hl, hr⟩ := k.only m t hq
    exact ⟨l, Nat.le_trans hl hm, hr⟩

theorem leads_storageDead {s : Stmt} (h : g.statementAt p = some s) (hs : s.isStorageDead = true) :
    g.Leads p ⟨p.block, p.index + 1⟩ := by
  have hnone : s.events = [] := by simp [Stmt.events, hs]
  refine ⟨?_, ?_⟩
  · rintro t ⟨n, hn⟩
    have hp := Emits.along h hn
    rw [hnone] at hp
    exact ⟨n + 1, hp⟩
  · intro n t ht
    rcases Emits.of_statement h ht with rfl | ⟨m, t', hm, rfl, hrest⟩
    · exact ⟨0, Nat.zero_le n, .stop _⟩
    · rw [hnone]
      exact ⟨m, Nat.le_of_lt hm, hrest⟩

theorem Closes.leads (h : g.Closes p q) : g.Leads p q := by
  obtain ⟨ends, hends, hall⟩ := h
  induction ends generalizing p with
  | nil =>
    have hp : p = q := hall
    rw [hp]
    exact .refl g q
  | cons s ends ih =>
    have hs := leads_storageDead hall.1 (hends s List.mem_cons_self)
    exact hs.trans (ih (fun s' hs' => hends s' (List.mem_cons_of_mem s hs')) hall.2)

/-- A path from a jump has not left it, or goes on at its target. -/
theorem Emits.of_jumpsTo {b : Nat} (h : g.JumpsTo p b) (he : g.Emits n p t) :
    t = [] ∨ ∃ m, m < n ∧ g.Emits m ⟨b, 0⟩ t := by
  obtain ⟨label, hend⟩ := h
  rcases Emits.of_endsWith hend nofun he with ht | ⟨m, i, e, t', hm, hi, rfl, hrest⟩
  · exact .inl ht
  · obtain ⟨rfl, rfl⟩ : i = 0 ∧ ⟨b, label⟩ = e := by simpa [List.getElem?_singleton] using hi
    exact .inr ⟨m, hm, hrest⟩

theorem JumpsTo.leads {b : Nat} (h : g.JumpsTo p b) : g.Leads p ⟨b, 0⟩ := by
  refine ⟨?_, ?_⟩
  · rintro t ⟨n, hn⟩
    obtain ⟨label, hend⟩ := h
    exact ⟨n + 1, Emits.across (i := 0) hend rfl hn⟩
  · intro n t ht
    rcases Emits.of_jumpsTo h ht with rfl | ⟨m, hm, hrest⟩
    · exact ⟨0, Nat.zero_le n, .stop _⟩
    · exact ⟨m, Nat.le_of_lt hm, hrest⟩

theorem LeavesTo.leads {b : Nat} (h : g.LeavesTo p b) : g.Leads p ⟨b, 0⟩ := by
  obtain ⟨q, hclose, hjump⟩ := h
  exact hclose.leads.trans hjump.leads

/-- What can be seen, in `n` steps, after a run that ends so: nothing when it is cut off, and what
the paths from the point where it lands show otherwise. -/
def Resumes (g : Graph) (lands : Exit → Option Point) (n : Nat) (x : Exit) (t : List Event) : Prop :=
  x = .cut ∧ t = [] ∨ ∃ q, lands x = some q ∧ g.Emits n q t

/-- The paths from the point show just the runs of the behaviour, each with what can be seen after
it. The rest of a path is no longer than the path. -/
structure Realizes (g : Graph) (p : Point) (lands : Exit → Option Point) (b : Behaviour) : Prop where
  shows : ∀ t t' x n, b t x → g.Resumes lands n x t' → g.Shows p (t ++ t')
  only : ∀ n t, g.Emits n p t → ∃ t₁ t₂ x m, t = t₁ ++ t₂ ∧ m ≤ n ∧ b t₁ x ∧ g.Resumes lands m x t₂

end Graph

/-- Where control goes on after code that is laid in these surroundings and falls out at the
point. -/
def Surroundings.landing (c : Surroundings) (q : Point) : Exit → Option Point
  | .done => some q
  | .broken => c.loops.head?.map fun l => ⟨l.exit, 0⟩
  | .continued => c.loops.head?.map fun l => ⟨l.header, 0⟩
  | .returned => some ⟨c.exit, 0⟩
  | .cut => none

theorem Surroundings.landing_of_ne_done (c : Surroundings) (q r : Point) {x : Exit} (h : x ≠ .done) :
    c.landing q x = c.landing r x := by
  cases x with
  | done => exact absurd rfl h
  | broken => rfl
  | continued => rfl
  | returned => rfl
  | cut => rfl

theorem Surroundings.landing_declaring (c : Surroundings) (bindings : List (BindingId × String)) (q : Point) :
    (c.declaring bindings).landing q = c.landing q := by
  unfold declaring
  split <;> rfl

namespace Behaviour

theorem events_nil (t : List Event) (x : Exit) : leaves .done t x ↔ events [] t x := by
  simp only [events, leaves, List.prefix_nil, and_or_left]

theorem events_cons (e : Event) (es t : List Event) (x : Exit) :
    andThen (events [e]) (events es) t x ↔ events (e :: es) t x := by
  constructor
  · rintro (⟨⟨-, hdone⟩ | ⟨ht, rfl⟩, hx⟩ | ⟨t₁, t₂, rfl, ⟨rfl, -⟩ | ⟨-, hcut⟩, ⟨rfl, rfl⟩ | ⟨ht, rfl⟩⟩)
    · exact absurd hdone hx
    · exact .inr ⟨ht.trans (List.prefix_append [e] es), rfl⟩
    · exact .inl ⟨rfl, rfl⟩
    · exact .inr ⟨(List.prefix_append_right_inj [e]).mpr ht, rfl⟩
    · cases hcut
    · cases hcut
  · rintro (⟨rfl, rfl⟩ | ⟨ht, rfl⟩)
    · exact .inr ⟨[e], es, rfl, .inl ⟨rfl, rfl⟩, .inl ⟨rfl, rfl⟩⟩
    · rcases List.prefix_cons_iff.mp ht with rfl | ⟨t', rfl, ht'⟩
      · exact .inl ⟨.inr ⟨List.nil_prefix, rfl⟩, by decide⟩
      · exact .inr ⟨[e], t', rfl, .inl ⟨rfl, rfl⟩, .inr ⟨ht', rfl⟩⟩

/-- A run that starts with an event is cut off before or after it, or goes on. -/
theorem andThen_event_iff (e : Event) (b : Behaviour) (t : List Event) (x : Exit) :
    andThen (events [e]) b t x ↔
      (t = [] ∨ t = [e]) ∧ x = .cut ∨ ∃ t', t = e :: t' ∧ b t' x := by
  constructor
  · rintro (⟨⟨-, hdone⟩ | ⟨ht, rfl⟩, hx⟩ | ⟨t₁, t₂, rfl, ⟨rfl, -⟩ | ⟨-, hcut⟩, hb⟩)
    · exact absurd hdone hx
    · rcases List.prefix_cons_iff.mp ht with rfl | ⟨t', rfl, ht'⟩
      · exact .inl ⟨.inl rfl, rfl⟩
      · rw [List.prefix_nil.mp ht']
        exact .inl ⟨.inr rfl, rfl⟩
    · exact .inr ⟨t₂, rfl, hb⟩
    · cases hcut
  · rintro (⟨rfl | rfl, rfl⟩ | ⟨t', rfl, hb⟩)
    · exact .inl ⟨.inr ⟨List.nil_prefix, rfl⟩, by decide⟩
    · exact .inl ⟨.inr ⟨List.prefix_rfl, rfl⟩, by decide⟩
    · exact .inr ⟨[e], t', rfl, .inl ⟨rfl, rfl⟩, hb⟩

end Behaviour

namespace Graph

variable {g : Graph} {p q r : Point} {c : Surroundings} {a b : Behaviour}

theorem resumes_done {n : Nat} {t : List Event} (h : g.Emits n q t) : g.Resumes (c.landing q) n .done t :=
  .inr ⟨q, rfl, h⟩

/-- Where code falls out matters only for the runs that fall out of it. -/
theorem Resumes.move {n : Nat} {x : Exit} {t : List Event} (h : g.Resumes (c.landing q) n x t)
    (hx : x ≠ .done) : g.Resumes (c.landing r) n x t := by
  unfold Resumes at h ⊢
  rwa [c.landing_of_ne_done r q hx]

namespace Realizes

theorem congr {lands : Exit → Option Point} (h : g.Realizes p lands a) (hab : ∀ t x, a t x ↔ b t x) :
    g.Realizes p lands b := by
  have he : a = b := funext fun t => funext fun x => propext (hab t x)
  rwa [← he]

theorem before {lands : Exit → Option Point} (h : g.Leads p q) (k : g.Realizes q lands b) :
    g.Realizes p lands b where
  shows t t' x n hb hr := h.shows _ (k.shows t t' x n hb hr)
  only n t ht := by
    obtain ⟨m, hm, hq⟩ := h.only n t ht
    obtain ⟨t₁, t₂, x, l, rfl, hl, hb, hr⟩ := k.only m t hq
    exact ⟨t₁, t₂, x, l, rfl, Nat.le_trans hl hm, hb, hr⟩

theorem leaves {x : Exit} (h : g.Leads p r) (hx : c.landing q x = some r) :
    g.Realizes p (c.landing q) (leaves x) where
  shows := by
    rintro t t' y n ⟨rfl, hy⟩ (⟨-, rfl⟩ | ⟨z, hz, hn⟩)
    · exact shows_nil g p
    · rcases hy with rfl | rfl
      · obtain rfl := Option.some.inj (hx.symm.trans hz)
        exact h.shows t' ⟨n, hn⟩
      · cases hz
  only n t ht := by
    obtain ⟨m, hm, hr⟩ := h.only n t ht
    exact ⟨[], t, x, m, rfl, hm, ⟨rfl, .inl rfl⟩, .inr ⟨r, hx, hr⟩⟩

theorem nothing (h : g.Leads p q) : g.Realizes p (c.landing q) (events []) :=
  (Realizes.leaves h rfl).congr events_nil

theorem step {s : Stmt} (h : g.statementAt p = some s) (hs : s.isStorageDead = false) :
    g.Realizes p (c.landing ⟨p.block, p.index + 1⟩) (events [.step s]) := by
  have hev : s.events = [.step s] := by simp [Stmt.events, hs]
  have hgo : ∀ n t, g.Emits n ⟨p.block, p.index + 1⟩ t → g.Shows p (.step s :: t) := by
    intro n t hn
    have hp := Emits.along h hn
    rw [hev] at hp
    exact ⟨n + 1, hp⟩
  refine ⟨?_, ?_⟩
  · rintro t t' x n (⟨rfl, rfl⟩ | ⟨ht, rfl⟩) (⟨hcut, rfl⟩ | ⟨q, hq, hn⟩)
    · cases hcut
    · obtain rfl := Option.some.inj hq
      exact hgo n t' hn
    · rw [List.append_nil]
      rcases List.prefix_cons_iff.mp ht with rfl | ⟨u, rfl, hu⟩
      · exact shows_nil g p
      · rw [List.prefix_nil.mp hu]
        exact hgo 0 [] (.stop _)
    · cases hq
  · intro n t ht
    rcases Emits.of_statement h ht with rfl | ⟨m, t', hm, rfl, hrest⟩
    · exact ⟨[], [], .cut, 0, rfl, Nat.zero_le n, .inr ⟨List.nil_prefix, rfl⟩, .inl ⟨rfl, rfl⟩⟩
    · rw [hev]
      exact ⟨_, t', .done, m, rfl, Nat.le_of_lt hm, .inl ⟨rfl, rfl⟩, resumes_done hrest⟩

theorem andThen (h : g.Realizes p (c.landing q) a) (k : g.Realizes q (c.landing r) b) :
    g.Realizes p (c.landing r) (andThen a b) where
  shows := by
    rintro t t' x n (⟨ha, hx⟩ | ⟨t₁, t₂, rfl, ha, hb⟩) hr
    · exact h.shows t t' x n ha (hr.move hx)
    · obtain ⟨m, hm⟩ := k.shows t₂ t' x n hb hr
      rw [List.append_assoc]
      exact h.shows t₁ _ .done m ha (resumes_done hm)
  only n t ht := by
    obtain ⟨t₁, t₂, x, m, rfl, hm, ha, hr⟩ := h.only n t ht
    by_cases hx : x = .done
    · subst hx
      obtain ⟨hcut, -⟩ | ⟨z, hz, hrest⟩ := hr
      · cases hcut
      · obtain rfl := Option.some.inj hz
        obtain ⟨u₁, u₂, y, l, rfl, hl, hb, hr⟩ := k.only m t₂ hrest
        exact ⟨t₁ ++ u₁, u₂, y, l, (List.append_assoc ..).symm, Nat.le_trans hl hm,
          .inr ⟨t₁, u₁, rfl, ha, hb⟩, hr⟩
    · exact ⟨t₁, t₂, x, m, rfl, hm, .inl ⟨ha, hx⟩, hr.move hx⟩

/-- What is silent after some code can be taken as the end of the code. -/
theorem after (h : g.Realizes p (c.landing q) b) (k : g.Leads q r) : g.Realizes p (c.landing r) b where
  shows t t' x n hb hr := by
    by_cases hx : x = .done
    · subst hx
      obtain ⟨hcut, -⟩ | ⟨z, hz, hrest⟩ := hr
      · cases hcut
      · obtain rfl := Option.some.inj hz
        obtain ⟨m, hm⟩ := k.shows t' ⟨n, hrest⟩
        exact h.shows t t' .done m hb (resumes_done hm)
    · exact h.shows t t' x n hb (hr.move hx)
  only n t ht := by
    obtain ⟨t₁, t₂, x, m, rfl, hm, hb, hr⟩ := h.only n t ht
    by_cases hx : x = .done
    · subst hx
      obtain ⟨hcut, -⟩ | ⟨z, hz, hrest⟩ := hr
      · cases hcut
      · obtain rfl := Option.some.inj hz
        obtain ⟨l, hl, hend⟩ := k.only m t₂ hrest
        exact ⟨t₁, t₂, .done, l, rfl, Nat.le_trans hl hm, hb, resumes_done hend⟩
    · exact ⟨t₁, t₂, x, m, rfl, hm, hb, hr.move hx⟩

theorem steps {ss : List Stmt} (h : g.HasAll ss p q) (hs : ∀ s ∈ ss, s.isStorageDead = false) :
    g.Realizes p (c.landing q) (events (ss.map .step)) := by
  induction ss generalizing p with
  | nil =>
    have hp : p = q := h
    rw [hp]
    exact .nothing (.refl g q)
  | cons s ss ih =>
    have hfirst := Realizes.step (c := c) h.1 (hs s List.mem_cons_self)
    have hrest := ih h.2 fun s' hs' => hs s' (List.mem_cons_of_mem s hs')
    exact (hfirst.andThen hrest).congr (events_cons _ _)

/-- A block that ends in a choice shows which way it goes, and then what lies there shows. -/
theorem choice {term : Terminator} (h : g.EndsWith p term) (hk : term.kind ≠ .ret) (seen : Nat → Edge → Event)
    (hseen : ∀ i e, term.events i e = [seen i e]) (ways : Nat → Behaviour)
    (hways : ∀ i e, term.edges[i]? = some e → g.Realizes ⟨e.target, 0⟩ (c.landing q) (ways i)) :
    g.Realizes p (c.landing q) fun t x => Behaviour.leaves .cut t x ∨
      ∃ i e, term.edges[i]? = some e ∧ Behaviour.andThen (events [seen i e]) (ways i) t x := by
  have hgo : ∀ i e n t, term.edges[i]? = some e → g.Emits n ⟨e.target, 0⟩ t → g.Shows p (seen i e :: t) := by
    intro i e n t he hn
    have hp := Emits.across h he hn
    rw [hseen] at hp
    exact ⟨n + 1, hp⟩
  refine ⟨?_, ?_⟩
  · rintro t t' x n (⟨rfl, hx⟩ | ⟨i, e, he, hrun⟩) hr
    · obtain ⟨-, rfl⟩ | ⟨z, hz, -⟩ := hr
      · exact shows_nil g p
      · rcases hx with rfl | rfl <;> cases hz
    · rcases (andThen_event_iff ..).mp hrun with ⟨ht, rfl⟩ | ⟨u, rfl, hb⟩
      · obtain ⟨-, rfl⟩ | ⟨z, hz, -⟩ := hr
        · rcases ht with rfl | rfl
          · exact shows_nil g p
          · exact hgo i e 0 [] he (.stop _)
        · cases hz
      · obtain ⟨m, hm⟩ := (hways i e he).shows u t' x n hb hr
        exact hgo i e m _ he hm
  · intro n t ht
    rcases Emits.of_endsWith h hk ht with rfl | ⟨m, i, e, t', hm, he, rfl, hrest⟩
    · exact ⟨[], [], .cut, 0, rfl, Nat.zero_le n, .inl ⟨rfl, .inl rfl⟩, .inl ⟨rfl, rfl⟩⟩
    · obtain ⟨t₁, t₂, x, l, rfl, hl, hb, hr⟩ := (hways i e he).only m t' hrest
      rw [hseen]
      exact ⟨seen i e :: t₁, t₂, x, l, rfl, Nat.le_trans hl (Nat.le_of_lt hm),
        .inr ⟨i, e, he, (andThen_event_iff ..).mpr (.inr ⟨t₁, rfl, hb⟩)⟩, hr⟩

/-- A loop goes round from its header: every turn is a run of the body, and the next one starts
with strictly fewer steps left. -/
theorem repeats {header start exit : Nat} (hstart : g.JumpsTo ⟨header, 0⟩ start)
    (h : g.Realizes ⟨start, 0⟩ ((c.enterLoop header exit).landing ⟨header, 0⟩) b) :
    g.Realizes ⟨header, 0⟩ (c.landing ⟨exit, 0⟩) (Repeats b) where
  shows := by
    intro t t' x n hb hr
    apply hstart.leads.shows
    induction hb with
    | halt =>
      obtain ⟨-, rfl⟩ | ⟨z, hz, -⟩ := hr
      · exact shows_nil g _
      · cases hz
    | again hbody hx _ ih =>
      obtain ⟨m, hm⟩ := hstart.leads.shows _ (ih hr)
      rw [List.append_assoc]
      refine h.shows _ _ _ m hbody (.inr ⟨⟨header, 0⟩, ?_, hm⟩)
      rcases hx with rfl | rfl <;> rfl
    | broken hbody =>
      obtain ⟨hcut, -⟩ | ⟨z, hz, hn⟩ := hr
      · cases hcut
      · exact h.shows _ t' .broken n hbody (.inr ⟨z, hz, hn⟩)
    | leave hbody hx =>
      refine h.shows _ t' _ n hbody ?_
      rcases hx with rfl | rfl <;> exact hr
  only n := by
    induction n using Nat.strongRecOn with
    | ind n ih =>
    intro t ht
    rcases Emits.of_jumpsTo hstart ht with rfl | ⟨m, hm, hbody⟩
    · exact ⟨[], [], .cut, 0, rfl, Nat.zero_le n, .halt, .inl ⟨rfl, rfl⟩⟩
    · obtain ⟨t₁, t₂, x, l, rfl, hl, hb, hr⟩ := h.only m t hbody
      have hln : l < n := Nat.lt_of_le_of_lt hl hm
      have hagain : ∀ hx : x = .done ∨ x = .continued, g.Emits l ⟨header, 0⟩ t₂ → ∃ u₁ u₂ y k,
          t₁ ++ t₂ = u₁ ++ u₂ ∧ k ≤ n ∧ Repeats b u₁ y ∧ g.Resumes (c.landing ⟨exit, 0⟩) k y u₂ := by
        intro hx hnext
        obtain ⟨u₁, u₂, y, k, rfl, hk, hrep, hy⟩ := ih l hln t₂ hnext
        exact ⟨t₁ ++ u₁, u₂, y, k, (List.append_assoc ..).symm, by omega, .again hb hx hrep, hy⟩
      rcases hr with ⟨rfl, rfl⟩ | ⟨z, hz, hnext⟩
      · exact ⟨t₁, [], .cut, l, rfl, Nat.le_of_lt hln, .leave hb (.inr rfl), .inl ⟨rfl, rfl⟩⟩
      · cases x with
        | done =>
          obtain rfl := Option.some.inj hz
          exact hagain (.inl rfl) hnext
        | continued =>
          obtain rfl := Option.some.inj hz
          exact hagain (.inr rfl) hnext
        | broken => exact ⟨t₁, t₂, .done, l, rfl, Nat.le_of_lt hln, .broken hb, .inr ⟨z, hz, hnext⟩⟩
        | returned =>
          exact ⟨t₁, t₂, .returned, l, rfl, Nat.le_of_lt hln, .leave hb (.inl rfl), .inr ⟨z, hz, hnext⟩⟩
        | cut => cases hz

end Realizes

end Graph

/-- What happens once an arm is taken. -/
def Arm.Runs (ret : String) (scrutinee : Expr) : Arm → Behaviour
  | .mk variant body bindings _ =>
    andThen (events ((payloadDeclarations scrutinee variant bindings).map .step)) (body.Runs ret)

theorem Arm.runsAny_iff (ret : String) (scrutinee : Expr) (arms : List Arm) (k : Nat) (t : List Event) (x : Exit) :
    Arm.RunsAny ret scrutinee k arms t x ↔ leaves .cut t x ∨ ∃ i arm, arms[i]? = some arm ∧
      andThen (events [.choose scrutinee (k + i) arm.label]) (arm.Runs ret scrutinee) t x := by
  induction arms generalizing k with
  | nil => simp [Arm.RunsAny]
  | cons arm arms ih =>
    obtain ⟨variant, body, bindings, loc⟩ := arm
    simp only [Arm.RunsAny, either, ih]
    constructor
    · rintro (h | h | ⟨i, arm, hi, h⟩)
      · exact .inr ⟨0, _, rfl, h⟩
      · exact .inl h
      · exact .inr ⟨i + 1, arm, hi, by rwa [← Nat.add_assoc, Nat.add_right_comm]⟩
    · rintro (h | ⟨i, arm, hi, h⟩)
      · exact .inr (.inl h)
      · cases i with
        | zero =>
          obtain rfl := Option.some.inj hi
          exact .inl h
        | succ i => exact .inr (.inr ⟨i, arm, hi, by rwa [Nat.add_right_comm, Nat.add_assoc]⟩)

namespace Graph.Realizes

variable {g : Graph} {c : Surroundings} {p q : Point} {loc : Span}

theorem branch {a b : Behaviour} {cond : Expr} {yes no : Nat}
    (h : g.EndsWith p { kind := .branch, edges := [⟨yes, "then"⟩, ⟨no, "else"⟩], cond := some cond, loc := loc })
    (ha : g.Realizes ⟨yes, 0⟩ (c.landing q) a) (hb : g.Realizes ⟨no, 0⟩ (c.landing q) b) :
    g.Realizes p (c.landing q)
      (either (.andThen (events [.test cond true]) a) (.andThen (events [.test cond false]) b)) := by
  have hways : ∀ i e, [(⟨yes, "then"⟩ : Edge), ⟨no, "else"⟩][i]? = some e →
      g.Realizes ⟨e.target, 0⟩ (c.landing q) (if i = 0 then a else b)
    | 0, _, rfl => ha
    | 1, _, rfl => hb
  refine (choice h nofun (fun _ e => .test cond (e.label = "then")) (fun _ _ => rfl) _ hways).congr ?_
  intro t x
  constructor
  · rintro (⟨rfl, hx⟩ | ⟨i, e, he, hrun⟩)
    · exact .inl ((andThen_event_iff ..).mpr (.inl ⟨.inl rfl, hx.elim id id⟩))
    · match i, he with
      | 0, rfl => exact .inl hrun
      | 1, rfl => exact .inr hrun
  · rintro (hrun | hrun)
    · exact .inr ⟨0, _, rfl, hrun⟩
    · exact .inr ⟨1, _, rfl, hrun⟩

theorem select {scrutinee : Expr} {arms : List Arm} {start : Nat} {ret : String}
    (h : g.EndsWith p { kind := .switch, edges := arms.mapIdx fun i a => ⟨start + i, a.label⟩,
                        scrutinee := some scrutinee, loc := loc })
    (harms : ∀ i arm, arms[i]? = some arm →
      g.Realizes ⟨start + i, 0⟩ (c.landing q) (arm.Runs ret scrutinee)) :
    g.Realizes p (c.landing q) (Arm.RunsAny ret scrutinee 0 arms) := by
  have hedge : ∀ i e, (arms.mapIdx fun i a => (⟨start + i, a.label⟩ : Edge))[i]? = some e ↔
      ∃ arm, arms[i]? = some arm ∧ (⟨start + i, arm.label⟩ : Edge) = e := by
    intro i e
    rw [List.getElem?_mapIdx, Option.map_eq_some_iff]
  have hways : ∀ (i : Nat) (e : Edge), (arms.mapIdx fun i a => (⟨start + i, a.label⟩ : Edge))[i]? = some e →
      g.Realizes ⟨e.target, 0⟩ (c.landing q)
        ((arms[i]?.map (Arm.Runs ret scrutinee)).getD (Behaviour.leaves .cut)) := by
    intro i e he
    obtain ⟨arm, harm, rfl⟩ := (hedge i e).mp he
    rw [harm]
    exact harms i arm harm
  refine (choice h nofun (fun i e => .choose scrutinee i e.label) (fun _ _ => rfl) _ hways).congr ?_
  intro t x
  rw [Arm.runsAny_iff]
  refine or_congr_right ⟨?_, ?_⟩
  · rintro ⟨i, e, he, hrun⟩
    obtain ⟨arm, harm, rfl⟩ := (hedge i e).mp he
    rw [harm] at hrun
    exact ⟨i, arm, harm, by rwa [Nat.zero_add]⟩
  · rintro ⟨i, arm, harm, hrun⟩
    refine ⟨i, _, (hedge i _).mpr ⟨arm, harm, rfl⟩, ?_⟩
    rw [harm]
    rwa [Nat.zero_add] at hrun

end Graph.Realizes

open Ownership.Graph

variable {g : Graph}

mutual

theorem Stmt.Laid.realizes {c : Surroundings} : ∀ {s : Stmt} {p q : Point}, s.Laid g c p q →
    g.Realizes p (c.landing q) (s.Runs c.returnName)
  | .declare name id value loc, p, q, h => by
    rw [Stmt.Runs]
    exact .steps (show g.HasAll [.declare name id value loc] p q from h) (by simp [Stmt.isStorageDead])
  | .assign target value loc, p, q, h => by
    rw [Stmt.Runs]
    exact .steps (show g.HasAll [.assign target value loc] p q from h) (by simp [Stmt.isStorageDead])
  | .eval expr loc, p, q, h => by
    rw [Stmt.Runs]
    exact .steps (show g.HasAll [.eval expr loc] p q from h) (by simp [Stmt.isStorageDead])
  | .block body, p, q, h => by
    rw [Stmt.Runs]
    exact Block.Laid.realizes h
  | .branch cond yes no loc, p, q, h => by
    obtain ⟨yesStart, noStart, join, yesEnd, noEnd, hend, hyes, hyesEnd, hno, hnoEnd, rfl⟩ := h
    have hy := (Block.Laid.realizes hyes).after hyesEnd.leads
    have hn := (Block.LaidOptional.realizes hno).after hnoEnd.leads
    rw [Stmt.Runs]
    exact .branch hend hy hn
  | .loop body _, p, q, h => by
    obtain ⟨header, start, exit, bodyEnd, hp, hstart, hbody, hback, rfl⟩ := h
    rw [Stmt.Runs]
    exact .before hp.leads (.repeats hstart ((Block.Laid.realizes hbody).after hback.leads))
  | .breakLoop _, p, q, h | .continueLoop _, p, q, h => by
    obtain ⟨l, hl, hleave⟩ := h
    rw [Stmt.Runs]
    exact .leaves hleave.leads (by simp [Surroundings.landing, hl])
  | .ret value loc, p, q, h => by
    obtain ⟨r, hstores, hleave⟩ := h
    rw [Stmt.Runs]
    refine .andThen (.steps hstores ?_) (.leaves hleave.leads rfl)
    simp [returnStores, Stmt.isStorageDead]
  | .select scrutinee arms loc, p, q, h => by
    obtain ⟨join, hend, harms, rfl⟩ := h
    have hways : ∀ i arm, arms[i]? = some arm →
        g.Realizes ⟨join + 1 + i, 0⟩ (c.landing ⟨join, 0⟩) (arm.Runs c.returnName scrutinee) :=
      Arm.LaidAll.realizes harms
    rw [Stmt.Runs]
    exact .select hend hways
  | .storageDead .., _, _, h => h.elim
  | .foreign, _, _, h => h.elim

theorem Stmt.LaidAll.realizes {c : Surroundings} : ∀ {ss : List Stmt} {p q : Point}, Stmt.LaidAll g c ss p q →
    g.Realizes p (c.landing q) (Stmt.RunsAll c.returnName ss)
  | [], p, q, h => by
    have hp : p = q := h
    rw [Stmt.RunsAll, hp]
    exact .nothing (.refl g q)
  | s :: rest, p, q, h => by
    obtain ⟨r, hs, hrest⟩ := h
    have hall := Stmt.LaidAll.realizes hrest
    rw [Surroundings.landing_declaring, Surroundings.returnName_declaring] at hall
    rw [Stmt.RunsAll]
    exact (Stmt.Laid.realizes hs).andThen hall

theorem Block.Laid.realizes {c : Surroundings} : ∀ {b : Block} {p q : Point}, b.Laid g c p q →
    g.Realizes p (c.landing q) (b.Runs c.returnName)
  | .mk statements _, p, q, h => by
    obtain ⟨r, hall, hclose⟩ := h
    rw [Block.Runs]
    exact (Stmt.LaidAll.realizes hall).after hclose.leads

theorem Block.LaidOptional.realizes {c : Surroundings} : ∀ {b : Option Block} {p q : Point},
    Block.LaidOptional g c b p q → g.Realizes p (c.landing q) (Block.RunsOptional c.returnName b)
  | none, p, q, h => by
    have hp : p = q := h
    rw [Block.RunsOptional, hp]
    exact .nothing (.refl g q)
  | some b, p, q, h => by
    rw [Block.RunsOptional]
    exact Block.Laid.realizes h

theorem Arm.LaidAll.realizes {c : Surroundings} {scrutinee : Expr} {join : Nat} : ∀ {arms : List Arm} {start : Nat},
    Arm.LaidAll g c scrutinee join start arms → ∀ i arm, arms[i]? = some arm →
      g.Realizes ⟨start + i, 0⟩ (c.landing ⟨join, 0⟩) (arm.Runs c.returnName scrutinee)
  | [], _, _, i, arm, hi => by cases hi
  | .mk variant body bindings loc :: rest, start, h, 0, arm, hi => by
    obtain ⟨⟨q, r, hlets, hbody, hleave⟩, -⟩ := h
    obtain rfl := Option.some.inj hi
    have hfirst : g.Realizes ⟨start, 0⟩ (c.landing q) _ := .steps hlets (by
      simp [payloadDeclarations, PayloadBinding.declaration, Stmt.isStorageDead])
    have hrest := (Block.Laid.realizes hbody).after hleave.leads
    rw [Surroundings.landing_declaring, Surroundings.returnName_declaring] at hrest
    exact hfirst.andThen hrest
  | .mk variant body bindings loc :: rest, start, h, i + 1, arm, hi => by
    have hrest := Arm.LaidAll.realizes h.2 i arm hi
    rwa [Nat.add_assoc, Nat.add_comm 1 i] at hrest

end

/-- What the exit of a graph shows: nothing, or the end of the function. -/
theorem Graph.Emits.of_ret {p : Point} {term : Terminator} {n : Nat} {t : List Event} (h : g.EndsWith p term)
    (hk : term.kind = .ret) (hedges : term.edges = []) (he : g.Emits n p t) : t = [] ∨ t = [.finish] := by
  cases he with
  | stop p => exact .inl rfl
  | finish _ _ => exact .inr rfl
  | along hs _ => exact absurd h (not_endsWith_of_statement hs)
  | across hend hedge _ =>
    obtain rfl := Option.some.inj (hend.terminator.symm.trans h.terminator)
    rw [hedges] at hedge
    cases hedge

/-- A run of a whole body that is over lands at the exit, and no other run lands anywhere. -/
theorem Function.landing_exit (f : Function) (h : f.graph = .ok g) (x : Exit) (z : Point) :
    f.surroundings.landing ⟨g.exit, 0⟩ x = some z ↔ x.Over ∧ z = ⟨g.exit, 0⟩ := by
  obtain ⟨-, -, -, -, hexit⟩ := Function.graph_draft h
  rw [hexit]
  cases x <;> simp [Surroundings.landing, Function.surroundings, Exit.Over, eq_comm]

/-- A function and its graph have the same traces: what the runs of the body show, however its
conditions and its matches turn out, is what the paths from the entry show. -/
theorem graph_traces_iff {f : Function} (h : f.graph = .ok g) (t : List Event) : g.Traces t ↔ f.Traces t := by
  obtain ⟨hret, q, hlaid, hleave⟩ := Function.graph_laid h
  have hbody : g.Realizes ⟨g.entry, 0⟩ (f.surroundings.landing ⟨g.exit, 0⟩)
      (Stmt.RunsAll f.returnName f.body.statements) :=
    (Stmt.LaidAll.realizes hlaid).after hleave.leads
  have hlands := f.landing_exit h
  constructor
  · rintro ⟨n, hn⟩
    obtain ⟨t₁, t₂, x, m, rfl, -, hrun, hrest⟩ := hbody.only n t hn
    rcases hrest with ⟨rfl, rfl⟩ | ⟨z, hz, hm⟩
    · exact ⟨t₁, .cut, hrun, .inl ⟨.inl rfl, List.append_nil t₁⟩⟩
    · obtain ⟨hx, rfl⟩ := (hlands x z).mp hz
      rcases Emits.of_ret hret rfl rfl hm with rfl | rfl
      · exact ⟨t₁, x, hrun, .inl ⟨.inr hx, List.append_nil t₁⟩⟩
      · exact ⟨t₁, x, hrun, .inr ⟨hx, rfl⟩⟩
  · rintro ⟨t', x, hrun, ⟨rfl | hx, rfl⟩ | ⟨hx, rfl⟩⟩
    · have hcut := hbody.shows t [] .cut 0 hrun (.inl ⟨rfl, rfl⟩)
      rwa [List.append_nil] at hcut
    · have hover := hbody.shows t [] x 0 hrun (.inr ⟨_, (hlands x _).mpr ⟨hx, rfl⟩, .stop _⟩)
      rwa [List.append_nil] at hover
    · exact hbody.shows t' [.finish] x 0 hrun (.inr ⟨_, (hlands x _).mpr ⟨hx, rfl⟩, .finish hret rfl⟩)

/-- A loop that is left once its flag is set, which its body does. -/
def knock : Function where
  name := "knock"
  params := [⟨"c", 1, 1, {}⟩]
  ret := none
  body := .mk [.loop (.mk
    [.branch (.var "c" 1 {}) (.mk [.breakLoop {}] {}) none {},
      .assign (.var "c" 1 {}) (.bool true {}) {}] {}) {}] {}
  bindings := .ofList [(1, ⟨1, "c", 1, .param, {}⟩)]

/-- The path twice round the loop shows what the run shows that breaks out in its second turn. -/
theorem graph_traces_iff_knock : ∃ g, knock.graph = .ok g ∧ g.Traces
    [.test (.var "c" 1 {}) false, .step (.assign (.var "c" 1 {}) (.bool true {}) {}),
      .test (.var "c" 1 {}) true, .finish] := by
  obtain ⟨g, hg⟩ := Outcome.exists_eq_ok (x := knock.graph) (by decide +kernel)
  refine ⟨g, hg, (graph_traces_iff hg _).mpr ⟨[_, _, _], .done, ?_, .inr ⟨.inl rfl, rfl⟩⟩⟩
  have hdone : ∀ e, events [e] [e] .done := fun e => .inl ⟨rfl, rfl⟩
  have hnil : events [] [] .done := .inl ⟨rfl, rfl⟩
  have hset := hdone (.step (.assign (.var "c" 1 {}) (.bool true {}) {}))
  have hstay := hdone (.test (.var "c" 1 {}) false)
  have hleave := hdone (.test (.var "c" 1 {}) true)
  refine .inr ⟨_, [], (List.append_nil _).symm, ?_, hnil⟩
  change Repeats _ ([_, _] ++ [_]) .done
  refine .again (x := .done) ?_ (.inl rfl) (.broken ?_)
  · exact .inr ⟨[_], [_], rfl, .inr (.inr ⟨[_], [], rfl, hstay, hnil⟩), .inr ⟨[_], [], rfl, hset, hnil⟩⟩
  · exact .inl ⟨.inl (.inr ⟨[_], [], rfl, hleave, .inl ⟨⟨rfl, .inl rfl⟩, by decide⟩⟩), by decide⟩

end Ownership
