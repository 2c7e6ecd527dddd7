import Mathlib.Data.Set.Insert
import Ownership.Proofs.Effect.Occurrences
import Ownership.Proofs.Source.Scoping

/-!
What is used is in scope. A variable of a resolved body stands for a declaration
in sight, and the declarations in sight at a position are open at the points that
the position is lowered to. So on every path through the graph of a function that
was read, a binding is used only between its declaration and the end of its
storage.
-/
namespace Ownership

open Outcome

namespace Surface

mutual

/-- The variables of a resolved expression are in sight. -/
theorem Expr.Resolves.vars_subset {fs : Frames} : ∀ {e : Surface.Expr} {e' : Ownership.Expr},
    e.Resolves fs e' → e'.vars ⊆ fs.ids
  | _, _, .int | _, _, .bool | _, _, .unit => by simp [Ownership.Expr.vars]
  | _, _, .var h => by simpa [Ownership.Expr.vars] using Frames.mem_ids_of_find? h
  | _, _, .field h | _, _, .deref h | _, _, .borrow h | _, _, .unary h => by
    simpa [Ownership.Expr.vars] using h.vars_subset
  | _, _, .index h k | _, _, .binary h k => by
    rw [Ownership.Expr.vars]
    exact List.append_subset.mpr ⟨h.vars_subset, k.vars_subset⟩
  | _, _, .call h | _, _, .inject h => by
    rw [Ownership.Expr.vars]
    exact h.vars_subset
  | _, _, .construct h => by
    rw [Ownership.Expr.vars]
    exact h.vars_subset

theorem Expr.ResolvesAll.vars_subset {fs : Frames} : ∀ {es : List Surface.Expr} {es' : List Ownership.Expr},
    Expr.ResolvesAll fs es es' → Ownership.Expr.varsAll es' ⊆ fs.ids
  | _, _, .nil => by simp [Ownership.Expr.varsAll]
  | _, _, .cons h hrest => by
    rw [Ownership.Expr.varsAll]
    exact List.append_subset.mpr ⟨h.vars_subset, hrest.vars_subset⟩

theorem FieldInit.ResolvesAll.vars_subset {fs : Frames} : ∀ {xs : List Surface.FieldInit}
    {xs' : List Ownership.FieldInit}, FieldInit.ResolvesAll fs xs xs' → Ownership.Expr.fieldVars xs' ⊆ fs.ids
  | _, _, .nil => by simp [Ownership.Expr.fieldVars]
  | _, _, .cons h hrest => by
    rw [Ownership.Expr.fieldVars]
    exact List.append_subset.mpr ⟨h.vars_subset, hrest.vars_subset⟩

end

end Surface

/-- What an expression uses is open, the return slot apart. -/
def Expr.Sees (e : Expr) (o : List BindingId) : Prop := ∀ id ∈ e.vars, id ≠ returnSlot → id ∈ o

/-- What is used is open; the return slot always is. -/
def Discipline.visible : Discipline where
  stmt s o := ∀ id ∈ s.uses, id ≠ returnSlot → id ∈ o
  test := Expr.Sees
  ends _ _ _ _ _ h := by cases h

namespace Surface

variable {fs : Frames} {ret : String} {o : List BindingId}

theorem Expr.Resolves.sees {e : Surface.Expr} {e' : Ownership.Expr} (h : e.Resolves fs e') (ho : fs.ids ⊆ o) :
    e'.Sees o := fun _ hid _ => ho (h.vars_subset hid)

/-- A pattern looks at nothing but what is matched. -/
theorem visible_declarations {e : Ownership.Expr} (he : e.Sees o) (variant : Option String)
    (bindings : List PayloadBinding) : Discipline.visible.All (payloadDeclarations e variant bindings) o := by
  induction bindings generalizing o with
  | nil => trivial
  | cons b bindings ih =>
    have huses : (b.declaration e (variant.getD "")).uses = e.vars := by
      unfold PayloadBinding.declaration
      split <;> rfl
    refine ⟨fun id hid => he id (huses ▸ hid), ih fun id hid hslot => ?_⟩
    exact List.mem_cons_of_mem _ (he id hid hslot)

mutual

/-- A resolved statement uses what is open, if all in sight is. -/
theorem Stmt.Resolves.obeys : ∀ {fs : Frames} {x : Surface.Stmt} {s : Ownership.Stmt} {o : List BindingId},
    x.Resolves fs s → fs.ids ⊆ o → s.Obeys .visible ret o
  | _, _, _, _, .declare h, ho => by
    cases h with
    | none => exact fun _ hid => by cases hid
    | some h => exact h.sees ho
  | _, _, _, _, .assign ht hv, ho => fun id hid hslot =>
    (List.mem_append.mp hid).elim (hv.sees ho id · hslot) (ht.sees ho id · hslot)
  | _, _, _, _, .eval h, ho => h.sees ho
  | _, _, _, _, .branch h, ho => h.obeys ho
  | _, _, _, _, .loop h, ho => h.obeys ho
  | _, _, _, _, .whileLoop hc h, ho => ⟨⟨hc.sees ho, h.obeys ho, trivial, trivial⟩, trivial⟩
  | _, _, _, _, .breakLoop, _ | _, _, _, _, .continueLoop, _ => trivial
  | _, _, _, _, .ret h, ho => by
    cases h with
    | none => trivial
    | some h =>
      refine ⟨fun id hid hslot => ?_, trivial⟩
      rcases List.mem_append.mp hid with hid | hid
      · exact h.sees ho id hid hslot
      · exact absurd (List.mem_singleton.mp hid) hslot
  | _, _, _, _, .select h harms, ho => ⟨h.sees ho, harms.obeys (h.sees ho) ho⟩
  | _, _, _, _, .block h, ho => h.obeys ho

theorem Stmt.ResolvesAll.obeys : ∀ {fs : Frames} {xs : List Surface.Stmt} {ss : List Ownership.Stmt}
    {o : List BindingId}, Stmt.ResolvesAll fs xs ss → fs.ids ⊆ o → Ownership.Stmt.ObeysAll .visible ret ss o
  | _, _, _, _, .nil, _ => trivial
  | _, _, _, _, .cons h hrest, ho => by
    refine ⟨h.obeys ho, hrest.obeys ?_⟩
    rw [Frames.ids_declare]
    exact List.append_subset.mpr
      ⟨List.subset_append_left _ _, fun id hid => List.mem_append_right _ (ho hid)⟩

theorem Block.Resolves.obeys : ∀ {fs : Frames} {b : Surface.Block} {b' : Ownership.Block}
    {o : List BindingId}, b.Resolves fs b' → fs.ids ⊆ o → b'.Obeys .visible ret o
  | _, _, _, _, .mk h, ho => h.obeys ho

theorem Branch.Resolves.obeys : ∀ {fs : Frames} {b : Branch} {s : Ownership.Stmt} {o : List BindingId},
    b.Resolves fs s → fs.ids ⊆ o → s.Obeys .visible ret o
  | _, _, _, _, .mk hc hy hn, ho => ⟨hc.sees ho, hy.obeys ho, hn.obeys ho⟩

theorem Alternative.Resolves.obeys : ∀ {fs : Frames} {a : Alternative} {b : Option Ownership.Block}
    {o : List BindingId}, a.Resolves fs b → fs.ids ⊆ o → Ownership.Block.ObeysOptional .visible ret b o
  | _, _, _, _, .nothing, _ => trivial
  | _, _, _, _, .block h, ho => h.obeys ho
  | _, _, _, _, .branch h, ho => ⟨h.obeys ho, trivial⟩

theorem Arm.ResolvesAll.obeys {e : Ownership.Expr} : ∀ {fs : Frames} {as : List Surface.Arm}
    {as' : List Ownership.Arm} {o : List BindingId}, Arm.ResolvesAll fs as as' → e.Sees o → fs.ids ⊆ o →
    Ownership.Arm.ObeysAll .visible ret e as' o
  | _, _, _, _, .nil, _, _ => trivial
  | fs, _, .mk variant _ bindings _ :: _, _, .cons _ h hrest, he, ho => by
    refine ⟨visible_declarations he variant bindings, h.obeys ?_, hrest.obeys he ho⟩
    have hids : Frames.ids (Frames.frame (bindings.map fun b => (b.id, b.name)) :: fs) =
        (bindings.map (·.id)).reverse ++ fs.ids := by
      simp [Frames.ids, Frames.frame, Function.comp_def]
    rw [hids]
    exact List.append_subset.mpr
      ⟨List.subset_append_left _ _, fun id hid => List.mem_append_right _ (ho hid)⟩

end

/-- In a resolved function, what is used is open. -/
theorem Resolved.obeys {written : Header × Block} {f : Ownership.Function} (h : Resolved written f) (ret : String) :
    Ownership.Stmt.ObeysAll .visible ret f.body.statements (f.params.map Param.id).reverse := by
  have hbody := h.body
  have hids : Frames.ids [Frames.frame (f.params.map fun p => (p.id, p.name))] =
      (f.params.map Param.id).reverse := by
    simp [Frames.ids, Frames.frame, Function.comp_def]
  revert hbody
  cases f.body with
  | mk statements loc =>
    intro hbody
    exact hbody.obeys (hids ▸ List.Subset.refl _)

end Surface

namespace Stmt

/-- The bindings that are alive after a statement: a declaration brings its binding to life, and the
end of its storage ends that. -/
def aliveAfter : Stmt → Set BindingId → Set BindingId
  | .declare _ id _ _, alive => insert id alive
  | .storageDead id _ _, alive => alive \ {id}
  | _, alive => alive

/-- What is alive is what is open, as long as scopes nest. -/
theorem mem_openAfter {s : Stmt} {o : List BindingId} (hs : s.Nests o) (ho : o.Nodup) :
    (s.openAfter o).Nodup ∧ {id | id ∈ s.openAfter o} = s.aliveAfter {id | id ∈ o} := by
  cases s with
  | declare name id value loc => exact ⟨List.nodup_cons.mpr ⟨hs, ho⟩, by ext; simp [openAfter, aliveAfter]⟩
  | storageDead id name loc =>
    refine ⟨ho.erase id, ?_⟩
    ext x
    simp [openAfter, aliveAfter, ho.mem_erase_iff, and_comm]
  | _ => exact ⟨ho, rfl⟩

end Stmt

namespace Function

variable {f : Function} {g : Graph}

/-- Some path from the entry reaches the point with these bindings alive: parameters whose storage has
not ended on it, and bindings that have been declared on it and whose storage has not ended since. -/
def AliveAt (f : Function) (g : Graph) : Point → Set BindingId → Prop :=
  g.Reaches (· = {id | id ∈ f.params.map Param.id}) fun p _ alive alive' =>
    alive' = (g.statementAt p).elim alive fun s => s.aliveAfter alive

/-- The bindings that are alive are the open ones. -/
theorem AliveAt.openAt (h : f.graph = .ok g) (hf : f.binds.Nodup) {p : Point} {alive : Set BindingId}
    (hp : f.AliveAt g p alive) : ∃ o, f.OpenAt g p o ∧ o.Nodup ∧ alive = {id | id ∈ o} := by
  obtain ⟨st, hnested, hentry, -⟩ := graph_nested h hf
  induction hp with
  | entry hstart =>
    refine ⟨_, .entry rfl, ?_, ?_⟩
    · exact (List.reverse_perm _).nodup_iff.mpr (List.nodup_append.mp hf).1
    · rw [hstart]
      simp
  | @next p q alive alive' _ hfollows hstep ih =>
    obtain ⟨o, hopen, ho, rfl⟩ := ih
    refine ⟨g.openNext p o, hopen.next hfollows rfl, ?_⟩
    rw [hstep, Graph.openNext]
    cases hs : g.statementAt p with
    | none => exact ⟨ho, rfl⟩
    | some s =>
      have hnests : s.Nests o := by
        rw [hopen.eq_openBefore hnested hentry]
        exact hnested.stmt hs
      obtain ⟨hnodup, heq⟩ := Stmt.mem_openAfter hnests ho
      exact ⟨hnodup, heq.symm⟩

/-- What a point uses is open there, if it is open wherever statements and tests use it. -/
theorem uses_open {st : Nat → List BindingId} (hg : g.Nested .visible st) {p : Point}
    (hp : p.index ≤ g.last p.block) {id : BindingId} (hid : id ∈ g.usesAt p) (hslot : id ≠ returnSlot) :
    id ∈ g.openBefore st p := by
  unfold Graph.usesAt at hid
  split at hid
  · rename_i s hs
    exact hg.stmt hs id hid hslot
  · rename_i hs
    have hend : p.index = g.last p.block := Nat.le_antisymm hp (List.getElem?_eq_none_iff.mp hs)
    cases ht : (g.block p.block).terminator with
    | none => simp [ht] at hid
    | some t =>
      have hbefore : g.openBefore st p = Stmt.openAfterAll (g.block p.block).statements (st p.block) := by
        rw [Graph.openBefore, List.take_of_length_le (Nat.le_of_eq hend.symm)]
      rw [hbefore]
      simp only [ht, Option.elim_some, Terminator.uses, List.mem_append] at hid
      rcases hid with hid | hid
      · cases hcond : t.cond with
        | none => simp [hcond] at hid
        | some e => exact hg.tests _ t ht e (.inl hcond) id (by simpa [hcond] using hid) hslot
      · cases hscrutinee : t.scrutinee with
        | none => simp [hscrutinee] at hid
        | some e => exact hg.tests _ t ht e (.inr hscrutinee) id (by simpa [hscrutinee] using hid) hslot

end Function

/-- A program that is read is the written one, with every variable bound to the innermost declaration
in sight, and no function makes a binding twice. On every path through the graph of a function, all
that a point uses, and all that it reads, moves, writes, borrows or matches, is alive there, the
return slot apart. -/
theorem uses_within_scope {text : String} {file : Option String} {program : Program}
    (hread : readProgram text file = .ok program) :
    (∃ items, readItems text file = .ok items ∧
      List.Forall₂ Surface.Resolved (Surface.bodies items) program.functions) ∧
    ∀ cx : Context, cx.function ∈ program.functions ∨ cx.function ∈ program.prepare.functions →
      cx.function.binds.Nodup ∧ ∀ g, cx.function.graph = .ok g → ∀ p alive, cx.function.AliveAt g p alive →
        (∀ id ∈ g.usesAt p, id ≠ returnSlot → id ∈ alive) ∧
        ∀ fx, cx.effects g = .ok fx → ∀ a ∈ fx.accesses p, a.isScoping = false →
          a.place.root ≠ returnSlot → a.place.root ∈ alive := by
  obtain ⟨items, hitems, hresolved, hall⟩ := readProgram_resolves hread
  refine ⟨⟨items, hitems, hresolved⟩, fun cx hcx => ?_⟩
  have hbinds : cx.function.binds.Nodup ∧ ∃ written, Surface.Resolved written cx.function := by
    rcases hcx with hf | hf
    · exact hall _ hf
    · obtain ⟨f, hf, heq⟩ := List.mem_map.mp hf
      obtain ⟨hnodup, written, hw⟩ := hall f hf
      rw [← heq]
      exact ⟨hnodup, written, ⟨hw.name, hw.params, hw.body⟩⟩
  obtain ⟨hbinds, written, hw⟩ := hbinds
  refine ⟨hbinds, fun g hg p alive hp => ?_⟩
  obtain ⟨o, hopen, -, rfl⟩ := hp.openAt hg hbinds
  obtain ⟨st, hvisible, hentry, -⟩ := Function.graph_obeys hg (hw.obeys _)
  have hmem : p ∈ g.allPoints :=
    (hopen.invariant (Graph.pruned_of_graph hg) (fun _ _ => True) (fun _ _ => trivial)
      (fun _ _ _ _ _ _ _ _ => trivial)).1
  have huses : ∀ id ∈ g.usesAt p, id ≠ returnSlot → id ∈ o := by
    intro id hid hslot
    rw [hopen.eq_openBefore hvisible hentry]
    exact Function.uses_open hvisible (Graph.mem_allPoints.mp hmem).2 hid hslot
  refine ⟨huses, fun fx hfx a ha hscoping hslot => ?_⟩
  exact huses _ ((Context.accesses_placed hfx hmem a ha).occurs hscoping) hslot

/-- A parameter, a local and a local of a loop, all of one name. -/
def shadowing : String :=
  "fn f(x: Int) -> Int \x7b let x: Int = x + 1; loop \x7b let x: Int = x; if x > 0 \x7b break; \x7d\x7d return x; \x7d"

/-- The test in the loop is of the innermost of the three, which is alive whenever control gets there. -/
theorem uses_within_scope_shadowing : ∃ program f g, readProgram shadowing none = .ok program ∧
    f ∈ program.functions ∧ f.binds = [1, 2, 3] ∧ f.graph = .ok g ∧ g.usesAt ⟨3, 1⟩ = [3] ∧
    (∃ alive, f.AliveAt g ⟨3, 1⟩ alive) ∧ ∀ alive, f.AliveAt g ⟨3, 1⟩ alive → 3 ∈ alive := by
  have hcheck : ((readProgram shadowing none).toOption.any fun program => program.functions.any fun f =>
      f.graph.toOption.any fun g => f.binds = [1, 2, 3] && g.usesAt ⟨3, 1⟩ = [3] &&
        g.allPoints.contains ⟨3, 1⟩) = true := by decide +kernel
  simp only [Option.any_eq_true, List.any_eq_true, Bool.and_eq_true, decide_eq_true_eq,
    List.contains_iff_mem] at hcheck
  obtain ⟨program, hp, f, hf, g, hg, ⟨hbinds, huses⟩, hpoint⟩ := hcheck
  have hread := eq_ok_of_toOption hp
  have hgraph := eq_ok_of_toOption hg
  refine ⟨program, f, g, hread, hf, hbinds, hgraph, huses, ?_, fun alive halive => ?_⟩
  · refine Graph.exists_reaches ?_ ?_ hpoint
    · exact ⟨_, rfl⟩
    · exact fun _ _ _ => ⟨_, rfl⟩
  · have hall := (uses_within_scope hread).2 ⟨f, {}, default⟩ (.inl hf)
    exact (hall.2 g hgraph _ alive halive).1 3 (by rw [huses]; exact List.mem_singleton_self 3) (by decide)

end Ownership
