import Mathlib.Data.List.Lex
import Mathlib.Data.Set.Piecewise
import Mathlib.Order.Interval.Finset.Nat
import Ownership.Proofs.Graph.Layout
import Ownership.Proofs.Graph.Paths

/-!
Loops in a graph. While a graph is drafted, every block gets a position in the
order of the program and the list of the loops it lies in. Control goes ahead in
that order but for the recorded back edges, which lead to the header of a loop
around them, and it enters a loop only by its header. What is set aside for
later is filled later, so in the end every block has been given an end.
-/
namespace Ownership

open Outcome

/-- What is charted of a block: where it lies, the headers of the loops it lies in, innermost first,
and the only block that may lead to it, if there is to be only one. A header lies in its own loop. -/
structure Plot where
  position : List Nat
  loops : List Nat := []
  sole : Option Nat := none

namespace Plot

/-- A block may lead to another: ahead or by a back edge, out of loops or in by a header. -/
structure Leads (m : Nat → Plot) (back : List (Nat × Nat)) (b t : Nat) : Prop where
  ahead : (b, t) ∈ back ∨ (m b).position < (m t).position
  nested : (m t).loops <:+ (m b).loops ∨ (m t).loops = t :: (m b).loops
  sole : ∀ a, (m t).sole = some a → b = a

theorem Leads.mono {m : Nat → Plot} {back more : List (Nat × Nat)} {b t : Nat} (h : Leads m back b t)
    (hback : back ⊆ more) : Leads m more b t :=
  ⟨h.ahead.imp_left fun he => hback he, h.nested, h.sole⟩

/-- Nothing inside the first position comes after the second. -/
def Clear (here ahead : List Nat) : Prop := ∀ inner, here ++ inner < ahead

theorem Clear.inside {here more ahead : List Nat} (h : Clear here ahead) (hmore : here <+: more) :
    Clear more ahead := by
  obtain ⟨rest, rfl⟩ := hmore
  intro inner
  rw [List.append_assoc]
  exact h (rest ++ inner)

theorem clear_next (here : List Nat) : Clear (here ++ [0]) (here ++ [1]) := by
  intro inner
  rw [List.append_assoc]
  exact List.append_left_lt (List.cons_lt_cons_iff.mpr (.inl Nat.zero_lt_one))

theorem lt_append (here : List Nat) (i : Nat) : here < here ++ [i] := by
  have h : here ++ [] < here ++ [i] := List.append_left_lt (List.nil_lt_cons i [])
  rwa [List.append_nil] at h

end Plot

open Plot

/-- The headers of the loops around a statement, innermost first. -/
def Surroundings.headers (c : Surroundings) : List Nat := c.loops.map LoopFrame.header

namespace Draft

variable {d e : Draft} {m m' : Nat → Plot} {b n t : Nat} {here : List Nat} {loops aside : List Nat}
  {c : Surroundings}

theorem loopHeader_emit (d : Draft) (s : Stmt) (b : Nat) :
    ((d.emit s).block b).loopHeader = (d.block b).loopHeader :=
  block_modify BasicBlock.loopHeader d b fun _ => rfl

theorem terminator_emit (d : Draft) (s : Stmt) (b : Nat) :
    ((d.emit s).block b).terminator = (d.block b).terminator :=
  block_modify BasicBlock.terminator d b fun _ => rfl

theorem loopHeader_terminate (d : Draft) (t : Terminator) (b : Nat) :
    ((d.terminate t).block b).loopHeader = (d.block b).loopHeader :=
  block_modify BasicBlock.loopHeader d b fun _ => rfl

theorem statements_terminate (d : Draft) (t : Terminator) (b : Nat) :
    ((d.terminate t).block b).statements = (d.block b).statements :=
  block_modify BasicBlock.statements d b fun _ => rfl

theorem successors_emit (d : Draft) (s : Stmt) (b : Nat) :
    ((d.emit s).block b).successors = (d.block b).successors :=
  block_modify BasicBlock.successors d b fun _ => rfl

theorem successors_addBlock (d : Draft) (header : Bool) (b : Nat) :
    ((d.addBlock header).block b).successors = (d.block b).successors := by
  rcases Nat.lt_trichotomy b d.next with hlt | rfl | hgt
  · rw [block_addBlock hlt]
  · rw [block_of_next_le (Nat.le_refl d.next)]
    simp [block, Draft.addBlock, next, BasicBlock.successors]
  · rw [block_of_next_le (Nat.le_of_lt hgt), block_of_next_le (by rw [next_addBlock]; exact hgt)]

theorem block_addBlock_self (d : Draft) (header : Bool) :
    (d.addBlock header).block d.next = { id := d.next, loopHeader := header } := by
  simp [block, addBlock, next]

theorem lt_next_of_successor (h : t ∈ (d.block b).successors) : b < d.next := by
  by_contra hge
  rw [block_of_next_le (Nat.not_lt.mp hge)] at h
  cases h

theorem lt_next_of_loopHeader (h : (d.block b).loopHeader = true) : b < d.next := by
  by_contra hge
  rw [block_of_next_le (Nat.not_lt.mp hge)] at h
  cases h

/-- The header of a loop does nothing but lead into the body, which is kept for it. -/
structure Heads (d : Draft) (m : Nat → Plot) (h : Nat) : Prop where
  body : h + 1 < d.next
  empty : (d.block h).statements = []
  kept : (m (h + 1)).sole = some h
  leads : ∀ t ∈ (d.block h).terminator, t.edges.map Edge.target = [h + 1]

/-- The draft is as it is charted. -/
structure Charted (d : Draft) (m : Nat → Plot) : Prop where
  placed : ∀ b < d.next, (m b).position ≠ []
  inside : ∀ b, ∀ t ∈ (d.block b).successors, t < d.next
  leads : ∀ b, ∀ t ∈ (d.block b).successors, Leads m d.backEdges b t
  distinct : ∀ b, (d.block b).successors.Nodup
  back : ∀ e ∈ d.backEdges, e.2 ∈ (d.block e.1).successors ∧ e.2 ∈ (m e.1).loops
  headed : ∀ b < d.next, ∀ h ∈ (m b).loops, (d.block h).loopHeader = true
  heads : ∀ h, (d.block h).loopHeader = true → d.Heads m h
  ends : ∀ b, ∀ t ∈ (d.block b).terminator, b = 1 ∨ t.kind ≠ .ret ∧ t.edges ≠ []

/-- All blocks have ended but for some of the listed ones. -/
def EndedBut (d : Draft) (bs : List Nat) : Prop := ∀ b < d.next, (d.block b).terminator = none → b ∈ bs

/-- Drafting is at work in an open block inside the position and the loops, and the listed blocks
are set aside. -/
structure Works (d : Draft) (m : Nat → Plot) (here loops aside : List Nat) : Prop where
  isOpen : d.Open
  charted : d.Charted m
  position : here <+: (m d.current).position
  nesting : (m d.current).loops = loops
  plain : (d.block d.current).loopHeader = false
  rest : d.EndedBut (d.current :: aside)

/-- A jump from inside the position and the loops may go to the block. -/
structure Takes (d : Draft) (m : Nat → Plot) (here loops : List Nat) (t : Nat) : Prop where
  inside : t < d.next
  sole : (m t).sole = none
  nested : (m t).loops <:+ loops
  ahead : t ∈ loops ∨ Clear here (m t).position

/-- The block is set aside for work inside the position and the loops. -/
structure Vacant (d : Draft) (m : Nat → Plot) (here loops : List Nat) (b : Nat) : Prop where
  reserved : d.Reserved b
  position : here <+: (m b).position
  nesting : (m b).loops = loops
  plain : (d.block b).loopHeader = false

theorem Charted.keep (h : d.Charted m) (ha : Set.EqOn m' m (Set.Iio d.next)) : d.Charted m' := by
  refine ⟨fun b hb => ?_, h.inside, fun b t ht => ?_, h.distinct, fun e he => ?_, fun b hb => ?_, fun b hb => ?_,
    h.ends⟩
  · rw [ha hb]
    exact h.placed b hb
  · obtain ⟨hahead, hnested, hsole⟩ := h.leads b t ht
    have hb := ha (lt_next_of_successor ht)
    have ht := ha (h.inside b t ht)
    exact ⟨by rwa [hb, ht], by rwa [hb, ht], by rwa [ht]⟩
  · obtain ⟨hedge, hloop⟩ := h.back e he
    rw [ha (lt_next_of_successor hedge)]
    exact ⟨hedge, hloop⟩
  · rw [ha hb]
    exact h.headed b hb
  · obtain ⟨hbody, hempty, hkept, hleads⟩ := h.heads b hb
    exact ⟨hbody, hempty, by rwa [ha hbody], hleads⟩

theorem Charted.moveTo (h : d.Charted m) (b : Nat) : (d.moveTo b).Charted m :=
  ⟨h.placed, h.inside, h.leads, h.distinct, h.back, h.headed,
    fun a ha => ⟨(h.heads a ha).body, (h.heads a ha).empty, (h.heads a ha).kept, (h.heads a ha).leads⟩, h.ends⟩

theorem EndedBut.mono {bs cs : List Nat} (h : d.EndedBut bs) (hsub : bs ⊆ cs) : d.EndedBut cs :=
  fun b hb hnone => hsub (h b hb hnone)

theorem Takes.grow {more loops' : List Nat} (h : d.Takes m here loops t) (hn : d.next ≤ e.next)
    (ha : Set.EqOn m' m (Set.Iio d.next)) (hmore : here <+: more) (hloops : loops <:+ loops') :
    e.Takes m' more loops' t := by
  have ht := ha h.inside
  refine ⟨Nat.lt_of_lt_of_le h.inside hn, by rw [ht, h.sole], by rw [ht]; exact h.nested.trans hloops, ?_⟩
  rw [ht]
  exact h.ahead.imp (fun hl => hloops.subset hl) fun hclear => hclear.inside hmore

namespace Vacant

theorem grow (h : d.Vacant m here loops b) (hg : Grows n d e) (hb : b < n)
    (ha : Set.EqOn m' m (Set.Iio d.next)) : e.Vacant m' here loops b := by
  have hm := ha h.reserved.inside
  refine ⟨hg.reserved hb h.reserved, by rw [hm]; exact h.position, by rw [hm]; exact h.nesting, ?_⟩
  rw [hg.kept b hb h.reserved.aside]
  exact h.plain

theorem jump (h : d.Vacant m here loops b) (c : Surroundings) (t : Nat) (label : String) :
    (d.jump c t label).Vacant m here loops b :=
  h.grow (Grows.jump (b + 1) d c t label) (Nat.lt_succ_self b) (Set.eqOn_refl _ _)

theorem moveTo {a : Nat} (h : d.Vacant m here loops b) (hne : b ≠ a) : (d.moveTo a).Vacant m here loops b :=
  ⟨h.reserved.moveTo hne, h.position, h.nesting, h.plain⟩

theorem works (h : d.Vacant m here loops b) (hd : d.Charted m) (hrest : d.EndedBut (b :: aside)) :
    (d.moveTo b).Works m here loops aside :=
  ⟨h.reserved.open_moveTo, hd.moveTo b, h.position, h.nesting, h.plain, hrest⟩

end Vacant

theorem Charted.emit (h : d.Charted m) (hplain : (d.block d.current).loopHeader = false) (s : Stmt) :
    (d.emit s).Charted m := by
  have hsucc := successors_emit d s
  refine ⟨?_, fun b t ht => ?_, fun b t ht => ?_, fun b => ?_, fun e he => ?_, fun b hb => ?_, fun k hk => ?_,
    fun b t ht => ?_⟩
  · rw [next_emit]
    exact h.placed
  · rw [next_emit]
    exact h.inside b t (hsucc b ▸ ht)
  · exact h.leads b t (hsucc b ▸ ht)
  · rw [hsucc]
    exact h.distinct b
  · rw [hsucc]
    exact h.back e he
  · intro k hk
    rw [loopHeader_emit]
    exact h.headed b (next_emit d s ▸ hb) k hk
  · rw [loopHeader_emit] at hk
    have hother : k ≠ d.current := by
      rintro rfl
      rw [hplain] at hk
      cases hk
    obtain ⟨hbody, hempty, hkept, hleads⟩ := h.heads k hk
    exact ⟨by rwa [next_emit], by rwa [block_emit_other hother], hkept, by rwa [block_emit_other hother]⟩
  · rw [terminator_emit] at ht
    exact h.ends b t ht

theorem Works.emit (h : d.Works m here loops aside) (s : Stmt) : (d.emit s).Works m here loops aside := by
  refine ⟨(Lays.emit h.isOpen s).opened, h.charted.emit h.plain s, h.position, h.nesting, ?_, ?_⟩
  · rw [current_emit, loopHeader_emit]
    exact h.plain
  · intro b hb hnone
    rw [terminator_emit] at hnone
    exact h.rest b (next_emit d s ▸ hb) hnone

theorem Works.emitAll {α : Type} (h : d.Works m here loops aside) (stmt : α → Stmt) (xs : List α) :
    (xs.foldl (fun d x => d.emit (stmt x)) d).Works m here loops aside := by
  induction xs generalizing d with
  | nil => exact h
  | cons x xs ih => exact ih (h.emit (stmt x))

theorem Works.endStorage (h : d.Works m here loops aside) (bs : List (BindingId × String)) (loc : Span) :
    (d.endStorage bs loc).Works m here loops aside :=
  h.emitAll (fun b : BindingId × String => .storageDead b.1 b.2 loc) bs.reverse

theorem Charted.addBlocks (h : d.Charted m) (k : Nat)
    (hnew : ∀ b, d.next ≤ b → b < d.next + k → (m b).position ≠ [] ∧
      ∀ a ∈ (m b).loops, (d.block a).loopHeader = true) :
    (d.addBlocks k).Charted m := by
  have hblock := d.block_addBlocks k
  refine ⟨fun b hb => ?_, fun b t ht => ?_, fun b t ht => ?_, fun b => ?_, fun e he => ?_, fun b hb a ha => ?_,
    fun a ha => ?_, fun b t ht => ?_⟩
  · rw [next_addBlocks] at hb
    by_cases hold : b < d.next
    · exact h.placed b hold
    · exact (hnew b (Nat.not_lt.mp hold) hb).1
  · rw [hblock] at ht
    rw [next_addBlocks]
    exact Nat.lt_of_lt_of_le (h.inside b t ht) (Nat.le_add_right _ _)
  · rw [hblock] at ht
    exact h.leads b t ht
  · rw [hblock]
    exact h.distinct b
  · rw [hblock]
    exact h.back e he
  · rw [next_addBlocks] at hb
    rw [hblock]
    by_cases hold : b < d.next
    · exact h.headed b hold a ha
    · exact (hnew b (Nat.not_lt.mp hold) hb).2 a ha
  · rw [hblock] at ha
    obtain ⟨hbody, hempty, hkept, hleads⟩ := h.heads a ha
    exact ⟨by rw [next_addBlocks]; omega, by rwa [hblock], hkept, by rwa [hblock]⟩
  · rw [hblock] at ht
    exact h.ends b t ht

/-- A block ends by leading where it may; the back edges that are added leave it for a loop around it. -/
theorem Charted.ended {t : Terminator} (h : d.Charted m) (hd : d.Open) (he : e.blocks = (d.terminate t).blocks)
    (hback : d.backEdges ⊆ e.backEdges)
    (hadded : ∀ x ∈ e.backEdges, x ∈ d.backEdges ∨
      x.1 = d.current ∧ x.2 ∈ t.edges.map Edge.target ∧ x.2 ∈ (m d.current).loops)
    (hinside : ∀ x ∈ t.edges.map Edge.target, x < d.next)
    (hleads : ∀ x ∈ t.edges.map Edge.target, Leads m e.backEdges d.current x)
    (hdistinct : (t.edges.map Edge.target).Nodup)
    (hheader : (d.block d.current).loopHeader = true → t.edges.map Edge.target = [d.current + 1])
    (hkind : t.kind ≠ .ret ∧ t.edges ≠ []) : e.Charted m := by
  have hblock : ∀ b, e.block b = (d.terminate t).block b := fun b => by rw [block, he]; rfl
  have hnext : e.next = d.next := by rw [next, he]; exact next_terminate d t
  have hcurrent : (e.block d.current).successors = t.edges.map Edge.target := by
    rw [hblock, block_terminate hd.inside]
    rfl
  have hother : ∀ b, b ≠ d.current → e.block b = d.block b := fun b hb => by rw [hblock, block_terminate_other hb]
  have hflag : ∀ b, (e.block b).loopHeader = (d.block b).loopHeader := fun b => by rw [hblock, loopHeader_terminate]
  refine ⟨by rw [hnext]; exact h.placed, fun b x hx => ?_, fun b x hx => ?_, fun b => ?_, fun x hx => ?_,
    fun b hb a ha => ?_, fun a ha => ?_, fun b x hx => ?_⟩
  · rw [hnext]
    by_cases hb : b = d.current
    · rw [hb, hcurrent] at hx
      exact hinside x hx
    · rw [hother b hb] at hx
      exact h.inside b x hx
  · by_cases hb : b = d.current
    · rw [hb, hcurrent] at hx
      exact hb ▸ hleads x hx
    · rw [hother b hb] at hx
      exact (h.leads b x hx).mono hback
  · by_cases hb : b = d.current
    · rw [hb, hcurrent]
      exact hdistinct
    · rw [hother b hb]
      exact h.distinct b
  · rcases hadded x hx with hold | ⟨hfrom, hto, hloop⟩
    · obtain ⟨hedge, hloop⟩ := h.back x hold
      have haside : x.1 ≠ d.current := by
        intro hsame
        rw [hsame, BasicBlock.successors, hd.ongoing] at hedge
        cases hedge
      rw [hother x.1 haside]
      exact ⟨hedge, hloop⟩
    · rw [hfrom, hcurrent]
      exact ⟨hto, hloop⟩
  · rw [hflag]
    exact h.headed b (hnext ▸ hb) a ha
  · rw [hflag] at ha
    obtain ⟨hbody, hempty, hkept, hto⟩ := h.heads a ha
    refine ⟨by rwa [hnext], by rwa [hblock, statements_terminate], hkept, fun x hx => ?_⟩
    by_cases hcur : a = d.current
    · rw [hcur, hblock, block_terminate hd.inside] at hx
      obtain rfl := Option.some.inj hx
      rw [hcur]
      exact hheader (hcur ▸ ha)
    · rw [hother a hcur] at hx
      exact hto x hx
  · by_cases hb : b = d.current
    · rw [hb, hblock, block_terminate hd.inside] at hx
      obtain rfl := Option.some.inj hx
      exact .inr hkind
    · rw [hother b hb] at hx
      exact h.ends b x hx

theorem EndedBut.ended {t : Terminator} (h : d.EndedBut (d.current :: aside)) (hd : d.Open)
    (he : e.blocks = (d.terminate t).blocks) : e.EndedBut aside := by
  intro b hb hnone
  have hblock : e.block b = (d.terminate t).block b := by rw [block, he]; rfl
  have hnext : e.next = d.next := by rw [next, he]; exact next_terminate d t
  rw [hblock] at hnone
  have hother : b ≠ d.current := by
    rintro rfl
    rw [block_terminate hd.inside] at hnone
    cases hnone
  rw [block_terminate_other hother] at hnone
  exact (List.mem_cons.mp (h b (hnext ▸ hb) hnone)).resolve_left hother

/-- What a jump records of itself. -/
theorem backEdges_jump (d : Draft) (c : Surroundings) (t : Nat) (label : String) :
    d.backEdges ⊆ (d.jump c t label).backEdges ∧
      (t ∈ c.headers → (d.current, t) ∈ (d.jump c t label).backEdges) ∧
      ∀ x ∈ (d.jump c t label).backEdges,
        x ∈ d.backEdges ∨ x = (d.current, t) ∧ t ∈ c.headers := by
  have hany : c.loops.any (fun l => l.header = t) = true ↔ t ∈ c.headers := by
    simp [Surroundings.headers, List.any_eq_true, List.mem_map]
  unfold jump jumpBy
  simp only [Bool.and_eq_true, Bool.not_eq_true', hany]
  split
  · rename_i hnew
    refine ⟨List.subset_append_left _ _, fun _ => by simp [current_terminate], fun x hx => ?_⟩
    rcases List.mem_append.mp hx with hold | hlast
    · exact .inl hold
    · exact .inr ⟨List.mem_singleton.mp hlast, hnew.1⟩
  · rename_i hold
    refine ⟨fun x hx => hx, fun hin => ?_, fun x hx => .inl hx⟩
    have hthere : (d.terminate { kind := .jump, edges := [⟨t, label⟩] }).backEdges.contains (d.current, t) = true := by
      by_contra hmissing
      exact hold ⟨hin, Bool.not_eq_true _ ▸ hmissing⟩
    simpa using hthere

/-- A jump is recorded when it leads back to a loop around it, and else has to lead ahead. -/
theorem Charted.jump (h : d.Charted m) (hd : d.Open) {c : Surroundings} (label : String)
    (hloops : (m d.current).loops = c.headers) (hinside : t < d.next)
    (hahead : t ∈ (m d.current).loops ∨ (m d.current).position < (m t).position)
    (hnested : (m t).loops <:+ (m d.current).loops ∨ (m t).loops = t :: (m d.current).loops)
    (hsole : ∀ a, (m t).sole = some a → d.current = a)
    (hheader : (d.block d.current).loopHeader = true → t = d.current + 1) : (d.jump c t label).Charted m := by
  obtain ⟨hkept, hrecorded, hadded⟩ := backEdges_jump d c t label
  refine h.ended hd (blocks_jump d c t label) hkept (fun x hx => ?_) (by simpa using hinside) ?_ (by simp)
    (fun hflag => by simp [hheader hflag]) (by simp)
  · refine (hadded x hx).imp_right fun hnew => ?_
    obtain ⟨rfl, hloop⟩ := hnew
    exact ⟨rfl, by simp, by rwa [hloops]⟩
  · intro x hx
    obtain rfl : x = t := by simpa using hx
    exact ⟨hahead.imp_left fun hl => hrecorded (hloops ▸ hl), hnested, hsole⟩

theorem Works.jump (h : d.Works m here loops aside) {c : Surroundings} (hc : loops = c.headers)
    (label : String) (ht : d.Takes m here loops t) :
    (d.jump c t label).Charted m ∧ (d.jump c t label).EndedBut aside := by
  obtain ⟨inner, hinner⟩ := h.position
  refine ⟨h.charted.jump h.isOpen label (h.nesting.trans hc) ht.inside ?_ ?_ ?_ ?_,
    h.rest.ended h.isOpen (blocks_jump d c t label)⟩
  · rw [h.nesting, ← hinner]
    exact ht.ahead.imp_right fun hclear => hclear inner
  · rw [h.nesting]
    exact .inl ht.nested
  · simp [ht.sole]
  · simp [h.plain]

theorem EndedBut.addBlocks {bs : List Nat} (h : d.EndedBut bs) (k : Nat) :
    (d.addBlocks k).EndedBut (List.range' d.next k ++ bs) := by
  intro b hb hnone
  rw [next_addBlocks] at hb
  rw [block_addBlocks] at hnone
  by_cases hold : b < d.next
  · exact List.mem_append_right _ (h b hold hnone)
  · exact List.mem_append_left _ (List.mem_range'_1.mpr ⟨Nat.not_lt.mp hold, hb⟩)

theorem vacant_addBlocks {k : Nat} (hd : d.current < d.next) (hge : d.next ≤ b) (hlt : b < d.next + k)
    (hposition : here <+: (m b).position) (hnesting : (m b).loops = loops) :
    (d.addBlocks k).Vacant m here loops b := by
  refine ⟨reserved_addBlocks hd hge hlt, hposition, hnesting, ?_⟩
  rw [block_addBlocks, block_of_next_le hge]

/-- Leaving inner scopes jumps, and drafting goes on in a block of its own. -/
theorem Works.leave (h : d.Works m here c.headers aside) (depth : Nat) (label : String) (loc : Span)
    (ht : d.Takes m here c.headers t) : ∃ m', Set.EqOn m' m (Set.Iio d.next) ∧
      (d.leave c depth t label loc).Works m' here c.headers aside := by
  have hclosed := h.endStorage (c.bindingsAbove depth) loc
  have hle := (Lays.endStorage h.isOpen (c.bindingsAbove depth) loc).grows.next
  rw [leave_eq]
  generalize d.endStorage (c.bindingsAbove depth) loc = e at hclosed hle
  obtain ⟨hjumped, hrest⟩ :=
    hclosed.jump rfl label (ht.grow hle (Set.eqOn_refl m _) List.prefix_rfl List.suffix_rfl)
  have hinside : (e.jump c t label).current < (e.jump c t label).next := by simpa using hclosed.isOpen.inside
  have hle' : d.next ≤ (e.jump c t label).next := by simpa using hle
  have hnest : ∀ a ∈ c.headers, ((e.jump c t label).block a).loopHeader = true := by
    intro a ha
    refine hjumped.headed e.current ?_ a (hclosed.nesting ▸ ha)
    rw [next_jump]
    exact hclosed.isOpen.inside
  generalize e.jump c t label = f at hjumped hrest hinside hle' hnest
  let m' := (Set.Iio f.next).piecewise m fun _ => ⟨(m e.current).position ++ [0], c.headers, none⟩
  have hkeeps : Set.EqOn m' m (Set.Iio f.next) := Set.piecewise_eqOn _ _ _
  have hnew : ∀ b, f.next ≤ b → m' b = ⟨(m e.current).position ++ [0], c.headers, none⟩ := fun b hb =>
    Set.piecewise_eq_of_notMem _ _ _ (by simpa using hb)
  refine ⟨m', hkeeps.mono (Set.Iio_subset_Iio hle'), ?_⟩
  have hvacant : (f.addBlocks 1).Vacant m' here c.headers f.next := by
    refine vacant_addBlocks hinside (Nat.le_refl _) (Nat.lt_succ_self _) ?_ ?_
    · rw [hnew _ (Nat.le_refl _)]
      exact hclosed.position.trans (List.prefix_append _ _)
    · rw [hnew _ (Nat.le_refl _)]
  refine hvacant.works ((hjumped.keep hkeeps).addBlocks 1 fun b hge _ => ?_) (hrest.addBlocks 1)
  rw [hnew b hge]
  exact ⟨by simp, hnest⟩

end Draft

open Draft

/-- The jumps out of a statement may go where they lead. -/
structure Surroundings.Lets (c : Surroundings) (d : Draft) (m : Nat → Plot) (here : List Nat) : Prop where
  exit : d.Takes m here c.headers c.exit
  header : ∀ l ∈ c.loops, d.Takes m here c.headers l.header
  loopExit : ∀ l ∈ c.loops, d.Takes m here c.headers l.exit

namespace Surroundings

variable {c : Surroundings} {d e : Draft} {m m' : Nat → Plot} {here more : List Nat}

theorem headers_declaring (c : Surroundings) (bs : List (BindingId × String)) :
    (c.declaring bs).headers = c.headers := by
  unfold declaring
  split <;> rfl

namespace Lets

theorem grow (h : c.Lets d m here) (hn : d.next ≤ e.next) (ha : Set.EqOn m' m (Set.Iio d.next))
    (hmore : here <+: more) : c.Lets e m' more :=
  ⟨h.exit.grow hn ha hmore List.suffix_rfl, fun l hl => (h.header l hl).grow hn ha hmore List.suffix_rfl,
    fun l hl => (h.loopExit l hl).grow hn ha hmore List.suffix_rfl⟩

theorem enterScope (h : c.Lets d m here) : c.enterScope.Lets d m here := ⟨h.exit, h.header, h.loopExit⟩

theorem declaring (h : c.Lets d m here) (bs : List (BindingId × String)) : (c.declaring bs).Lets d m here := by
  unfold Surroundings.declaring
  split
  · exact h
  · exact ⟨h.exit, h.header, h.loopExit⟩

theorem enterLoop (h : c.Lets d m here) {header exit : Nat}
    (hheader : d.Takes m here (header :: c.headers) header)
    (hexit : d.Takes m here (header :: c.headers) exit) : (c.enterLoop header exit).Lets d m here := by
  have houter : ∀ {t}, d.Takes m here c.headers t → d.Takes m here (header :: c.headers) t := fun ht =>
    ht.grow (Nat.le_refl _) (Set.eqOn_refl m _) List.prefix_rfl (List.suffix_cons _ _)
  refine ⟨houter h.exit, fun l hl => ?_, fun l hl => ?_⟩
  · rcases List.mem_cons.mp hl with rfl | hl
    · exact hheader
    · exact houter (h.header l hl)
  · rcases List.mem_cons.mp hl with rfl | hl
    · exact hexit
    · exact houter (h.loopExit l hl)

end Lets

end Surroundings

namespace Draft

variable {d e f : Draft} {m m' : Nat → Plot} {here way aside : List Nat} {c : Surroundings} {n join b : Nat}

/-- What is drafted here only adds to the draft, and ends inside the position. -/
def Proceeds (c : Surroundings) (d e : Draft) : Prop :=
  ∀ {m : Nat → Plot} {here aside : List Nat}, c.Lets d m here → d.Works m here c.headers aside →
    Grows d.next d e ∧ ∃ m', Set.EqOn m' m (Set.Iio d.next) ∧ e.Works m' here c.headers aside

/-- Ways that part and meet again: they lie inside a position of their own, and the block where they
meet is set aside and lies ahead of them. -/
structure Meets (c : Surroundings) (d : Draft) (m : Nat → Plot) (here way : List Nat) (join : Nat) : Prop where
  lets : c.Lets d m way
  ahead : d.Takes m way c.headers join
  meeting : d.Vacant m here c.headers join

namespace Meets

theorem grow (h : Meets c d m here way join) (hg : Grows n d e) (hn : join < n)
    (ha : Set.EqOn m' m (Set.Iio d.next)) : Meets c e m' here way join :=
  ⟨h.lets.grow hg.next ha List.prefix_rfl, h.ahead.grow hg.next ha List.prefix_rfl List.suffix_rfl,
    h.meeting.grow hg hn ha⟩

theorem jump (h : Meets c d m here way join) (t : Nat) (label : String) : Meets c (d.jump c t label) m here way join :=
  h.grow (Grows.jump (join + 1) d c t label) (Nat.lt_succ_self join) (Set.eqOn_refl m _)

theorem moveTo (h : Meets c d m here way join) (hb : join ≠ b) : Meets c (d.moveTo b) m here way join :=
  ⟨h.lets.grow (Nat.le_refl _) (Set.eqOn_refl m _) List.prefix_rfl,
    h.ahead.grow (Nat.le_refl _) (Set.eqOn_refl m _) List.prefix_rfl List.suffix_rfl, h.meeting.moveTo hb⟩

end Meets

section

variable (hd : d.Works m here c.headers aside) (hc : c.Lets d m here)

include hd hc

/-- A block ends by parting ways; all new blocks but the one where they meet are ways. -/
theorem Works.part (k join : Nat) (hge : d.next ≤ join) (hlt : join < d.next + k) (t : Terminator)
    (hkind : t.kind ≠ .ret ∧ t.edges ≠ [])
    (ht : ∀ x ∈ t.edges.map Edge.target, d.next ≤ x ∧ x < d.next + k ∧ x ≠ join)
    (hdistinct : (t.edges.map Edge.target).Nodup) : ∃ m' way,
      Set.EqOn m' m (Set.Iio d.next) ∧ ((d.addBlocks k).terminate t).Charted m' ∧
      ((d.addBlocks k).terminate t).EndedBut (List.range' d.next k ++ aside) ∧
      Meets c ((d.addBlocks k).terminate t) m' here way join ∧
      ∀ b, d.next ≤ b → b < d.next + k → b ≠ join → ((d.addBlocks k).terminate t).Vacant m' way c.headers b := by
  let plot (i : Nat) : Plot := ⟨(m d.current).position ++ [i], c.headers, none⟩
  let m' := (Set.Iio d.next).piecewise m fun b => if b = join then plot 1 else plot 0
  have hkeeps : Set.EqOn m' m (Set.Iio d.next) := Set.piecewise_eqOn _ _ _
  have hcurrent : m' d.current = m d.current := hkeeps hd.isOpen.inside
  have hnew : ∀ b, d.next ≤ b → m' b = if b = join then plot 1 else plot 0 := fun b hb =>
    Set.piecewise_eq_of_notMem _ _ _ (by simpa using hb)
  have hway : ∀ b, d.next ≤ b → b ≠ join → m' b = plot 0 := fun b hb hne => (hnew b hb).trans (if_neg hne)
  have hmeet : m' join = plot 1 := (hnew join hge).trans (if_pos rfl)
  have hplot : ∀ b, d.next ≤ b → ∃ i, m' b = plot i := fun b hb => by
    by_cases hb' : b = join
    · exact ⟨1, by rw [hb', hmeet]⟩
    · exact ⟨0, hway b hb hb'⟩
  have hinside : ∀ i, here <+: (plot i).position := fun i => hd.position.trans (List.prefix_append _ _)
  have hnest : ∀ a ∈ c.headers, (d.block a).loopHeader = true := fun a ha =>
    hd.charted.headed d.current hd.isOpen.inside a (hd.nesting ▸ ha)
  have hvacant : ∀ b here, d.next ≤ b → b < d.next + k → here <+: (m' b).position →
      ((d.addBlocks k).terminate t).Vacant m' here c.headers b := fun b here hb hk hpos => by
    obtain ⟨i, hi⟩ := hplot b hb
    have hadded : (d.addBlocks k).Vacant m' here c.headers b :=
      vacant_addBlocks hd.isOpen.inside hb hk hpos (by rw [hi])
    exact hadded.grow (Grows.terminate (b + 1) _ t) (Nat.lt_succ_self b) (Set.eqOn_refl _ _)
  refine ⟨m', (plot 0).position, hkeeps, ?_, ?_, ⟨hc.grow (by simp) hkeeps (hinside 0), ?_, ?_⟩, ?_⟩
  · have hopen := (Lays.addBlocks hd.isOpen k).opened
    have hadded : (d.addBlocks k).Charted m' := (hd.charted.keep hkeeps).addBlocks k fun b hb _ => by
      obtain ⟨i, hi⟩ := hplot b hb
      rw [hi]
      exact ⟨by simp [plot], hnest⟩
    refine hadded.ended hopen rfl (fun x hx => hx) (fun x hx => .inl hx) (fun x hx => ?_) (fun x hx => ?_) hdistinct ?_
      hkind
    · rw [next_addBlocks]
      exact (ht x hx).2.1
    · obtain ⟨hx, _, hne⟩ := ht x hx
      rw [current_addBlocks]
      refine ⟨.inr ?_, .inl ?_, ?_⟩
      · rw [hcurrent, hway x hx hne]
        exact lt_append _ 0
      · rw [hcurrent, hway x hx hne, hd.nesting]
      · simp [hway x hx hne, plot]
    · rw [current_addBlocks, block_addBlocks, hd.plain]
      simp
  · refine EndedBut.ended ((hd.rest.addBlocks k).mono ?_) (Lays.addBlocks hd.isOpen k).opened rfl
    rw [current_addBlocks]
    exact List.perm_middle.subset
  · refine ⟨by simpa using hlt, by rw [hmeet], by rw [hmeet], .inr ?_⟩
    rw [hmeet]
    exact clear_next _
  · exact hvacant join here hge hlt (by rw [hmeet]; exact hinside 1)
  · intro b hb hk hne
    exact hvacant b _ hb hk (by rw [hway b hb hne])

/-- Two ways that part in one block and meet in another. -/
theorem Works.fork {t : Terminator} (ht : t.edges = [⟨d.next, "then"⟩, ⟨d.next + 1, "else"⟩]) (hkind : t.kind ≠ .ret)
    (hyes : Proceeds c (d.forked t) e)
    (hno : Proceeds c ((e.jump c (d.next + 2) "join").moveTo (d.next + 1)) f) :
    ∃ m', Set.EqOn m' m (Set.Iio d.next) ∧
      ((f.jump c (d.next + 2) "join").moveTo (d.next + 2)).Works m' here c.headers aside := by
  obtain ⟨m₀, way, hkeeps, hcharted, hrest, hmeets, hways⟩ := hd.part hc 3 (d.next + 2) (by omega) (by omega) t
    ⟨hkind, by simp [ht]⟩ (by simp [ht]) (by simp [ht])
  have hnext : (d.forked t).next = d.next + 3 := by simp [Draft.forked]
  have hmeets₀ : Meets c (d.forked t) m₀ here way (d.next + 2) := hmeets.moveTo (by omega)
  have hstart : (d.forked t).Works m₀ way c.headers ((d.next + 1) :: (d.next + 2) :: aside) :=
    (hways d.next (by omega) (by omega) (by omega)).works hcharted hrest
  obtain ⟨hgrows, m₁, hkeeps₁, hfirst⟩ := hyes hmeets₀.lets hstart
  have hmeets₁ := hmeets₀.grow hgrows (by omega) hkeeps₁
  have hsecond : e.Vacant m₁ way c.headers (d.next + 1) :=
    ((hways _ (by omega) (by omega) (by omega)).moveTo (by omega)).grow hgrows (by omega) hkeeps₁
  have hle : d.next + 2 < ((e.jump c (d.next + 2) "join").moveTo (d.next + 1)).next := by
    simpa using hmeets₁.ahead.inside
  have hturned := (hmeets₁.jump (d.next + 2) "join").moveTo (show d.next + 2 ≠ d.next + 1 by omega)
  obtain ⟨hcharted₁, hrest₁⟩ := hfirst.jump rfl "join" hmeets₁.ahead
  obtain ⟨hgrows₂, m₂, hkeeps₂, hlast⟩ := hno hturned.lets
    ((hsecond.jump c (d.next + 2) "join").works hcharted₁ hrest₁)
  have hmeets₂ := hturned.grow hgrows₂ hle hkeeps₂
  obtain ⟨hcharted₂, hrest₂⟩ := hlast.jump rfl "join" hmeets₂.ahead
  refine ⟨m₂, ?_, (hmeets₂.meeting.jump c (d.next + 2) "join").works hcharted₂ hrest₂⟩
  have hgrown := hgrows.next
  have hkeeps₁ : Set.EqOn m₁ m (Set.Iio d.next) :=
    (hkeeps₁.mono (Set.Iio_subset_Iio (by omega))).trans hkeeps
  refine (hkeeps₂.mono (Set.Iio_subset_Iio ?_)).trans hkeeps₁
  simp only [next_moveTo, next_jump]
  omega

end

/-- A header, its body and its exit are new blocks. -/
theorem block_addLoop (d : Draft) (b : Nat) : ((d.addBlock true).addBlocks 2).block b =
    if b = d.next then { id := b, loopHeader := true } else d.block b := by
  rw [block_addBlocks]
  split
  · rename_i hb
    rw [hb, block_addBlock_self]
  · rename_i hb
    rcases Nat.lt_or_gt_of_ne hb with hlt | hgt
    · exact block_addBlock hlt true
    · rw [block_of_next_le (Nat.le_of_lt hgt), block_of_next_le (by rw [next_addBlock]; exact hgt)]

theorem Charted.addLoop (h : d.Charted m)
    (hplaced : ∀ b, d.next ≤ b → b < d.next + 3 → (m b).position ≠ [])
    (hheaded : ∀ b, d.next ≤ b → b < d.next + 3 → ∀ a ∈ (m b).loops, a = d.next ∨ (d.block a).loopHeader = true)
    (hkept : (m (d.next + 1)).sole = some d.next) : ((d.addBlock true).addBlocks 2).Charted m := by
  have hnext : ((d.addBlock true).addBlocks 2).next = d.next + 3 := by simp
  have hold : ∀ b < d.next, ((d.addBlock true).addBlocks 2).block b = d.block b := fun b hb => by
    rw [block_addLoop, if_neg (Nat.ne_of_lt hb)]
  have hflag : ∀ b, (d.block b).loopHeader = true → (((d.addBlock true).addBlocks 2).block b).loopHeader = true :=
    fun b hb => by rwa [hold b (lt_next_of_loopHeader hb)]
  have hhead : ((d.addBlock true).addBlocks 2).block d.next = { id := d.next, loopHeader := true } := by
    rw [block_addLoop, if_pos rfl]
  have hsucc : ∀ b, (((d.addBlock true).addBlocks 2).block b).successors = (d.block b).successors := fun b => by
    rw [block_addBlocks, successors_addBlock]
  refine ⟨fun b hb => ?_, fun b t ht => ?_, fun b t ht => ?_, fun b => ?_, fun e he => ?_, fun b hb a ha => ?_,
    fun a ha => ?_, fun b t ht => ?_⟩
  · rw [hnext] at hb
    by_cases hlt : b < d.next
    · exact h.placed b hlt
    · exact hplaced b (Nat.not_lt.mp hlt) hb
  · rw [hnext]
    have hin := h.inside b t (hsucc b ▸ ht)
    omega
  · exact h.leads b t (hsucc b ▸ ht)
  · rw [hsucc]
    exact h.distinct b
  · rw [hsucc]
    exact h.back e he
  · rw [hnext] at hb
    by_cases hlt : b < d.next
    · exact hflag a (h.headed b hlt a ha)
    · rcases hheaded b (Nat.not_lt.mp hlt) hb a ha with rfl | hset
      · rw [hhead]
      · exact hflag a hset
  · by_cases hnew : a = d.next
    · subst hnew
      exact ⟨by omega, by rw [hhead], hkept, by rw [hhead]; simp⟩
    · rw [block_addLoop, if_neg hnew] at ha
      obtain ⟨hbody, hempty, hsole, hleads⟩ := h.heads a ha
      have hsame := hold a (lt_next_of_loopHeader ha)
      exact ⟨by omega, by rwa [hsame], hsole, by rwa [hsame]⟩
  · have hlt : b ≠ d.next := by
      rintro rfl
      rw [hhead] at ht
      cases ht
    rw [block_addLoop, if_neg hlt] at ht
    exact h.ends b t ht

theorem EndedBut.addLoop {bs : List Nat} (h : d.EndedBut bs) :
    ((d.addBlock true).addBlocks 2).EndedBut (d.next :: (d.next + 1) :: (d.next + 2) :: bs) := by
  intro b hb hnone
  simp only [next_addBlocks, next_addBlock] at hb
  rcases Nat.lt_or_ge b d.next with hlt | hge
  · rw [block_addLoop, if_neg (Nat.ne_of_lt hlt)] at hnone
    simp [h b hlt hnone]
  · have hnew : b = d.next ∨ b = d.next + 1 ∨ b = d.next + 2 := by omega
    simp only [List.mem_cons]
    tauto

/-- The chart goes on with a loop: its header, its body, kept for the header, and the block after it. -/
structure ChartsLoop (d : Draft) (m m' : Nat → Plot) (loops : List Nat) : Prop where
  keeps : Set.EqOn m' m (Set.Iio d.next)
  header : m' d.next = ⟨(m d.current).position ++ [0], d.next :: loops, none⟩
  body : m' (d.next + 1) = ⟨(m d.current).position ++ [0] ++ [0], d.next :: loops, some d.next⟩
  after : m' (d.next + 2) = ⟨(m d.current).position ++ [1], loops, none⟩

theorem exists_chartsLoop (d : Draft) (m : Nat → Plot) (loops : List Nat) : ∃ m', d.ChartsLoop m m' loops := by
  refine ⟨fun b => if b = d.next then ⟨(m d.current).position ++ [0], d.next :: loops, none⟩
    else if b = d.next + 1 then ⟨(m d.current).position ++ [0] ++ [0], d.next :: loops, some d.next⟩
    else if b = d.next + 2 then ⟨(m d.current).position ++ [1], loops, none⟩ else m b, fun b hb => ?_, ?_, ?_, ?_⟩
  · have hlt : b < d.next := hb
    exact (if_neg (by omega)).trans ((if_neg (by omega)).trans (if_neg (by omega)))
  · exact if_pos rfl
  · exact (if_neg (by omega)).trans (if_pos rfl)
  · exact (if_neg (by omega)).trans ((if_neg (by omega)).trans (if_pos rfl))

theorem vacant_loopBody {loops : List Nat} (hd : d.Open) (c inner : Surroundings) (hgt : d.next < b)
    (hlt : b < d.next + 3) (hposition : here <+: (m b).position) (hnesting : (m b).loops = loops) :
    ((d.loopHead c).jump inner (d.next + 1) "body").Vacant m here loops b := by
  refine Vacant.jump ⟨reserved_loopHead hd c hgt hlt, hposition, hnesting, ?_⟩ inner (d.next + 1) "body"
  rw [loopHead, block_moveTo, block_jump, loopHeader_terminate, block_addLoop, if_neg (Nat.ne_of_gt hgt),
    block_of_next_le (Nat.le_of_lt hgt)]

theorem open_loopHead (hd : d.Open) (c : Surroundings) : (d.loopHead c).Open :=
  ((reserved_addLoop hd (Nat.le_refl _) (by omega)).jump c d.next "loop").open_moveTo

section

variable (hd : d.Works m here c.headers aside)

include hd

theorem Works.endedBut_loopBody (inner : Surroundings) :
    ((d.loopHead c).jump inner (d.next + 1) "body").EndedBut ((d.next + 1) :: (d.next + 2) :: aside) := by
  have hopen := (Lays.addBlocks (Lays.addBlock hd.isOpen true).opened 2).opened
  have hhead : (((d.addBlock true).addBlocks 2).jump c d.next "loop").EndedBut
      (d.next :: (d.next + 1) :: (d.next + 2) :: aside) := by
    refine EndedBut.ended (hd.rest.addLoop.mono fun x hx => ?_) hopen (blocks_jump _ _ _ _)
    simp only [List.mem_cons, current_addBlocks, current_addBlock] at hx ⊢
    tauto
  exact EndedBut.ended (d := d.loopHead c) hhead (open_loopHead hd.isOpen c) (blocks_jump _ _ _ _)

namespace ChartsLoop

variable (h : d.ChartsLoop m m' c.headers)

include h

theorem charted_addLoop : ((d.addBlock true).addBlocks 2).Charted m' := by
  have hnew : ∀ b, d.next ≤ b → b < d.next + 3 → (m' b).position ≠ [] ∧ (m' b).loops ⊆ d.next :: c.headers := by
    intro b hge hlt
    obtain rfl | rfl | rfl : b = d.next ∨ b = d.next + 1 ∨ b = d.next + 2 := by omega
    · rw [h.header]
      exact ⟨by simp, fun a ha => ha⟩
    · rw [h.body]
      exact ⟨by simp, fun a ha => ha⟩
    · rw [h.after]
      exact ⟨by simp, List.subset_cons_self _ _⟩
  refine (hd.charted.keep h.keeps).addLoop (fun b hge hlt => (hnew b hge hlt).1) (fun b hge hlt a ha => ?_)
    (by rw [h.body])
  refine (List.mem_cons.mp ((hnew b hge hlt).2 ha)).imp_right fun ha => ?_
  exact hd.charted.headed d.current hd.isOpen.inside a (hd.nesting ▸ ha)

theorem charted_loopHead : (d.loopHead c).Charted m' := by
  have hcurrent : m' d.current = m d.current := h.keeps hd.isOpen.inside
  have hplain : (((d.addBlock true).addBlocks 2).block d.current).loopHeader = false := by
    rw [block_addLoop, if_neg (Nat.ne_of_lt hd.isOpen.inside), hd.plain]
  refine ((h.charted_addLoop hd).jump (Lays.addBlocks (Lays.addBlock hd.isOpen true).opened 2).opened "loop" ?_
    (by simp only [next_addBlocks, next_addBlock]; omega) (.inr ?_) (.inr ?_) ?_ ?_).moveTo d.next
  · exact hcurrent ▸ hd.nesting
  · simp only [current_addBlocks, current_addBlock, hcurrent, h.header]
    exact lt_append _ 0
  · simp only [current_addBlocks, current_addBlock, hcurrent, h.header, hd.nesting]
  · simp [h.header]
  · simp [hplain]

theorem charted_loopBody {inner : Surroundings} (hheaders : inner.headers = d.next :: c.headers) :
    ((d.loopHead c).jump inner (d.next + 1) "body").Charted m' := by
  have hcurrent : (d.loopHead c).current = d.next := rfl
  refine (h.charted_loopHead hd).jump (open_loopHead hd.isOpen c) "body" ?_ (by simp [loopHead]) (.inr ?_) (.inl ?_)
    ?_ ?_
  · rw [hcurrent, h.header, hheaders]
  · rw [hcurrent, h.header, h.body]
    exact lt_append _ 0
  · rw [hcurrent, h.header, h.body]
  · simp [h.body, hcurrent]
  · simp [hcurrent]

end ChartsLoop

/-- A loop: its header leads into the body, and nothing else does. -/
theorem Works.cycle {inner : Surroundings} (hc : c.Lets d m here) (hinner : c.enterLoop d.next (d.next + 2) = inner)
    (hbody : Proceeds inner (d.loopBody c inner) e) : ∃ m', Set.EqOn m' m (Set.Iio d.next) ∧
      ((e.jump inner d.next "loop").moveTo (d.next + 2)).Works m' here c.headers aside := by
  obtain ⟨m', h⟩ := exists_chartsLoop d m c.headers
  have hheaders : inner.headers = d.next :: c.headers := by rw [← hinner]; rfl
  have hnext : (d.loopBody c inner).next = d.next + 3 := by simp [loopBody, loopHead]
  have hinside : ∀ i, here <+: (m d.current).position ++ [i] := fun i => hd.position.trans (List.prefix_append _ _)
  have hexit : (d.loopBody c inner).Takes m' ((m d.current).position ++ [0]) (d.next :: c.headers) (d.next + 2) := by
    refine ⟨by omega, by rw [h.after], by rw [h.after]; exact List.suffix_cons _ _, .inr ?_⟩
    rw [h.after]
    exact clear_next _
  have hheader : (d.loopBody c inner).Takes m' ((m d.current).position ++ [0]) (d.next :: c.headers) d.next :=
    ⟨by omega, by rw [h.header], by rw [h.header], .inl List.mem_cons_self⟩
  have hlets := (hc.grow (e := d.loopBody c inner) (by omega) h.keeps (hinside 0)).enterLoop hheader hexit
  rw [hinner] at hlets
  have hstart : ((d.loopHead c).jump inner (d.next + 1) "body").Vacant m' ((m d.current).position ++ [0]) inner.headers
      (d.next + 1) :=
    vacant_loopBody hd.isOpen c inner (by omega) (by omega) (by rw [h.body]; exact List.prefix_append _ _)
      (by rw [h.body, hheaders])
  obtain ⟨hgrows, m₁, hkeeps, hlast⟩ := hbody hlets
    (hstart.works (h.charted_loopBody hd hheaders) (hd.endedBut_loopBody inner))
  have hafter : (d.loopBody c inner).Vacant m' here c.headers (d.next + 2) :=
    (vacant_loopBody hd.isOpen c inner (by omega) (by omega)
      (by rw [h.after]; exact hinside 1) (by rw [h.after])).moveTo
      (by omega)
  have hback := hheader.grow hgrows.next hkeeps List.prefix_rfl List.suffix_rfl
  rw [← hheaders] at hback
  obtain ⟨hcharted, hrest⟩ := hlast.jump rfl "loop" hback
  refine ⟨m₁, (hkeeps.mono (Set.Iio_subset_Iio (by omega))).trans h.keeps, ?_⟩
  exact ((hafter.grow hgrows (by omega) hkeeps).jump inner d.next "loop").works hcharted hrest

end

end Draft

mutual

theorem lowerStmt_proceeds : ∀ (s : Stmt) {c : Surroundings} {d e : Draft} {m : Nat → Plot} {here aside : List Nat},
    c.Lets d m here → d.Works m here c.headers aside → lowerStmt c s d = .ok e →
    ∃ m', Set.EqOn m' m (Set.Iio d.next) ∧ e.Works m' here c.headers aside
  | .declare .., c, d, e, m, here, aside, hc, hd, h | .assign .., c, d, e, m, here, aside, hc, hd, h
  | .eval .., c, d, e, m, here, aside, hc, hd, h => by
    obtain rfl := Except.ok.inj h
    exact ⟨m, Set.eqOn_refl m _, hd.emit _⟩
  | .block body, c, d, e, m, here, aside, hc, hd, h => lowerBlock_proceeds body hc hd h
  | .branch cond yes no loc, c, d, e, m, here, aside, hc, hd, h => by
    simp only [lowerStmtBy, bind_eq_ok, pure_eq, Except.ok.injEq] at h
    obtain ⟨d₁, hyes, d₂, hno, rfl⟩ := h
    exact hd.fork hc rfl (by simp)
      (fun hc' hd' => ⟨(lowerBlock_lays yes hd'.isOpen hyes).grows, lowerBlock_proceeds yes hc' hd' hyes⟩)
      (fun hc' hd' => ⟨(lowerOptional_lays no hd'.isOpen hno).grows, lowerOptional_proceeds no hc' hd' hno⟩)
  | .loop body loc, c, d, e, m, here, aside, hc, hd, h => by
    simp only [lowerStmtBy, bind_eq_ok, pure_eq, Except.ok.injEq] at h
    obtain ⟨d₁, hbody, rfl⟩ := h
    exact hd.cycle hc rfl fun hc' hd' =>
      ⟨(lowerBlock_lays body hd'.isOpen hbody).grows, lowerBlock_proceeds body hc' hd' hbody⟩
  | .breakLoop loc, c, d, e, m, here, aside, hc, hd, h => by
    unfold lowerStmtBy at h
    split at h
    · cases h
    · rename_i l rest hloops
      obtain rfl := Except.ok.inj h
      exact hd.leave l.depth "break" loc (hc.loopExit l (hloops ▸ List.mem_cons_self))
  | .continueLoop loc, c, d, e, m, here, aside, hc, hd, h => by
    unfold lowerStmtBy at h
    split at h
    · cases h
    · rename_i l rest hloops
      obtain rfl := Except.ok.inj h
      exact hd.leave l.depth "continue" loc (hc.header l (hloops ▸ List.mem_cons_self))
  | .ret value loc, c, d, e, m, here, aside, hc, hd, h => by
    have hstored := hd.emitAll (fun e => .assign (.var c.returnName returnSlot loc) e loc) value.toList
    have hnext := (Lays.emitAll hd.isOpen (fun e => .assign (.var c.returnName returnSlot loc) e loc)
      value.toList).grows.next
    obtain ⟨m', hkeeps, hleft⟩ := hstored.leave 0 "return" loc
      (hc.exit.grow hnext (Set.eqOn_refl m _) List.prefix_rfl List.suffix_rfl)
    refine ⟨m', hkeeps.mono (Set.Iio_subset_Iio hnext), ?_⟩
    cases value with
    | none =>
      obtain rfl := Except.ok.inj h
      exact hleft
    | some value =>
      obtain rfl := Except.ok.inj h
      exact hleft
  | .select scrutinee arms loc, c, d, e, m, here, aside, hc, hd, h => by
    have hsome : arms ≠ [] := by
      rintro rfl
      cases hplace : scrutinee.isPlace <;> simp [lowerStmtBy, hplace] at h
    obtain ⟨d₁, rfl, harms⟩ := lowerStmt_select h
    have htargets : (arms.mapIdx fun i a => (⟨d.next + 1 + i, a.label⟩ : Edge)).map Edge.target =
        (List.range arms.length).map (d.next + 1 + ·) := List.ext_getElem (by simp) (by simp)
    obtain ⟨m₀, way, hkeeps, hcharted, hrest, hmeets, hways⟩ := hd.part hc (arms.length + 1) d.next (by omega)
      (by omega) { kind := .switch, edges := arms.mapIdx fun i a => (⟨d.next + 1 + i, a.label⟩ : Edge),
                   scrutinee := some scrutinee, loc := loc }
      (by simpa using hsome)
      (by
        intro x hx
        rw [htargets] at hx
        obtain ⟨i, hi, rfl⟩ := List.mem_map.mp hx
        have hi := List.mem_range.mp hi
        omega)
      (by
        rw [htargets]
        exact List.nodup_range.map fun a b => by simp)
    have hwait : ∀ i < arms.length, _ := fun i hi => hways (d.next + 1 + i) (by omega) (by omega) (by omega)
    rw [List.range'_succ] at hrest
    obtain ⟨m₁, hkeeps₁, hcharted₁, hrest₁⟩ := lowerArms_proceeds arms hmeets.lets hmeets.ahead hcharted
      (hrest.mono List.perm_middle.symm.subset) hwait harms
    have hgrows := (lowerArms_lays arms (fun i hi => (hwait i hi).reserved) harms).1
    refine ⟨m₁, (hkeeps₁.mono (Set.Iio_subset_Iio (by simp))).trans hkeeps, ?_⟩
    exact (hmeets.meeting.grow hgrows (Nat.lt_succ_self _) hkeeps₁).works hcharted₁ hrest₁
  | .storageDead id name loc, c, d, e, m, here, aside, hc, hd, h => by cases h
  | .foreign, c, d, e, m, here, aside, hc, hd, h => by cases h

theorem lowerStmts_proceeds : ∀ (ss : List Stmt) {c : Surroundings} {d e : Draft} {m : Nat → Plot}
    {here aside : List Nat}, c.Lets d m here → d.Works m here c.headers aside → lowerStmts c ss d = .ok e →
    ∃ m', Set.EqOn m' m (Set.Iio d.next) ∧ e.Works m' here c.headers aside
  | [], c, d, e, m, here, aside, hc, hd, h => by
    obtain rfl := Except.ok.inj h
    exact ⟨m, Set.eqOn_refl m _, hd⟩
  | s :: rest, c, d, e, m, here, aside, hc, hd, h => by
    simp only [lowerStmtsBy, bind_eq_ok] at h
    obtain ⟨d₁, hs, hrest⟩ := h
    obtain ⟨m₁, hkeeps, hd₁⟩ := lowerStmt_proceeds s hc hd hs
    have hnext := (lowerStmt_lays s hd.isOpen hs).grows.next
    have hheaders := c.headers_declaring s.declared
    obtain ⟨m₂, hkeeps₂, hd₂⟩ := lowerStmts_proceeds rest ((hc.grow hnext hkeeps List.prefix_rfl).declaring s.declared)
      (hheaders ▸ hd₁) hrest
    exact ⟨m₂, (hkeeps₂.mono (Set.Iio_subset_Iio hnext)).trans hkeeps, hheaders ▸ hd₂⟩

theorem lowerBlock_proceeds : ∀ (b : Block) {c : Surroundings} {d e : Draft} {m : Nat → Plot}
    {here aside : List Nat}, c.Lets d m here → d.Works m here c.headers aside → lowerBlock c b d = .ok e →
    ∃ m', Set.EqOn m' m (Set.Iio d.next) ∧ e.Works m' here c.headers aside
  | .mk statements loc, c, d, e, m, here, aside, hc, hd, h => by
    simp only [lowerBlockBy, bind_eq_ok, pure_eq, Except.ok.injEq] at h
    obtain ⟨d₁, hall, rfl⟩ := h
    obtain ⟨m', hkeeps, hd'⟩ := lowerStmts_proceeds statements hc.enterScope hd hall
    exact ⟨m', hkeeps, hd'.endStorage _ loc⟩

theorem lowerOptional_proceeds : ∀ (b : Option Block) {c : Surroundings} {d e : Draft} {m : Nat → Plot}
    {here aside : List Nat}, c.Lets d m here → d.Works m here c.headers aside → lowerOptional c b d = .ok e →
    ∃ m', Set.EqOn m' m (Set.Iio d.next) ∧ e.Works m' here c.headers aside
  | none, c, d, e, m, here, aside, hc, hd, h => by
    obtain rfl := Except.ok.inj h
    exact ⟨m, Set.eqOn_refl m _, hd⟩
  | some b, c, d, e, m, here, aside, hc, hd, h => lowerBlock_proceeds b hc hd h

theorem lowerArms_proceeds : ∀ (arms : List Arm) {c : Surroundings} {scrutinee : Expr} {join start : Nat}
    {d e : Draft} {m : Nat → Plot} {way aside : List Nat}, c.Lets d m way → d.Takes m way c.headers join →
    d.Charted m → d.EndedBut (List.range' start arms.length ++ aside) →
    (∀ i < arms.length, d.Vacant m way c.headers (start + i)) → lowerArms c scrutinee join start arms d = .ok e →
    ∃ m', Set.EqOn m' m (Set.Iio d.next) ∧ e.Charted m' ∧ e.EndedBut aside
  | [], c, scrutinee, join, start, d, e, m, way, aside, hc, hj, hd, hr, hw, h => by
    obtain rfl := Except.ok.inj h
    exact ⟨m, Set.eqOn_refl m _, hd, hr⟩
  | .mk variant body bindings loc :: rest, c, scrutinee, join, start, d, e, m, way, aside, hc, hj, hd, hr, hw, h => by
    obtain ⟨d₁, hbody, hrest⟩ := lowerArms_cons h
    have hstart := (hw 0 (by simp)).works hd hr
    have hlets := Lays.emitAll hstart.isOpen (fun b : PayloadBinding => b.declaration scrutinee (variant.getD ""))
      bindings
    have hentered := hstart.emitAll (fun b : PayloadBinding => b.declaration scrutinee (variant.getD "")) bindings
    have hlaid := lowerBlock_lays body hlets.opened hbody
    have hallowed := (hc.grow hlets.grows.next (Set.eqOn_refl m _) List.prefix_rfl).enterScope.declaring
      (bindings.map fun b => (b.id, b.name))
    have hheaders : (c.enterScope.declaring (bindings.map fun b => (b.id, b.name))).headers = c.headers :=
      c.enterScope.headers_declaring _
    obtain ⟨m₁, hkeeps, hd₁⟩ := lowerBlock_proceeds body hallowed (hheaders ▸ hentered) hbody
    rw [hheaders] at hd₁
    have hclosed := hd₁.endStorage (bindings.map fun b => (b.id, b.name)) body.loc
    have hgrows := ((hlets.seq hlaid).seq
      (Lays.endStorage hlaid.opened (bindings.map fun b => (b.id, b.name)) body.loc)).grows
    have hkeeps₁ : Set.EqOn m₁ m (Set.Iio d.next) := hkeeps.mono (Set.Iio_subset_Iio hlets.grows.next)
    generalize d₁.endStorage (bindings.map fun b => (b.id, b.name)) body.loc = d₂ at hclosed hgrows hrest
    have hle : d.next ≤ (d₂.jump c join "join").next := by simpa using hgrows.next
    obtain ⟨hcharted, hended⟩ := hclosed.jump rfl "join"
      (hj.grow hgrows.next hkeeps₁ List.prefix_rfl List.suffix_rfl)
    have hrestWait : ∀ i < rest.length, (d₂.jump c join "join").Vacant m₁ way c.headers (start + 1 + i) := by
      intro i hi
      have hlater := hw (i + 1) (by simpa using hi)
      rw [show start + (i + 1) = start + 1 + i by omega] at hlater
      exact ((hlater.moveTo (by omega)).grow hgrows hlater.reserved.inside hkeeps₁).jump c join "join"
    obtain ⟨m₂, hkeeps₂, hdone⟩ := lowerArms_proceeds rest (hc.grow hle hkeeps₁ List.prefix_rfl)
      (hj.grow hle hkeeps₁ List.prefix_rfl List.suffix_rfl) hcharted hended hrestWait hrest
    exact ⟨m₂, (hkeeps₂.mono (Set.Iio_subset_Iio hle)).trans hkeeps₁, hdone⟩

end

/-- The graph is as it is charted, and finished. -/
structure Graph.Charted (g : Graph) (m : Nat → Plot) : Prop where
  inside : ∀ b, ∀ t ∈ g.successors b, t < g.blocks.length
  leads : ∀ b, ∀ t ∈ g.successors b, Leads m g.backEdges b t
  distinct : ∀ b, (g.successors b).Nodup
  back : ∀ e ∈ g.backEdges, e.2 ∈ g.successors e.1 ∧ e.2 ∈ (m e.1).loops
  headed : ∀ b < g.blocks.length, ∀ h ∈ (m b).loops, (g.block h).loopHeader = true
  heads : ∀ h, (g.block h).loopHeader = true →
    (g.block h).statements = [] ∧ g.successors h = [h + 1] ∧ (m (h + 1)).sole = some h
  ended : ∀ b < g.blocks.length, ∃ t, (g.block b).terminator = some t ∧ (b = g.exit ∨ t.kind ≠ .ret ∧ t.edges ≠ [])
  entry : ∀ b, g.entry ∉ g.successors b
  outside : (m g.entry).loops = []

namespace Function

variable {f : Function} {g : Graph}

theorem works_firstDraft (f : Function) :
    f.firstDraft.Works (fun b => ⟨[b], [], none⟩) [0] f.surroundings.headers [] := by
  have hblocks : ∀ b, f.firstDraft.block b = { id := b } ∨
      b = 1 ∧ f.firstDraft.block b = { id := 1, terminator := some { kind := .ret, loc := f.loc } }
    | 0 => .inl rfl
    | 1 => .inr ⟨rfl, rfl⟩
    | b + 2 => .inl (block_of_next_le (by simp [next, firstDraft]))
  have hnone : ∀ b, (f.firstDraft.block b).successors = [] := fun b => by
    rcases hblocks b with hb | ⟨_, hb⟩ <;> rw [hb] <;> rfl
  have hflag : ∀ b, (f.firstDraft.block b).loopHeader = false := fun b => by
    rcases hblocks b with hb | ⟨_, hb⟩ <;> rw [hb]
  refine ⟨f.open_firstDraft, ⟨?_, ?_, ?_, ?_, ?_, ?_, ?_, ?_⟩, List.prefix_rfl, rfl, hflag _, ?_⟩
  · simp
  · simp [hnone]
  · simp [hnone]
  · simp [hnone]
  · simp [firstDraft]
  · simp
  · simp [hflag]
  · intro b t ht
    rcases hblocks b with hb | ⟨hb, _⟩
    · simp [hb] at ht
    · exact .inl hb
  · intro b hb hend
    have hlt : b < 2 := hb
    obtain rfl | rfl : b = 0 ∨ b = 1 := by omega
    · exact List.mem_cons_self
    · cases hend

theorem graph_entry_lt (h : f.graph = .ok g) : g.entry < g.blocks.length := by
  simp only [graph, graphBy, bind_eq_ok, pure_eq, Except.ok.injEq] at h
  obtain ⟨d, hd, rfl⟩ := h
  have hlays := lowerStmts_lays f.body.statements f.open_firstDraft hd
  have hended := (Lays.endStorage hlays.opened (f.paramBindings ++ declaredIn f.body.statements) f.body.loc).grows.next
  have hjumped := next_jump (d.endStorage (f.paramBindings ++ declaredIn f.body.statements) f.body.loc)
    f.surroundings 1 "return"
  have hfirst : f.firstDraft.next = 2 := rfl
  have hlt : 0 < ((d.endStorage (f.paramBindings ++ declaredIn f.body.statements) f.body.loc).jump
      f.surroundings 1 "return").next := by
    have hle := hlays.grows.next
    omega
  exact hlt

/-- Every graph that lowering makes can be charted. The entry comes first, and is no header: the
exit, next to it, is kept for no block. -/
theorem graph_charted (h : f.graph = .ok g) : ∃ m, g.Charted m := by
  simp only [graph, graphBy, bind_eq_ok, pure_eq, Except.ok.injEq] at h
  obtain ⟨d, hd, rfl⟩ := h
  have hlets : f.surroundings.Lets f.firstDraft (fun b => ⟨[b], [], none⟩) [0] :=
    ⟨⟨by simp [surroundings, firstDraft, Draft.next], rfl, List.nil_suffix, .inr (clear_next [])⟩,
      by simp [surroundings], by simp [surroundings]⟩
  obtain ⟨m, hkeeps, hworks⟩ := lowerStmts_proceeds f.body.statements hlets f.works_firstDraft hd
  have hnext := (lowerStmts_lays f.body.statements f.open_firstDraft hd).grows.next
  have hclosed := hworks.endStorage (f.paramBindings ++ declaredIn f.body.statements) f.body.loc
  have hlays := Lays.endStorage hworks.isOpen (f.paramBindings ++ declaredIn f.body.statements) f.body.loc
  have hexit := (hlets.exit.grow hnext hkeeps List.prefix_rfl List.suffix_rfl).grow
    hlays.grows.next (Set.eqOn_refl m _) List.prefix_rfl List.suffix_rfl
  obtain ⟨hcharted, hended⟩ := hclosed.jump rfl "return" hexit
  have hfirst : f.firstDraft.next = 2 := rfl
  have hentry : m 0 = ⟨[0], [], none⟩ := hkeeps (show 0 < f.firstDraft.next by omega)
  have hone : m 1 = ⟨[1], [], none⟩ := hkeeps (show 1 < f.firstDraft.next by omega)
  refine ⟨m, hcharted.inside, hcharted.leads, hcharted.distinct, hcharted.back, hcharted.headed, fun k hk => ?_,
    fun b hb => ?_, fun b hb => ?_, by simp [hentry]⟩
  · obtain ⟨hbody, hempty, hkept, hleads⟩ := hcharted.heads k hk
    refine ⟨hempty, ?_, hkept⟩
    obtain ⟨t, ht⟩ : ∃ t, (((d.endStorage (f.paramBindings ++ declaredIn f.body.statements) f.body.loc).jump
        f.surroundings 1 "return").block k).terminator = some t := by
      rw [← Option.ne_none_iff_exists']
      intro hnone
      cases hended k (Nat.lt_of_succ_lt hbody) hnone
    rw [← hleads t ht]
    exact congrArg (fun o => Option.elim o [] fun t : Terminator => t.edges.map Edge.target) ht
  · cases ht : (((d.endStorage (f.paramBindings ++ declaredIn f.body.statements) f.body.loc).jump
        f.surroundings 1 "return").block b).terminator with
    | none => cases hended b hb ht
    | some t => exact ⟨t, ht, hcharted.ends b t ht⟩
  · rcases (hcharted.leads b 0 hb).ahead with hback | hlt
    · have hflag := hcharted.headed b (Draft.lt_next_of_successor hb) 0 (hcharted.back _ hback).2
      have hkept := (hcharted.heads 0 hflag).kept
      rw [hone] at hkept
      cases hkept
    · rw [hentry] at hlt
      have hne := hcharted.placed b (Draft.lt_next_of_successor hb)
      cases hpos : (m b).position with
      | nil => exact hne hpos
      | cons i rest =>
        rw [hpos, List.cons_lt_cons_iff] at hlt
        rcases hlt with hlt | ⟨_, hlt⟩
        · exact Nat.not_lt_zero i hlt
        · exact List.not_lt_nil rest hlt

end Function

end Ownership
