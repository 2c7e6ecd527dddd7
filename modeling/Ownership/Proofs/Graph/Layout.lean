import Ownership.Proofs.Graph.Paths

/-!
Where code lies in a graph. Drafting a graph only ever adds to the block it is
at: blocks that have ended stay as they are, and blocks set aside for later stay
empty until drafting moves to them. So the code of a statement can be found
again in the finished graph, between the point where drafting stood before the
statement and the one where it stood after it.
-/
namespace Ownership

open Outcome

namespace Graph

/-- The statements stand one after the other from the first point up to the second. -/
def HasAll (g : Graph) : List Stmt → Point → Point → Prop
  | [], p, q => p = q
  | s :: rest, p, q => g.statementAt p = some s ∧ g.HasAll rest ⟨p.block, p.index + 1⟩ q

/-- Only ends of storage stand between the two points. -/
def Closes (g : Graph) (p q : Point) : Prop :=
  ∃ ends : List Stmt, (∀ s ∈ ends, s.isStorageDead = true) ∧ g.HasAll ends p q

/-- The block ends at the point, in this way. -/
structure EndsWith (g : Graph) (p : Point) (t : Terminator) : Prop where
  last : p.index = g.last p.block
  terminator : (g.block p.block).terminator = some t

def JumpsTo (g : Graph) (p : Point) (target : Nat) : Prop :=
  ∃ label, g.EndsWith p { kind := .jump, edges := [⟨target, label⟩] }

/-- The scopes are left one after the other, and then the block jumps. -/
def LeavesTo (g : Graph) (p : Point) (target : Nat) : Prop :=
  ∃ q, g.Closes p q ∧ g.JumpsTo q target

theorem HasAll.append {g : Graph} {xs ys : List Stmt} {p q r : Point} (h : g.HasAll xs p q)
    (k : g.HasAll ys q r) : g.HasAll (xs ++ ys) p r := by
  induction xs generalizing p with
  | nil =>
    have hp : p = q := h
    rw [hp]
    exact k
  | cons s xs ih => exact ⟨h.1, ih h.2⟩

end Graph

/-- The assignment that a return makes, if it returns a value. -/
def returnStores (name : String) (value : Option Expr) (loc : Span) : List Stmt :=
  value.toList.map fun e => .assign (.var name returnSlot loc) e loc

theorem Surroundings.returnName_declaring (c : Surroundings) (bindings : List (BindingId × String)) :
    (c.declaring bindings).returnName = c.returnName := by
  unfold declaring
  split <;> rfl

/-- The declarations at the start of an arm. -/
def payloadDeclarations (scrutinee : Expr) (variant : Option String) (bindings : List PayloadBinding) :
    List Stmt :=
  bindings.map (·.declaration scrutinee (variant.getD ""))

mutual

/-- The code of a statement: it starts at the first point, and control that falls out of it goes
on at the second. -/
def Stmt.Laid (g : Graph) (c : Surroundings) : Stmt → Point → Point → Prop
  | .declare name id value loc, p, q => g.HasAll [.declare name id value loc] p q
  | .assign target value loc, p, q => g.HasAll [.assign target value loc] p q
  | .eval expr loc, p, q => g.HasAll [.eval expr loc] p q
  | .block body, p, q => body.Laid g c p q
  | .branch cond yes no loc, p, q => ∃ yesStart noStart join yesEnd noEnd,
    g.EndsWith p { kind := .branch, edges := [⟨yesStart, "then"⟩, ⟨noStart, "else"⟩], cond := some cond,
                   loc := loc } ∧
    yes.Laid g c ⟨yesStart, 0⟩ yesEnd ∧ g.JumpsTo yesEnd join ∧
    Block.LaidOptional g c no ⟨noStart, 0⟩ noEnd ∧ g.JumpsTo noEnd join ∧ q = ⟨join, 0⟩
  | .loop body _, p, q => ∃ header start exit bodyEnd,
    g.JumpsTo p header ∧ g.JumpsTo ⟨header, 0⟩ start ∧
    body.Laid g (c.enterLoop header exit) ⟨start, 0⟩ bodyEnd ∧ g.JumpsTo bodyEnd header ∧ q = ⟨exit, 0⟩
  | .breakLoop _, p, _ => ∃ l, c.loops.head? = some l ∧ g.LeavesTo p l.exit
  | .continueLoop _, p, _ => ∃ l, c.loops.head? = some l ∧ g.LeavesTo p l.header
  | .ret value loc, p, _ => ∃ q, g.HasAll (returnStores c.returnName value loc) p q ∧ g.LeavesTo q c.exit
  | .select scrutinee arms loc, p, q => ∃ join,
    g.EndsWith p { kind := .switch, edges := arms.mapIdx fun i a => ⟨join + 1 + i, a.label⟩,
                   scrutinee := some scrutinee, loc := loc } ∧
    Arm.LaidAll g c scrutinee join (join + 1) arms ∧ q = ⟨join, 0⟩
  | .storageDead .., _, _ => False
  | .foreign, _, _ => False

def Stmt.LaidAll (g : Graph) (c : Surroundings) : List Stmt → Point → Point → Prop
  | [], p, q => p = q
  | s :: rest, p, q => ∃ r, s.Laid g c p r ∧ Stmt.LaidAll g (c.declaring s.declared) rest r q

def Block.Laid (g : Graph) (c : Surroundings) : Block → Point → Point → Prop
  | .mk statements _, p, q => ∃ r, Stmt.LaidAll g c.enterScope statements p r ∧ g.Closes r q

def Block.LaidOptional (g : Graph) (c : Surroundings) : Option Block → Point → Point → Prop
  | none, p, q => p = q
  | some b, p, q => b.Laid g c p q

/-- The arms start the blocks from `start` on, and all of them meet in `join`. -/
def Arm.LaidAll (g : Graph) (c : Surroundings) (scrutinee : Expr) (join : Nat) : Nat → List Arm → Prop
  | _, [] => True
  | start, .mk variant body bindings _ :: rest =>
    (∃ q r, g.HasAll (payloadDeclarations scrutinee variant bindings) ⟨start, 0⟩ q ∧
      body.Laid g (c.enterScope.declaring (bindings.map fun b => (b.id, b.name))) q r ∧
      g.LeavesTo r join) ∧ Arm.LaidAll g c scrutinee join (start + 1) rest

end

namespace Draft

variable {d e f : Draft} {b n : Nat}

def block (d : Draft) (b : Nat) : BasicBlock := d.blocks[b]?.getD { id := b }

/-- The point that the next statement goes to. -/
def here (d : Draft) : Point := ⟨d.current, (d.block d.current).statements.length⟩

/-- The current block is there and has not ended. -/
structure Open (d : Draft) : Prop where
  inside : d.current < d.next
  ongoing : (d.block d.current).terminator = none

/-- The block is there for later: drafting is elsewhere and has put nothing into it. -/
structure Reserved (d : Draft) (b : Nat) : Prop where
  inside : b < d.next
  empty : (d.block b).statements = []
  ongoing : (d.block b).terminator = none
  aside : b ≠ d.current

@[simp] theorem next_emit (d : Draft) (s : Stmt) : (d.emit s).next = d.next := by simp [emit, next]

@[simp] theorem current_emit (d : Draft) (s : Stmt) : (d.emit s).current = d.current := rfl

@[simp] theorem next_terminate (d : Draft) (t : Terminator) : (d.terminate t).next = d.next := by
  simp [terminate, next]

@[simp] theorem current_terminate (d : Draft) (t : Terminator) : (d.terminate t).current = d.current := rfl

@[simp] theorem next_addBlocks (d : Draft) (n : Nat) : (d.addBlocks n).next = d.next + n := by
  simp [addBlocks, next]

@[simp] theorem current_addBlocks (d : Draft) (n : Nat) : (d.addBlocks n).current = d.current := rfl

@[simp] theorem next_addBlock (d : Draft) (h : Bool) : (d.addBlock h).next = d.next + 1 := by
  simp [addBlock, next]

@[simp] theorem current_addBlock (d : Draft) (h : Bool) : (d.addBlock h).current = d.current := rfl

@[simp] theorem next_moveTo (d : Draft) (b : Nat) : (d.moveTo b).next = d.next := rfl

@[simp] theorem current_moveTo (d : Draft) (b : Nat) : (d.moveTo b).current = b := rfl

@[simp] theorem block_moveTo (d : Draft) (a b : Nat) : (d.moveTo a).block b = d.block b := rfl

theorem block_emit (h : d.current < d.next) (s : Stmt) : (d.emit s).block d.current =
    { d.block d.current with statements := (d.block d.current).statements ++ [s] } := by
  have hget : d.blocks[d.current]? = some d.blocks[d.current] := List.getElem?_eq_getElem h
  simp [block, emit, hget]

theorem block_emit_other (h : b ≠ d.current) (s : Stmt) : (d.emit s).block b = d.block b := by
  simp [block, emit, List.getElem?_modify_ne _ _ (Ne.symm h)]

theorem block_terminate (h : d.current < d.next) (t : Terminator) :
    (d.terminate t).block d.current = { d.block d.current with terminator := some t } := by
  have hget : d.blocks[d.current]? = some d.blocks[d.current] := List.getElem?_eq_getElem h
  simp [block, terminate, hget]

theorem block_terminate_other (h : b ≠ d.current) (t : Terminator) :
    (d.terminate t).block b = d.block b := by
  simp [block, terminate, List.getElem?_modify_ne _ _ (Ne.symm h)]

theorem block_addBlocks (d : Draft) (n b : Nat) : (d.addBlocks n).block b = d.block b := by
  unfold block addBlocks
  by_cases hb : b < d.blocks.length
  · rw [List.getElem?_append_left hb]
  · have hge : d.blocks.length ≤ b := Nat.le_of_not_lt hb
    rw [List.getElem?_append_right hge, List.getElem?_eq_none hge, List.getElem?_map]
    by_cases hlt : b - d.blocks.length < n
    · simp [List.getElem?_range hlt, next, Nat.add_sub_cancel' hge]
    · rw [List.getElem?_eq_none (by simpa using hlt)]
      rfl

theorem block_addBlock (h : b < d.next) (header : Bool) : (d.addBlock header).block b = d.block b := by
  unfold block addBlock
  rw [List.getElem?_append_left h]

theorem block_of_next_le (h : d.next ≤ b) : d.block b = { id := b } := by
  simp [block, List.getElem?_eq_none h]

/-- Changing the current block leaves alone what the change keeps of it. -/
theorem block_modify {α : Type} (field : BasicBlock → α) (d : Draft) (b : Nat) {change : BasicBlock → BasicBlock}
    (h : ∀ x, field (change x) = field x) :
    field (block { d with blocks := d.blocks.modify d.current change } b) = field (d.block b) := by
  simp only [block, List.getElem?_modify]
  cases d.blocks[b]? with
  | none => rfl
  | some x => by_cases hb : d.current = b <;> simp [hb, h]

theorem id_emit (d : Draft) (s : Stmt) (b : Nat) : ((d.emit s).block b).id = (d.block b).id :=
  block_modify BasicBlock.id d b fun _ => rfl

theorem id_terminate (d : Draft) (t : Terminator) (b : Nat) : ((d.terminate t).block b).id = (d.block b).id :=
  block_modify BasicBlock.id d b fun _ => rfl

theorem id_addBlock (d : Draft) (header : Bool) (b : Nat) : ((d.addBlock header).block b).id = (d.block b).id := by
  rcases Nat.lt_trichotomy b d.next with hlt | rfl | hgt
  · rw [block_addBlock hlt]
  · simp [block, addBlock, next]
  · rw [block_of_next_le (Nat.le_of_lt hgt), block_of_next_le (by rw [next_addBlock]; exact hgt)]

@[simp] theorem blocks_jump (d : Draft) (c : Surroundings) (target : Nat) (label : String) :
    (d.jump c target label).blocks = (d.terminate { kind := .jump, edges := [⟨target, label⟩] }).blocks := by
  unfold jump jumpBy
  simp only
  split <;> rfl

theorem leave_eq (d : Draft) (c : Surroundings) (depth target : Nat) (label : String) (loc : Span) :
    d.leave c depth target label loc = ((d.endStorage (c.bindingsAbove depth) loc).jump c target label).detach :=
  rfl

@[simp] theorem current_jump (d : Draft) (c : Surroundings) (target : Nat) (label : String) :
    (d.jump c target label).current = d.current := by
  unfold jump jumpBy
  simp only
  split <;> rfl

@[simp] theorem next_jump (d : Draft) (c : Surroundings) (target : Nat) (label : String) :
    (d.jump c target label).next = d.next := by
  rw [next, blocks_jump]
  exact next_terminate d _

theorem block_jump (d : Draft) (c : Surroundings) (target : Nat) (label : String) (b : Nat) :
    (d.jump c target label).block b =
      (d.terminate { kind := .jump, edges := [⟨target, label⟩] }).block b := by
  rw [block, blocks_jump]
  rfl

/-- Of the first `n` blocks only the current one was changed, no block has another number, and
drafting now stands where it stood or beyond them. -/
structure Grows (n : Nat) (d e : Draft) : Prop where
  next : d.next ≤ e.next
  kept : ∀ b, b < n → b ≠ d.current → e.block b = d.block b
  ids : ∀ b, (e.block b).id = (d.block b).id
  current : e.current = d.current ∨ n ≤ e.current

namespace Grows

theorem trans (h : Grows n d e) (k : Grows n e f) : Grows n d f := by
  refine ⟨Nat.le_trans h.next k.next, fun b hb hne => ?_, fun b => (k.ids b).trans (h.ids b), ?_⟩
  · have haside : b ≠ e.current := by
      rcases h.current with he | he
      · rwa [he]
      · omega
    rw [k.kept b hb haside, h.kept b hb hne]
  · rcases k.current with hk | hk
    · rw [hk]
      exact h.current
    · exact .inr hk

theorem mono {m : Nat} (hm : m ≤ n) (h : Grows n d e) : Grows m d e :=
  ⟨h.next, fun b hb => h.kept b (Nat.lt_of_lt_of_le hb hm), h.ids, h.current.imp_right (Nat.le_trans hm)⟩

theorem emit (n : Nat) (d : Draft) (s : Stmt) : Grows n d (d.emit s) :=
  ⟨by simp, fun _ _ hne => block_emit_other hne s, d.id_emit s, .inl rfl⟩

theorem terminate (n : Nat) (d : Draft) (t : Terminator) : Grows n d (d.terminate t) :=
  ⟨by simp, fun _ _ hne => block_terminate_other hne t, d.id_terminate t, .inl rfl⟩

theorem jump (n : Nat) (d : Draft) (c : Surroundings) (target : Nat) (label : String) :
    Grows n d (d.jump c target label) := by
  refine ⟨by simp, fun b _ hne => ?_, fun b => ?_, .inl (by simp)⟩
  · rw [block_jump, block_terminate_other hne]
  · rw [block_jump, id_terminate]

theorem addBlocks (n : Nat) (d : Draft) (k : Nat) : Grows n d (d.addBlocks k) :=
  ⟨by simp, fun b _ _ => d.block_addBlocks k b, fun b => by rw [block_addBlocks], .inl rfl⟩

theorem addBlock (d : Draft) (header : Bool) : Grows d.next d (d.addBlock header) :=
  ⟨by simp, fun _ hb _ => block_addBlock hb header, d.id_addBlock header, .inl rfl⟩

theorem moveTo (d : Draft) (h : n ≤ b) : Grows n d (d.moveTo b) :=
  ⟨Nat.le_refl _, fun _ _ _ => rfl, fun _ => rfl, .inr h⟩

/-- What is set aside below the bound stays so. -/
theorem reserved (h : Grows n d e) (hb : b < n) (hr : d.Reserved b) : e.Reserved b := by
  have hkept := h.kept b hb hr.aside
  refine ⟨Nat.lt_of_lt_of_le hr.inside h.next, by rw [hkept, hr.empty], by rw [hkept, hr.ongoing], ?_⟩
  rcases h.current with he | he
  · rw [he]
    exact hr.aside
  · omega

end Grows

theorem Reserved.open_moveTo (h : d.Reserved b) : (d.moveTo b).Open := ⟨h.inside, h.ongoing⟩

theorem Reserved.here_moveTo (h : d.Reserved b) : (d.moveTo b).here = ⟨b, 0⟩ := by
  simp [here, h.empty]

theorem Reserved.moveTo {a : Nat} (h : d.Reserved b) (hne : b ≠ a) : (d.moveTo a).Reserved b :=
  ⟨h.inside, h.empty, h.ongoing, hne⟩

theorem Reserved.terminate (h : d.Reserved b) (t : Terminator) : (d.terminate t).Reserved b :=
  (Grows.terminate (b + 1) d t).reserved (Nat.lt_succ_self b) h

theorem Reserved.jump (h : d.Reserved b) (c : Surroundings) (target : Nat) (label : String) :
    (d.jump c target label).Reserved b :=
  (Grows.jump (b + 1) d c target label).reserved (Nat.lt_succ_self b) h

theorem reserved_addBlocks (h : d.current < d.next) {k : Nat} (hge : d.next ≤ b) (hlt : b < d.next + k) :
    (d.addBlocks k).Reserved b := by
  have hempty : (d.addBlocks k).block b = { id := b } := by rw [block_addBlocks, block_of_next_le hge]
  have haside : b ≠ d.current := by omega
  exact ⟨by rwa [next_addBlocks], by rw [hempty], by rw [hempty], haside⟩

theorem reserved_addBlock (h : d.current < d.next) (header : Bool) : (d.addBlock header).Reserved d.next := by
  have hfresh : (d.addBlock header).block d.next = { id := d.next, loopHeader := header } := by
    simp [block, addBlock, next]
  have haside : d.next ≠ d.current := by omega
  exact ⟨by simp, by rw [hfresh], by rw [hfresh], haside⟩

/-- The graph goes on from the draft: ended blocks are as they were, and the others start as they did. -/
structure CompletedBy (d : Draft) (g : Graph) : Prop where
  ended : ∀ b, (d.block b).terminator ≠ none → g.block b = d.block b
  begun : ∀ b, ∃ more, (g.block b).statements = (d.block b).statements ++ more

namespace CompletedBy

variable {g : Graph}

theorem of_moveTo (h : (d.moveTo b).CompletedBy g) : d.CompletedBy g := ⟨h.ended, h.begun⟩

theorem of_addBlocks {k : Nat} (h : (d.addBlocks k).CompletedBy g) : d.CompletedBy g := by
  refine ⟨fun b hb => ?_, fun b => ?_⟩
  · have hended := h.ended b
    rw [block_addBlocks] at hended
    exact hended hb
  · have hbegun := h.begun b
    rwa [block_addBlocks] at hbegun

theorem of_addBlock {header : Bool} (h : (d.addBlock header).CompletedBy g) : d.CompletedBy g := by
  refine ⟨fun b hb => ?_, fun b => ?_⟩
  · by_cases hlt : b < d.next
    · have hended := h.ended b
      rw [block_addBlock hlt] at hended
      exact hended hb
    · rw [block_of_next_le (Nat.le_of_not_lt hlt)] at hb
      exact absurd rfl hb
  · by_cases hlt : b < d.next
    · have hbegun := h.begun b
      rwa [block_addBlock hlt] at hbegun
    · rw [block_of_next_le (Nat.le_of_not_lt hlt)]
      exact ⟨_, rfl⟩

theorem of_emit {s : Stmt} (hd : d.Open) (h : (d.emit s).CompletedBy g) :
    d.CompletedBy g ∧ g.statementAt d.here = some s := by
  have hcurrent := block_emit hd.inside s
  obtain ⟨more, hmore⟩ := h.begun d.current
  rw [hcurrent] at hmore
  refine ⟨⟨fun b hb => ?_, fun b => ?_⟩, ?_⟩
  · have hne : b ≠ d.current := fun he => hb (he ▸ hd.ongoing)
    have hended := h.ended b
    rw [block_emit_other hne] at hended
    exact hended hb
  · by_cases hb : b = d.current
    · rw [hb, hmore, List.append_assoc]
      exact ⟨_, rfl⟩
    · have hbegun := h.begun b
      rwa [block_emit_other hb] at hbegun
  · simp [Graph.statementAt, here, hmore]

theorem of_terminate {t : Terminator} (hd : d.Open) (h : (d.terminate t).CompletedBy g) :
    d.CompletedBy g ∧ g.EndsWith d.here t := by
  have hcurrent := block_terminate hd.inside t
  have hblock := h.ended d.current (by rw [hcurrent]; simp)
  rw [hcurrent] at hblock
  refine ⟨⟨fun b hb => ?_, fun b => ?_⟩, ?_, ?_⟩
  · have hne : b ≠ d.current := fun he => hb (he ▸ hd.ongoing)
    have hended := h.ended b
    rw [block_terminate_other hne] at hended
    exact hended hb
  · by_cases hb : b = d.current
    · rw [hb, hblock]
      exact ⟨[], by simp⟩
    · have hbegun := h.begun b
      rwa [block_terminate_other hb] at hbegun
  · simp [here, Graph.last, hblock]
  · simp [here, hblock]

theorem of_jump {c : Surroundings} {target : Nat} {label : String} (hd : d.Open)
    (h : (d.jump c target label).CompletedBy g) : d.CompletedBy g ∧ g.JumpsTo d.here target := by
  have hterm : (d.terminate { kind := .jump, edges := [⟨target, label⟩] }).CompletedBy g := by
    refine ⟨fun b hb => ?_, fun b => ?_⟩
    · rw [← block_jump d c] at hb ⊢
      exact h.ended b hb
    · rw [← block_jump d c]
      exact h.begun b
  obtain ⟨hcompleted, hends⟩ := hterm.of_terminate hd
  exact ⟨hcompleted, label, hends⟩

end CompletedBy

/-- Drafting goes on from an open block to an open block, and whatever graph it ends up in, the
code lies between the two points. -/
structure Lays (d e : Draft) (code : Graph → Point → Point → Prop) : Prop where
  opened : e.Open
  grows : Grows d.next d e
  completed : ∀ g, e.CompletedBy g → d.CompletedBy g ∧ code g d.here e.here

namespace Lays

variable {code first second : Graph → Point → Point → Prop}

theorem nil (hd : d.Open) : Lays d d fun _ p q => p = q :=
  ⟨hd, ⟨Nat.le_refl _, fun _ _ _ => rfl, fun _ => rfl, .inl rfl⟩, fun _ h => ⟨h, rfl⟩⟩

theorem seq (h : Lays d e first) (k : Lays e f second) :
    Lays d f fun g p r => ∃ q, first g p q ∧ second g q r := by
  refine ⟨k.opened, h.grows.trans (k.grows.mono h.grows.next), fun g hg => ?_⟩
  obtain ⟨he, hsecond⟩ := k.completed g hg
  obtain ⟨hd, hfirst⟩ := h.completed g he
  exact ⟨hd, e.here, hfirst, hsecond⟩

theorem imp (h : Lays d e first) (himp : ∀ g p q, first g p q → second g p q) : Lays d e second :=
  ⟨h.opened, h.grows, fun g hg => ⟨(h.completed g hg).1, himp g _ _ (h.completed g hg).2⟩⟩

theorem emit (hd : d.Open) (s : Stmt) : Lays d (d.emit s) fun g => g.HasAll [s] := by
  have hcurrent := block_emit hd.inside s
  refine ⟨⟨?_, ?_⟩, .emit _ d s, fun g hg => ?_⟩
  · simpa using hd.inside
  · rw [current_emit, hcurrent]
    exact hd.ongoing
  · obtain ⟨hcompleted, hat⟩ := hg.of_emit hd
    refine ⟨hcompleted, hat, ?_⟩
    simp [Graph.HasAll, here, hcurrent]

/-- Statements that are emitted one after the other lie one after the other. -/
theorem emitAll {α : Type} (hd : d.Open) (stmt : α → Stmt) (xs : List α) :
    Lays d (xs.foldl (fun d x => d.emit (stmt x)) d) fun g => g.HasAll (xs.map stmt) := by
  induction xs generalizing d with
  | nil => exact .nil hd
  | cons x xs ih =>
    have hfirst := Lays.emit hd (stmt x)
    refine (hfirst.seq (ih hfirst.opened)).imp fun g p r h => ?_
    obtain ⟨q, hq, hr⟩ := h
    exact hq.append hr

theorem endStorage (hd : d.Open) (bindings : List (BindingId × String)) (loc : Span) :
    Lays d (d.endStorage bindings loc) Graph.Closes := by
  refine (Lays.emitAll hd (fun b : BindingId × String => .storageDead b.1 b.2 loc) bindings.reverse).imp
    fun g p q h => ⟨_, fun s hs => ?_, h⟩
  obtain ⟨b, _, rfl⟩ := List.mem_map.mp hs
  rfl

theorem addBlocks (hd : d.Open) (k : Nat) : Lays d (d.addBlocks k) fun _ p q => p = q := by
  have hcurrent := d.block_addBlocks k d.current
  refine ⟨⟨?_, ?_⟩, .addBlocks _ d k, fun g hg => ⟨hg.of_addBlocks, ?_⟩⟩
  · have hinside := hd.inside
    simp only [next_addBlocks, current_addBlocks]
    omega
  · rw [current_addBlocks, hcurrent]
    exact hd.ongoing
  · rw [here, here, current_addBlocks, hcurrent]

theorem addBlock (hd : d.Open) (header : Bool) : Lays d (d.addBlock header) fun _ p q => p = q := by
  have hcurrent := block_addBlock hd.inside header
  refine ⟨⟨?_, ?_⟩, .addBlock d header, fun g hg => ⟨hg.of_addBlock, ?_⟩⟩
  · have hinside := hd.inside
    simp only [next_addBlock, current_addBlock]
    omega
  · rw [current_addBlock, hcurrent]
    exact hd.ongoing
  · rw [here, here, current_addBlock, hcurrent]

/-- Code that ends its block; drafting goes on in a block that was set aside. -/
theorem terminate_moveTo (h : Lays d e code) {b : Nat} (t : Terminator) (hb : e.Reserved b)
    (hge : d.next ≤ b) : Lays d ((e.terminate t).moveTo b) fun g p q =>
      (∃ r, code g p r ∧ g.EndsWith r t) ∧ q = ⟨b, 0⟩ := by
  have hreserved := hb.terminate t
  refine ⟨hreserved.open_moveTo, ?_, fun g hg => ?_⟩
  · exact h.grows.trans ((Grows.terminate _ e t).trans (Grows.moveTo _ hge))
  · obtain ⟨he, hends⟩ := hg.of_moveTo.of_terminate h.opened
    obtain ⟨hd, hcode⟩ := h.completed g he
    exact ⟨hd, ⟨e.here, hcode, hends⟩, hreserved.here_moveTo⟩

/-- Code that ends in a jump; drafting goes on in a block that was set aside. -/
theorem jump_moveTo (h : Lays d e code) {a b : Nat} (c : Surroundings) (label : String) (hb : e.Reserved b)
    (hge : d.next ≤ b) : Lays d ((e.jump c a label).moveTo b) fun g p q =>
      (∃ r, code g p r ∧ g.JumpsTo r a) ∧ q = ⟨b, 0⟩ := by
  have hreserved := hb.jump c a label
  refine ⟨hreserved.open_moveTo, ?_, fun g hg => ?_⟩
  · exact h.grows.trans ((Grows.jump _ e c a label).trans (Grows.moveTo _ hge))
  · obtain ⟨he, hjump⟩ := hg.of_moveTo.of_jump h.opened
    obtain ⟨hd, hcode⟩ := h.completed g he
    exact ⟨hd, ⟨e.here, hcode, hjump⟩, hreserved.here_moveTo⟩

theorem leave (hd : d.Open) (c : Surroundings) (depth target : Nat) (label : String) (loc : Span) :
    Lays d (d.leave c depth target label loc) fun g p _ => g.LeavesTo p target := by
  have hends := Lays.endStorage hd (c.bindingsAbove depth) loc
  rw [leave_eq]
  generalize d.endStorage (c.bindingsAbove depth) loc = e at hends
  have hinside : (e.jump c target label).current < (e.jump c target label).next := by
    simpa using hends.opened.inside
  have hreserved := reserved_addBlock hinside false
  have hle : d.next ≤ (e.jump c target label).next := by simpa using hends.grows.next
  refine ⟨hreserved.open_moveTo, ?_, fun g hg => ?_⟩
  · exact hends.grows.trans ((Grows.jump _ e c target label).trans
      (((Grows.addBlock _ false).mono hle).trans (Grows.moveTo _ hle)))
  · obtain ⟨he, hjump⟩ := hg.of_moveTo.of_addBlock.of_jump hends.opened
    obtain ⟨hd, hcloses⟩ := hends.completed g he
    exact ⟨hd, e.here, hcloses, hjump⟩

end Lays

/-- The draft at the start of the first of two ways: the other one and their meeting are set aside. -/
def forked (d : Draft) (t : Terminator) : Draft := ((d.addBlocks 3).terminate t).moveTo d.next

theorem reserved_forked (hd : d.Open) (t : Terminator) (hgt : d.next < b) (hlt : b < d.next + 3) :
    (d.forked t).Reserved b :=
  ((reserved_addBlocks hd.inside (Nat.le_of_lt hgt) hlt).terminate t).moveTo (Nat.ne_of_gt hgt)

/-- The draft at the header of a loop: its body and its exit are set aside. -/
def loopHead (d : Draft) (c : Surroundings) : Draft :=
  (((d.addBlock true).addBlocks 2).jump c d.next "loop").moveTo d.next

/-- The draft at the start of a loop's body. -/
def loopBody (d : Draft) (c inner : Surroundings) : Draft :=
  ((d.loopHead c).jump inner (d.next + 1) "body").moveTo (d.next + 1)

theorem reserved_addLoop (hd : d.Open) (hge : d.next ≤ b) (hlt : b < d.next + 3) :
    ((d.addBlock true).addBlocks 2).Reserved b := by
  have hinside := hd.inside
  by_cases hb : b = d.next
  · rw [hb]
    exact (Grows.addBlocks (d.next + 1) _ 2).reserved (Nat.lt_succ_self _) (reserved_addBlock hinside true)
  · apply reserved_addBlocks
    · simp only [current_addBlock, next_addBlock]
      omega
    · simp only [next_addBlock]
      omega
    · simp only [next_addBlock]
      omega

theorem reserved_loopHead (hd : d.Open) (c : Surroundings) (hgt : d.next < b) (hlt : b < d.next + 3) :
    (d.loopHead c).Reserved b :=
  ((reserved_addLoop hd (Nat.le_of_lt hgt) hlt).jump c d.next "loop").moveTo (Nat.ne_of_gt hgt)

theorem reserved_loopBody (hd : d.Open) (c inner : Surroundings) :
    (d.loopBody c inner).Reserved (d.next + 2) :=
  ((reserved_loopHead hd c (by omega) (by omega)).jump inner (d.next + 1) "body").moveTo (by omega)

namespace Lays

variable {code first second : Graph → Point → Point → Prop}

/-- Two ways that part in one block and meet in another. The second way and the block where they
meet stay set aside while the first is laid. -/
theorem fork (hd : d.Open) (c : Surroundings) (t : Terminator)
    (hyes : (d.forked t).Open → Lays (d.forked t) e first)
    (hno : ((e.jump c (d.next + 2) "join").moveTo (d.next + 1)).Open →
      Lays ((e.jump c (d.next + 2) "join").moveTo (d.next + 1)) f second) :
    Lays d ((f.jump c (d.next + 2) "join").moveTo (d.next + 2)) fun g p q =>
      ∃ yesEnd noEnd, g.EndsWith p t ∧ first g ⟨d.next, 0⟩ yesEnd ∧ g.JumpsTo yesEnd (d.next + 2) ∧
        second g ⟨d.next + 1, 0⟩ noEnd ∧ g.JumpsTo noEnd (d.next + 2) ∧ q = ⟨d.next + 2, 0⟩ := by
  have hstart := (Lays.addBlocks hd 3).terminate_moveTo t
    (reserved_addBlocks hd.inside (Nat.le_refl _) (by omega)) (Nat.le_refl _)
  have hfirst := hyes hstart.opened
  have hkept : ∀ b, d.next < b → b < d.next + 3 → e.Reserved b := fun b hgt hlt =>
    hfirst.grows.reserved (by simpa [forked] using hlt) (reserved_forked hd t hgt hlt)
  have hmid := (hstart.seq hfirst).jump_moveTo (a := d.next + 2) c "join"
    (hkept (d.next + 1) (by omega) (by omega)) (by omega)
  have hsecond := hno hmid.opened
  have hjoin : f.Reserved (d.next + 2) := by
    have hlast := hkept (d.next + 2) (by omega) (by omega)
    have hinside := hlast.inside
    exact hsecond.grows.reserved (by simpa using hinside) ((hlast.jump c _ _).moveTo (by omega))
  refine ((hmid.seq hsecond).jump_moveTo (a := d.next + 2) c "join" hjoin (by omega)).imp ?_
  rintro g p q ⟨⟨noEnd, ⟨_, ⟨⟨yesEnd, ⟨_, ⟨⟨_, rfl, ht⟩, rfl⟩, hfirst⟩, hyesJump⟩, rfl⟩, hsecond⟩, hnoJump⟩, rfl⟩
  exact ⟨yesEnd, noEnd, ht, hfirst, hyesJump, hsecond, hnoJump, rfl⟩

/-- A way that leads back to where it started; only jumps out of it lead on. -/
theorem cycle (hd : d.Open) (c inner : Surroundings)
    (hbody : (d.loopBody c inner).Open → Lays (d.loopBody c inner) e code) :
    Lays d ((e.jump inner d.next "loop").moveTo (d.next + 2)) fun g p q =>
      ∃ bodyEnd, g.JumpsTo p d.next ∧ g.JumpsTo ⟨d.next, 0⟩ (d.next + 1) ∧
        code g ⟨d.next + 1, 0⟩ bodyEnd ∧ g.JumpsTo bodyEnd d.next ∧ q = ⟨d.next + 2, 0⟩ := by
  have hhead := Lays.addBlock hd true
  have hadd := hhead.seq (Lays.addBlocks hhead.opened 2)
  have hatHeader := hadd.jump_moveTo (a := d.next) c "loop"
    (reserved_addLoop hd (Nat.le_refl _) (by omega)) (Nat.le_refl _)
  have hatBody := hatHeader.jump_moveTo (a := d.next + 1) (b := d.next + 1) inner "body"
    (reserved_loopHead hd c (by omega) (by omega)) (by omega)
  have hlaid := hbody hatBody.opened
  have hexit : e.Reserved (d.next + 2) :=
    hlaid.grows.reserved (by simp [loopBody, loopHead]) (reserved_loopBody hd c inner)
  refine ((hatBody.seq hlaid).jump_moveTo (a := d.next) inner "loop" hexit (by omega)).imp ?_
  rintro g p q ⟨⟨bodyEnd, ⟨_, ⟨⟨_, ⟨⟨_, ⟨_, rfl, rfl⟩, hjump⟩, rfl⟩, henter⟩, rfl⟩, hcode⟩, hback⟩, rfl⟩
  exact ⟨bodyEnd, hjump, henter, hcode, hback, rfl⟩

end Lays

end Draft

open Draft

/-- A conditional that is lowered ends the block with two edges, and lowers its two ways. -/
theorem lowerStmt_branch {c : Surroundings} {cond : Expr} {yes : Block} {no : Option Block} {loc : Span}
    {d e : Draft} (h : lowerStmt c (.branch cond yes no loc) d = .ok e) : ∃ t d₁ d₂,
      (t.edges = [⟨d.next, "then"⟩, ⟨d.next + 1, "else"⟩] ∧ t.cond = some cond ∧ t.scrutinee = none) ∧
      lowerBlock c yes (d.forked t) = .ok d₁ ∧
      lowerOptional c no ((d₁.jump c (d.next + 2) "join").moveTo (d.next + 1)) = .ok d₂ ∧
      e = (d₂.jump c (d.next + 2) "join").moveTo (d.next + 2) := by
  simp only [lowerStmtBy, bind_eq_ok, pure_eq, Except.ok.injEq] at h
  obtain ⟨d₁, hyes, d₂, hno, rfl⟩ := h
  exact ⟨_, d₁, d₂, ⟨rfl, rfl, rfl⟩, hyes, hno, rfl⟩

/-- A match that is lowered ends the block with a switch, and lowers its arms. -/
theorem lowerStmt_select {c : Surroundings} {scrutinee : Expr} {arms : List Arm} {loc : Span} {d e : Draft}
    (h : lowerStmt c (.select scrutinee arms loc) d = .ok e) : ∃ d₁, e = d₁.moveTo d.next ∧
      lowerArms c scrutinee d.next (d.next + 1) arms ((d.addBlocks (arms.length + 1)).terminate
        { kind := .switch, edges := arms.mapIdx fun i a => ⟨d.next + 1 + i, a.label⟩,
          scrutinee := some scrutinee, loc := loc }) = .ok d₁ := by
  unfold lowerStmtBy at h
  by_cases hplace : scrutinee.isPlace = true
  · by_cases hnone : arms.isEmpty = true
    · simp [hplace, hnone] at h
    · simp only [hplace, hnone, Bool.false_eq_true, if_true, if_false, bind_eq_ok, pure_eq,
        Except.ok.injEq] at h
      obtain ⟨d₁, harms, rfl⟩ := h
      exact ⟨d₁, rfl, harms⟩
  · simp [hplace] at h

/-- An arm that is lowered starts its block with its declarations, and ends it after its body. -/
theorem lowerArms_cons {c : Surroundings} {scrutinee : Expr} {join start : Nat} {variant : Option String}
    {body : Block} {bindings : List PayloadBinding} {loc : Span} {rest : List Arm} {d e : Draft}
    (h : lowerArms c scrutinee join start (.mk variant body bindings loc :: rest) d = .ok e) :
    ∃ d₁, lowerBlock (c.enterScope.declaring (bindings.map fun b => (b.id, b.name))) body
        (bindings.foldl (fun d b => d.emit (b.declaration scrutinee (variant.getD ""))) (d.moveTo start)) =
          .ok d₁ ∧
      lowerArms c scrutinee join (start + 1) rest
        ((d₁.endStorage (bindings.map fun b => (b.id, b.name)) body.loc).jump c join "join") = .ok e := by
  unfold lowerArmsBy at h
  by_cases hbinds : (variant.isNone && !bindings.isEmpty) = true
  · simp [hbinds] at h
  · simpa only [hbinds, Bool.false_eq_true, if_false, bind_eq_ok] using h

mutual

theorem lowerStmt_lays : ∀ (s : Stmt) {c : Surroundings} {d e : Draft}, d.Open →
    lowerStmt c s d = .ok e → Lays d e fun g => s.Laid g c
  | .declare name id value loc, c, d, e, hd, h => by
    obtain rfl := Except.ok.inj h
    simpa only [Stmt.Laid] using Lays.emit hd (.declare name id value loc)
  | .assign target value loc, c, d, e, hd, h => by
    obtain rfl := Except.ok.inj h
    simpa only [Stmt.Laid] using Lays.emit hd (.assign target value loc)
  | .eval expr loc, c, d, e, hd, h => by
    obtain rfl := Except.ok.inj h
    simpa only [Stmt.Laid] using Lays.emit hd (.eval expr loc)
  | .block body, c, d, e, hd, h => by
    simp only [lowerStmtBy] at h
    simpa only [Stmt.Laid] using lowerBlock_lays body hd h
  | .branch cond yes no loc, c, d, e, hd, h => by
    simp only [lowerStmtBy, bind_eq_ok, pure_eq, Except.ok.injEq] at h
    obtain ⟨d₁, hyes, d₂, hno, rfl⟩ := h
    refine (Lays.fork hd c _ (fun ho => lowerBlock_lays yes ho hyes)
      (fun ho => lowerOptional_lays no ho hno)).imp fun g p q hg => ?_
    obtain ⟨yesEnd, noEnd, hg⟩ := hg
    rw [Stmt.Laid]
    exact ⟨_, _, _, yesEnd, noEnd, hg⟩
  | .loop body loc, c, d, e, hd, h => by
    simp only [lowerStmtBy, bind_eq_ok, pure_eq, Except.ok.injEq] at h
    obtain ⟨d₁, hbody, rfl⟩ := h
    refine (Lays.cycle hd c _ fun ho => lowerBlock_lays body ho hbody).imp fun g p q hg => ?_
    obtain ⟨bodyEnd, hg⟩ := hg
    rw [Stmt.Laid]
    exact ⟨_, _, _, bodyEnd, hg⟩
  | .breakLoop loc, c, d, e, hd, h => by
    unfold lowerStmtBy at h
    split at h
    · cases h
    · rename_i l rest hloops
      obtain rfl := Except.ok.inj h
      refine (Lays.leave hd c l.depth l.exit "break" loc).imp fun g p q hg => ?_
      rw [Stmt.Laid]
      exact ⟨l, by rw [hloops]; rfl, hg⟩
  | .continueLoop loc, c, d, e, hd, h => by
    unfold lowerStmtBy at h
    split at h
    · cases h
    · rename_i l rest hloops
      obtain rfl := Except.ok.inj h
      refine (Lays.leave hd c l.depth l.header "continue" loc).imp fun g p q hg => ?_
      rw [Stmt.Laid]
      exact ⟨l, by rw [hloops]; rfl, hg⟩
  | .ret value loc, c, d, e, hd, h => by
    have hstores := Lays.emitAll hd (fun e => .assign (.var c.returnName returnSlot loc) e loc) value.toList
    have hleave := hstores.seq (Lays.leave hstores.opened c 0 c.exit "return" loc)
    simp only [Stmt.Laid]
    cases value with
    | none =>
      obtain rfl := Except.ok.inj h
      exact hleave
    | some value =>
      obtain rfl := Except.ok.inj h
      exact hleave
  | .select scrutinee arms loc, c, d, e, hd, h => by
    obtain ⟨d₁, rfl, harms⟩ := lowerStmt_select h
    have hset : ∀ t b, d.next ≤ b → b < d.next + (arms.length + 1) →
        ((d.addBlocks (arms.length + 1)).terminate t).Reserved b := fun t b hge hlt =>
      (reserved_addBlocks hd.inside hge hlt).terminate t
    obtain ⟨hgrows, hcompleted⟩ := lowerArms_lays arms (fun i hi => hset _ _ (by omega) (by omega)) harms
    have hjoin := hgrows.reserved (Nat.lt_succ_self d.next) (hset _ d.next (by omega) (by omega))
    have hadd := Lays.addBlocks hd (arms.length + 1)
    refine ⟨hjoin.open_moveTo, ?_, fun g hg => ?_⟩
    · exact hadd.grows.trans ((Grows.terminate _ _ _).trans ((hgrows.mono (Nat.le_succ _)).trans
        (Grows.moveTo _ (Nat.le_refl _))))
    · obtain ⟨hended, hlaid⟩ := hcompleted g hg.of_moveTo
      obtain ⟨hadded, hends⟩ := hended.of_terminate hadd.opened
      obtain ⟨hbefore, hhere⟩ := hadd.completed g hadded
      rw [Stmt.Laid, hhere]
      exact ⟨hbefore, d.next, hends, hlaid, hjoin.here_moveTo⟩
  | .storageDead id name loc, c, d, e, hd, h => by cases h
  | .foreign, c, d, e, hd, h => by cases h

theorem lowerStmts_lays : ∀ (ss : List Stmt) {c : Surroundings} {d e : Draft}, d.Open →
    lowerStmts c ss d = .ok e → Lays d e fun g => Stmt.LaidAll g c ss
  | [], c, d, e, hd, h => by
    obtain rfl := Except.ok.inj h
    simpa only [Stmt.LaidAll] using Lays.nil hd
  | s :: rest, c, d, e, hd, h => by
    simp only [lowerStmtsBy, bind_eq_ok] at h
    obtain ⟨d₁, hs, hrest⟩ := h
    have hfirst := lowerStmt_lays s hd hs
    simpa only [Stmt.LaidAll] using hfirst.seq (lowerStmts_lays rest hfirst.opened hrest)

theorem lowerBlock_lays : ∀ (b : Block) {c : Surroundings} {d e : Draft}, d.Open →
    lowerBlock c b d = .ok e → Lays d e fun g => b.Laid g c
  | .mk statements loc, c, d, e, hd, h => by
    simp only [lowerBlockBy, bind_eq_ok, pure_eq, Except.ok.injEq] at h
    obtain ⟨d₁, hall, rfl⟩ := h
    have hfirst := lowerStmts_lays statements hd hall
    simpa only [Block.Laid] using hfirst.seq (Lays.endStorage hfirst.opened (declaredIn statements) loc)

theorem lowerOptional_lays : ∀ (b : Option Block) {c : Surroundings} {d e : Draft}, d.Open →
    lowerOptional c b d = .ok e → Lays d e fun g => Block.LaidOptional g c b
  | none, c, d, e, hd, h => by
    obtain rfl := Except.ok.inj h
    simpa only [Block.LaidOptional] using Lays.nil hd
  | some b, c, d, e, hd, h => by
    simp only [lowerOptionalBy] at h
    simpa only [Block.LaidOptional] using lowerBlock_lays b hd h

theorem lowerArms_lays : ∀ (arms : List Arm) {c : Surroundings} {scrutinee : Expr} {join start : Nat}
    {d e : Draft}, (∀ i < arms.length, d.Reserved (start + i)) →
    lowerArms c scrutinee join start arms d = .ok e → Grows start d e ∧
      ∀ g, e.CompletedBy g → d.CompletedBy g ∧ Arm.LaidAll g c scrutinee join start arms
  | [], c, scrutinee, join, start, d, e, hr, h => by
    obtain rfl := Except.ok.inj h
    simp only [Arm.LaidAll]
    exact ⟨⟨Nat.le_refl _, fun _ _ _ => rfl, fun _ => rfl, .inl rfl⟩, fun g hg => ⟨hg, trivial⟩⟩
  | .mk variant body bindings loc :: rest, c, scrutinee, join, start, d, e, hr, h => by
    obtain ⟨d₁, hbody, hrest⟩ := lowerArms_cons h
    have hstart : d.Reserved start := hr 0 (by simp)
    have hlets := Lays.emitAll hstart.open_moveTo
      (fun b : PayloadBinding => b.declaration scrutinee (variant.getD "")) bindings
    have hlaid := lowerBlock_lays body hlets.opened hbody
    have harm := (hlets.seq hlaid).seq
      (Lays.endStorage hlaid.opened (bindings.map fun b => (b.id, b.name)) body.loc)
    have hjumped := (Grows.jump start (d₁.endStorage (bindings.map fun b => (b.id, b.name)) body.loc) c
      join "join")
    have hkept : ∀ i < rest.length, ((d₁.endStorage (bindings.map fun b => (b.id, b.name)) body.loc).jump c
        join "join").Reserved (start + 1 + i) := by
      intro i hi
      have hlater : d.Reserved (start + 1 + i) := by
        have hnext := hr (i + 1) (by simpa using hi)
        rwa [show start + (i + 1) = start + 1 + i by omega] at hnext
      exact (harm.grows.reserved hlater.inside (hlater.moveTo (by omega))).jump c join "join"
    obtain ⟨hgrows, hcompleted⟩ := lowerArms_lays rest hkept hrest
    refine ⟨?_, fun g hg => ?_⟩
    · exact (Grows.moveTo d (Nat.le_refl start)).trans ((harm.grows.mono (Nat.le_of_lt hstart.inside)).trans
        (hjumped.trans (hgrows.mono (Nat.le_succ _))))
    · obtain ⟨hafter, hothers⟩ := hcompleted g hg
      obtain ⟨hended, hjump⟩ := hafter.of_jump harm.opened
      obtain ⟨hbefore, r, ⟨q, hq, hr⟩, hcloses⟩ := harm.completed g hended
      rw [hstart.here_moveTo] at hq
      rw [Arm.LaidAll]
      exact ⟨hbefore.of_moveTo, ⟨q, r, hq, hr, _, hcloses, hjump⟩, hothers⟩

end

namespace Function

variable {f : Function} {g : Graph}

theorem open_firstDraft (f : Function) : f.firstDraft.Open := ⟨by simp [firstDraft, next], rfl⟩

/-- The draft that a graph is made of: the body, the end of all storage, and a jump to the exit. -/
theorem graph_draft (h : f.graph = .ok g) : ∃ d, lowerStmts f.surroundings f.body.statements f.firstDraft = .ok d ∧
    (∀ b, g.block b = ((d.endStorage (f.paramBindings ++ declaredIn f.body.statements) f.body.loc).jump
      f.surroundings 1 "return").block b) ∧ g.entry = 0 ∧ g.exit = 1 := by
  simp only [graph, graphBy, bind_eq_ok, pure_eq, Except.ok.injEq] at h
  obtain ⟨d, hd, rfl⟩ := h
  exact ⟨d, hd, fun _ => rfl, rfl, rfl⟩

/-- The block at each position of a graph has the position as its number. -/
theorem graph_numbered (h : f.graph = .ok g) (b : Nat) : (g.block b).id = b := by
  obtain ⟨d, hlower, hsame, _⟩ := graph_draft h
  have hbody := lowerStmts_lays f.body.statements f.open_firstDraft hlower
  have hends := Lays.endStorage hbody.opened (f.paramBindings ++ declaredIn f.body.statements) f.body.loc
  have hall := (hbody.grows.trans (hends.grows.mono hbody.grows.next)).trans (Grows.jump _ _ f.surroundings 1 "return")
  rw [hsame, hall.ids]
  rcases b with _ | _ | b
  · rfl
  · rfl
  · rw [block_of_next_le (by simp [next, firstDraft])]

/-- The marked blocks are those that the search does not list. -/
theorem mem_unreachable_of_graph (h : f.graph = .ok g) (b : Nat) :
    b ∈ g.unreachable ↔ b < g.blocks.length ∧ b ∉ g.reachable := by
  have hids : g.blocks.map BasicBlock.id = List.range g.blocks.length := by
    refine List.ext_getElem (by simp) fun i hi _ => ?_
    have hnumbered := graph_numbered h i
    rw [List.length_map] at hi
    rw [Graph.block, List.getElem?_eq_getElem hi] at hnumbered
    simpa using hnumbered
  rw [Graph.unreachable_of_graph h, hids]
  simp

/-- A finished graph holds the code of the body between its entry and its exit. -/
theorem graph_laid (h : f.graph = .ok g) : g.EndsWith ⟨g.exit, 0⟩ { kind := .ret, loc := f.loc } ∧
    ∃ q, Stmt.LaidAll g f.surroundings f.body.statements ⟨g.entry, 0⟩ q ∧ g.LeavesTo q g.exit := by
  obtain ⟨d, hlower, hsame, hentry, hexit⟩ := graph_draft h
  have hbody := lowerStmts_lays f.body.statements f.open_firstDraft hlower
  have hends := Lays.endStorage hbody.opened (f.paramBindings ++ declaredIn f.body.statements) f.body.loc
  have hdone : ((d.endStorage (f.paramBindings ++ declaredIn f.body.statements) f.body.loc).jump
      f.surroundings 1 "return").CompletedBy g :=
    ⟨fun b _ => hsame b, fun b => ⟨[], by rw [hsame, List.append_nil]⟩⟩
  obtain ⟨hended, hjump⟩ := hdone.of_jump hends.opened
  obtain ⟨hbefore, q, hlaid, hcloses⟩ := (hbody.seq hends).completed g hended
  have hreturn : g.block 1 = { id := 1, terminator := some { kind := .ret, loc := f.loc } } :=
    hbefore.ended 1 (by simp [firstDraft, Draft.block])
  rw [hentry, hexit]
  refine ⟨⟨?_, ?_⟩, q, hlaid, _, hcloses, hjump⟩
  · simp [Graph.last, hreturn]
  · simp [hreturn]

end Function

end Ownership
