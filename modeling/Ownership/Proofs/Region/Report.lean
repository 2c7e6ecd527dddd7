import Mathlib.Data.List.Nodup
import Ownership.Proofs.Effect.Borrows
import Ownership.Proofs.Region.Variables
import Ownership.Proofs.Source.Names

/-!
What a region report holds. A report has one entry for each binding that carries
references and one for each borrow expression that control reaches, and nothing else. No
two entries have one key: names that several bindings share are told apart by ids, and
neither an id nor a loan can be mistaken for a name, since no name has their marks in it.
-/
namespace Ownership

open Outcome
open Relation (ReflTransGen)

theorem not_mem_toDigits {c : Char} (hc : c.isDigit = false) (n : Nat) : c ∉ Nat.toDigits 10 n := by
  intro hmem
  have hdigit := Nat.isDigit_of_mem_toDigits (by decide) (by decide) hmem
  rw [hc] at hdigit
  cases hdigit

theorem toDigits_inj {n m : Nat} (h : Nat.toDigits 10 n = Nat.toDigits 10 m) : n = m := by
  have hread := congrArg (Nat.ofDigitChars 10 · 0) h
  simpa only [Nat.ofDigitChars_ten_toDigits] using hread

/-- An id is written as its digits, after a sign if it is negative. -/
theorem toList_id (id : Int) : (toString id).toList =
    if 0 ≤ id then Nat.toDigits 10 id.toNat else '-' :: Nat.toDigits 10 (-id).toNat := by
  rw [Int.toString_eq_repr, Int.repr_eq_if]
  split
  · exact Nat.toList_repr
  · rw [String.toList_append, Nat.toList_repr]
    rfl

theorem not_mem_id {c : Char} (hc : c.isDigit = false) (hsign : c ≠ '-') (id : Int) :
    c ∉ (toString id).toList := by
  rw [toList_id]
  split
  · exact not_mem_toDigits hc _
  · exact List.not_mem_cons_of_ne_of_not_mem hsign (not_mem_toDigits hc _)

theorem id_inj {i j : Int} (h : (toString i).toList = (toString j).toList) : i = j := by
  have hunsigned : ∀ n m : Nat, Nat.toDigits 10 n ≠ '-' :: Nat.toDigits 10 m := by
    intro n m heq
    exact not_mem_toDigits (c := '-') (by decide) n (heq ▸ List.mem_cons_self)
  rw [toList_id, toList_id] at h
  split at h <;> split at h
  · have := toDigits_inj h
    omega
  · exact absurd h (hunsigned _ _)
  · exact absurd h.symm (hunsigned _ _)
  · have := toDigits_inj (List.cons.inj h).2
    omega

theorem Site.toList_render (s : Site) : s.render.toList = 'b' :: 'b' :: (Nat.toDigits 10 s.point.block ++
    '[' :: (Nat.toDigits 10 s.point.index ++ ']' :: '#' :: Nat.toDigits 10 s.ordinal)) := by
  simp [Site.render, Point.render]

theorem Site.render_inj {s t : Site} (h : s.render = t.render) : s = t := by
  have htext := congrArg String.toList h
  simp only [Site.toList_render, List.cons.injEq, true_and] at htext
  rw [List.append_cons_inj_of_notMem (not_mem_toDigits (by decide) _) (by simp [not_mem_toDigits])] at htext
  obtain ⟨hblock, _, htext⟩ := htext
  rw [List.append_cons_inj_of_notMem (not_mem_toDigits (by decide) _) (by simp [not_mem_toDigits])] at htext
  obtain ⟨hindex, _, hordinal⟩ := htext
  obtain ⟨⟨block, index⟩, ordinal⟩ := s
  obtain ⟨⟨block', index'⟩, ordinal'⟩ := t
  obtain rfl : block = block' := toDigits_inj hblock
  obtain rfl : index = index' := toDigits_inj hindex
  obtain rfl : ordinal = ordinal' := toDigits_inj (List.cons.inj hordinal).2
  rfl

/-- The mark that leads to an id can be told from what stands before it. -/
theorem toList_shared (name : String) (id : BindingId) :
    (name ++ "#" ++ toString id).toList = name.toList ++ '#' :: (toString id).toList := by
  simp

/-- No name has a mark in it. -/
theorem Context.IsRead.not_mem_name {cx : Context} (h : cx.IsRead) {id : BindingId} {b : Binding}
    (hb : cx.function.bindings.get? id = some b) : '#' ∉ b.name.toList ∧ '@' ∉ b.name.toList := by
  rcases h.binding_name hb with hname | hname
  · exact ⟨fun hmem => absurd (hname _ hmem) (by decide), fun hmem => absurd (hname _ hmem) (by decide)⟩
  · rw [hname]
    decide

/-- What a report has an entry for: a binding, or a borrow expression by its point and its position there. -/
inductive Reference where
  | binding (id : BindingId)
  | borrow (p : Point) (n : Nat)

/-- The binding carries references; control reaches the point, and it has a borrow expression at that position. -/
def Reference.Occurs (cx : Context) (g : Graph) : Reference → Prop
  | .binding id => ∃ b, cx.Carries id b
  | .borrow p n => ReflTransGen g.Follows ⟨g.entry, 0⟩ p ∧ n < (g.borrowsAt p).length

/-- The key of a binding is its name, unless another binding that carries references has it too; then the id
follows. -/
inductive Context.KeyOf (cx : Context) : BindingId → String → Prop where
  | alone {id : BindingId} {b : Binding} (hb : cx.Carries id b)
      (hname : ∀ other c, cx.Carries other c → c.name = b.name → other = id) : KeyOf cx id b.name
  | shared {id other : BindingId} {b c : Binding} (hb : cx.Carries id b) (hc : cx.Carries other c)
      (hname : c.name = b.name) (hne : other ≠ id) : KeyOf cx id (b.name ++ "#" ++ toString id)

/-- The entry of a reference. The key of a borrow expression is the site of its loan. The extent is the one that
the solution has for the variable of the binding or the loan. -/
inductive RegionSolution.Reports (sol : RegionSolution) (cx : Context) (g : Graph) (fx : EffectMap) :
    Reference → String × Extent → Prop where
  | binding {id : BindingId} {k : String} {v : RegionVar} {e : Extent} (hk : cx.KeyOf id k) (hv : cx.RegionOf id v)
      (he : sol.extents.get? v = some e) : Reports sol cx g fx (.binding id) (k, e)
  | loan {p : Point} {n : Nat} {site : Site} {e : Extent} (h : fx.LoanOf g p n site)
      (he : sol.extents.get? (.loan site) = some e) : Reports sol cx g fx (.borrow p n) ("loan@" ++ site.render, e)

/-- The points that are listed are those that control reaches. -/
theorem Graph.mem_allPoints_iff_follows {g : Graph} {p : Point} :
    p ∈ g.allPoints ↔ ReflTransGen g.Follows ⟨g.entry, 0⟩ p := by
  constructor
  · intro hp
    have hreach : ∃ s : Unit, g.Reaches (fun _ => True) (fun _ _ _ _ => True) p s :=
      exists_reaches ⟨(), trivial⟩ (fun _ _ _ => ⟨(), trivial⟩) hp
    clear hp
    obtain ⟨_, hreach⟩ := hreach
    induction hreach with
    | entry => exact .refl
    | next _ edge _ ih => exact ih.tail edge
  · intro hp
    induction hp with
    | refl => exact g.entry_mem_allPoints
    | tail _ edge ih =>
      obtain ⟨hblock, _⟩ := mem_allPoints.mp ih
      cases edge with
      | along hi => exact mem_allPoints.mpr ⟨hblock, hi⟩
      | across _ hc => exact mem_allPoints.mpr ⟨successors_reachable hblock hc, Nat.zero_le _⟩

namespace Context.KeyOf

variable {cx : Context} {i j id : BindingId} {k l : String}

theorem carries (h : cx.KeyOf id k) : ∃ b, cx.Carries id b := by
  cases h with
  | alone hb | shared hb => exact ⟨_, hb⟩

theorem at_not_mem (hread : cx.IsRead) (h : cx.KeyOf id k) : '@' ∉ k.toList := by
  cases h with
  | alone hb => exact (hread.not_mem_name hb.1).2
  | shared hb =>
    rw [toList_shared, List.mem_append, List.mem_cons, not_or, not_or]
    exact ⟨(hread.not_mem_name hb.1).2, by decide, not_mem_id (by decide) (by decide) _⟩

theorem unique (hk : cx.KeyOf id k) (hl : cx.KeyOf id l) : k = l := by
  cases hk with
  | alone hb hname =>
    cases hl with
    | alone hb' => rw [Option.some.inj (hb.1.symm.trans hb'.1)]
    | shared hb' hc hsame hne =>
      rw [Option.some.inj (hb'.1.symm.trans hb.1)] at hsame
      exact absurd (hname _ _ hc hsame) hne
  | shared hb hc hsame hne =>
    cases hl with
    | alone hb' hname =>
      rw [Option.some.inj (hb.1.symm.trans hb'.1)] at hsame
      exact absurd (hname _ _ hc hsame) hne
    | shared hb' => rw [Option.some.inj (hb.1.symm.trans hb'.1)]

/-- Two bindings have different keys. A bare name has no mark in it, so it is no key with an id. -/
theorem inj (hread : cx.IsRead) (hi : cx.KeyOf i k) (hj : cx.KeyOf j l) (hkey : k = l) : i = j := by
  have hbare : ∀ {id other : BindingId} {b : Binding} {name : String}, cx.Carries id b →
      b.name ≠ name ++ "#" ++ toString other := by
    intro id other b name hb heq
    apply (hread.not_mem_name hb.1).1
    rw [heq, toList_shared]
    exact List.mem_append_right _ List.mem_cons_self
  cases hi with
  | alone hb hname =>
    cases hj with
    | alone hc => exact (hname j _ hc hkey.symm).symm
    | shared => exact absurd hkey (hbare hb)
  | shared hb =>
    cases hj with
    | alone hc => exact absurd hkey.symm (hbare hc)
    | shared =>
      have htext := congrArg String.toList hkey
      rw [toList_shared, toList_shared, List.append_cons_inj_of_notMem (hread.not_mem_name hb.1).1
        (not_mem_id (by decide) (by decide) i)] at htext
      exact id_inj htext.2.2

end Context.KeyOf

namespace RegionSolution.Reports

variable {sol : RegionSolution} {cx : Context} {g : Graph} {fx : EffectMap} {x y : Reference} {a b : String × Extent}

/-- Two references that occur have different keys. -/
theorem eq_of_key (hread : cx.IsRead) (hfx : cx.effects g = .ok fx) (hx : x.Occurs cx g) (hy : y.Occurs cx g)
    (ha : sol.Reports cx g fx x a) (hb : sol.Reports cx g fx y b) (hkey : a.1 = b.1) : x = y := by
  have hmark : ∀ site : Site, '@' ∈ ("loan@" ++ site.render).toList := by simp
  cases ha with
  | binding hk =>
    cases hb with
    | binding hl => rw [hk.inj hread hl hkey]
    | loan =>
      obtain rfl := hkey
      exact absurd (hmark _) (hk.at_not_mem hread)
  | loan hn =>
    cases hb with
    | binding hl =>
      obtain rfl := hkey
      exact absurd (hmark _) (hl.at_not_mem hread)
    | loan hm =>
      have hp := Graph.mem_allPoints_iff_follows.mpr hx.1
      have hq := Graph.mem_allPoints_iff_follows.mpr hy.1
      rw [← Site.render_inj ((String.append_right_inj "loan@").mp hkey)] at hm
      obtain rfl := (Context.access_of_loanOf hfx hp hn).2.symm.trans (Context.access_of_loanOf hfx hq hm).2
      rw [Context.loanOf_position hfx hp hn hm]

/-- A reference has one entry. -/
theorem unique (hsol : sol.Describes cx g fx) (ha : sol.Reports cx g fx x a) (hb : sol.Reports cx g fx x b) :
    a = b := by
  cases ha with
  | binding hk hv hd =>
    cases hb with
    | binding hl hw he =>
      have hvar := (hsol.holder.mpr ⟨hk.carries, hv⟩).symm.trans (hsol.holder.mpr ⟨hk.carries, hw⟩)
      rw [Option.some.inj hvar, he] at hd
      rw [hk.unique hl, Option.some.inj hd]
  | loan hn hd =>
    cases hb with
    | loan hm he =>
      rw [hn.unique hm] at hd ⊢
      rw [Option.some.inj (hd.symm.trans he)]

end RegionSolution.Reports

/-- A value is counted once exactly when no other member has it. -/
theorem count_map_eq_one {α β : Type} [BEq β] [LawfulBEq β] (f : α → β) {xs : List α} (hnodup : xs.Nodup) {x : α}
    (hx : x ∈ xs) : (xs.map f).count (f x) = 1 ↔ ∀ y ∈ xs, f y = f x → y = x := by
  obtain ⟨before, after, rfl⟩ := List.append_of_mem hx
  obtain ⟨hnew, _⟩ := List.nodup_cons.mp (List.nodup_middle.mp hnodup)
  have hcount : ((before ++ x :: after).map f).count (f x) = ((before ++ after).map f).count (f x) + 1 := by
    simp only [List.map_append, List.map_cons, List.count_append, List.count_cons_self]
    omega
  rw [hcount, Nat.add_eq_right, List.count_eq_zero, List.mem_map]
  constructor
  · intro hnone y hy hyx
    by_contra hne
    refine hnone ⟨y, ?_, hyx⟩
    simp only [List.mem_append, List.mem_cons] at hy ⊢
    exact hy.imp_right fun h => h.resolve_left hne
  · rintro hall ⟨y, hy, hyx⟩
    have hmem : y ∈ before ++ x :: after := by
      simp only [List.mem_append, List.mem_cons] at hy ⊢
      exact hy.imp_right .inr
    exact hnew (hall y hmem hyx ▸ hy)

namespace OrderedMap

variable {κ ν : Type} [DecidableEq κ]

/-- Where no key comes with two values, the map has just the listed entries. -/
theorem mem_ofList {es : List (κ × ν)} (h : ∀ x ∈ es, ∀ y ∈ es, x.1 = y.1 → x = y) {e : κ × ν} :
    e ∈ (ofList es).entries ↔ e ∈ es := by
  constructor
  · refine List.foldlRecOn (motive := fun m : OrderedMap κ ν => e ∈ m.entries → e ∈ es) es _ (by simp) ?_
    intro m hm x hx he
    rcases mem_insertInto he with rfl | he
    · exact hx
    · exact hm he
  · intro he
    have hget : ∀ (xs : List (κ × ν)) (m : OrderedMap κ ν), (∀ x ∈ xs, x.1 = e.1 → x = e) →
        e ∈ xs ∨ m.get? e.1 = some e.2 → (xs.foldl (fun m p => m.insert p.1 p.2) m).get? e.1 = some e.2 := by
      intro xs
      induction xs with
      | nil => exact fun m _ hor => hor.resolve_left List.not_mem_nil
      | cons x xs ih =>
        intro m hsame hor
        obtain ⟨hx, hxs⟩ := List.forall_mem_cons.mp hsame
        refine ih _ hxs ?_
        by_cases hk : x.1 = e.1
        · rw [hx hk]
          exact .inr (get?_insert_self m e.1 e.2)
        · rw [get?_insert_other m x.2 (Ne.symm hk)]
          exact hor.imp_left fun hmem => (List.mem_cons.mp hmem).resolve_left fun heq => hk (heq ▸ rfl)
    exact mem_entries_of_get? (hget es {} (fun x hx hk => h x hx e he hk) (.inl he))

end OrderedMap

namespace RegionSolution

variable {sol : RegionSolution} {cx : Context} {g : Graph} {fx : EffectMap}

/-- The entries of the bindings that have a region. -/
def bindingEntries (sol : RegionSolution) : List (String × Extent) :=
  sol.holdersById.map fun x => (reportName (sol.holdersById.map (·.2.1)) x.1 x.2.1, sol.extent x.2.2)

/-- The entries of the loans. -/
def loanEntries (sol : RegionSolution) : List (String × Extent) :=
  (sol.extents.entries.filter (·.1.isLoan)).map fun x => (x.1.render, x.2)

theorem regionMap_eq (sol : RegionSolution) : sol.regionMap = .ofList (sol.bindingEntries ++ sol.loanEntries) := rfl

theorem nodup_holdersById (sol : RegionSolution) : (sol.holdersById.map Prod.fst).Nodup := by
  have hkeys := sol.frame.holders.distinct
  unfold holdersById
  rw [((sortBy_perm _ _).map _).nodup_iff]
  simp only [List.Nodup, List.pairwise_map, List.pairwise_filterMap] at hkeys ⊢
  refine hkeys.imp fun hne x hx y hy heq => hne ?_
  obtain ⟨_, _, rfl⟩ := Option.map_eq_some_iff.mp hx
  obtain ⟨_, _, rfl⟩ := Option.map_eq_some_iff.mp hy
  exact heq

theorem extent_solved {v : RegionVar} (hv : v ∈ sol.extents.keys) : sol.extents.get? v = some (sol.extent v) := by
  obtain ⟨e, he⟩ := OrderedMap.mem_keys.mp hv
  rw [extent, he, Option.getD_some]

section

variable (hsol : sol.Describes cx g fx)

include hsol

theorem mem_holdersById {id : BindingId} {name : String} {v : RegionVar} : (id, name, v) ∈ sol.holdersById ↔
    sol.frame.holders.get? id = some v ∧ ∃ b, cx.Carries id b ∧ b.name = name := by
  simp only [holdersById, mem_sortBy, List.mem_filterMap, Option.map_eq_some_iff, hsol.function]
  constructor
  · rintro ⟨⟨id', v'⟩, hmem, b, hb, heq⟩
    obtain ⟨rfl, rfl, rfl⟩ : id' = id ∧ b.name = name ∧ v' = v := by simpa using heq
    have hheld := OrderedMap.get?_eq_some_of_mem hmem
    obtain ⟨⟨b', hb'⟩, _⟩ := hsol.holder.mp hheld
    obtain rfl := Option.some.inj (hb.symm.trans hb'.1)
    exact ⟨hheld, b, hb', rfl⟩
  · rintro ⟨hheld, b, hb, rfl⟩
    exact ⟨(id, v), OrderedMap.mem_entries_of_get? hheld, b, hb.1, rfl⟩

/-- A binding that holds a variable is reported. -/
theorem reports_holder {id : BindingId} {name : String} {v : RegionVar} (hmem : (id, name, v) ∈ sol.holdersById) :
    sol.Reports cx g fx (.binding id) (reportName (sol.holdersById.map (·.2.1)) id name, sol.extent v) := by
  have hids := nodup_holdersById sol
  have hcount := count_map_eq_one (fun x : BindingId × String × RegionVar => x.2.1) hids.of_map hmem
  obtain ⟨hheld, b, hb, rfl⟩ := (mem_holdersById hsol).mp hmem
  have hregion := (hsol.holder.mp hheld).2
  have hsolved := extent_solved (hsol.solved hheld)
  unfold reportName
  split
  · rename_i hone
    refine .binding (.alone hb fun other c hc hname => ?_) hregion hsolved
    obtain ⟨w, hw⟩ := hsol.held hc
    have hother := hcount.mp hone (other, c.name, w) ((mem_holdersById hsol).mpr ⟨hw, c, hc, rfl⟩) hname
    exact congrArg Prod.fst hother
  · rename_i hmany
    obtain ⟨⟨other, _, w⟩, hother, hname, hne⟩ : ∃ y ∈ sol.holdersById, y.2.1 = b.name ∧ y ≠ (id, b.name, v) := by
      by_contra hnone
      exact hmany (hcount.mpr fun y hy hname => by_contra fun hne => hnone ⟨y, hy, hname, hne⟩)
    obtain ⟨_, c, hc, rfl⟩ := (mem_holdersById hsol).mp hother
    refine .binding (.shared hb hc hname ?_) hregion hsolved
    rintro rfl
    exact hne (List.inj_on_of_nodup_map hids hother hmem rfl)

variable (hread : cx.IsRead) (hfx : cx.effects g = .ok fx)

include hfx

/-- The loan of a variable is that of a borrow expression, which is reported. -/
theorem reports_loan {v : RegionVar} {e : Extent} (hmem : (v, e) ∈ sol.extents.entries) (hloan : v.isLoan = true) :
    ∃ p n, (Reference.borrow p n).Occurs cx g ∧ sol.Reports cx g fx (.borrow p n) (v.render, e) := by
  cases v with
  | loan site =>
    obtain ⟨p, hp, a, ha, hl⟩ := hsol.loans.mp (List.mem_map_of_mem hmem)
    obtain ⟨n, hn, hof⟩ := Context.loanOf_of_access hfx hp ha hl
    exact ⟨p, n, ⟨Graph.mem_allPoints_iff_follows.mp hp, hn⟩, .loan hof (OrderedMap.get?_eq_some_of_mem hmem)⟩
  | aggregate | binding | call | universal => cases hloan

/-- What is written is the entry of a reference that occurs. -/
theorem exists_reference {entry : String × Extent} (hentry : entry ∈ sol.bindingEntries ++ sol.loanEntries) :
    ∃ x : Reference, x.Occurs cx g ∧ sol.Reports cx g fx x entry := by
  rcases List.mem_append.mp hentry with hentry | hentry
  · obtain ⟨⟨id, name, v⟩, hmem, rfl⟩ := List.mem_map.mp hentry
    obtain ⟨_, b, hb, _⟩ := (mem_holdersById hsol).mp hmem
    exact ⟨.binding id, ⟨b, hb⟩, reports_holder hsol hmem⟩
  · obtain ⟨⟨v, e⟩, hmem, rfl⟩ := List.mem_map.mp hentry
    obtain ⟨hmem, hloan⟩ := List.mem_filter.mp hmem
    obtain ⟨p, n, hoccurs, hreports⟩ := reports_loan hsol hfx hmem hloan
    exact ⟨.borrow p n, hoccurs, hreports⟩

/-- A reference that occurs has an entry. -/
theorem exists_entry {x : Reference} (hx : x.Occurs cx g) :
    ∃ entry ∈ sol.bindingEntries ++ sol.loanEntries, sol.Reports cx g fx x entry := by
  cases x with
  | binding id =>
    obtain ⟨b, hb⟩ := hx
    obtain ⟨v, hv⟩ := hsol.held hb
    have hmem := (mem_holdersById hsol).mpr ⟨hv, b, hb, rfl⟩
    exact ⟨_, List.mem_append_left _ (List.mem_map_of_mem hmem), reports_holder hsol hmem⟩
  | borrow p n =>
    obtain ⟨hreach, hn⟩ := hx
    have hp := Graph.mem_allPoints_iff_follows.mpr hreach
    obtain ⟨site, hof⟩ := Context.exists_loanOf hfx hp hn
    obtain ⟨a, ha, hl⟩ := (Context.access_of_loanOf hfx hp hof).1
    have hsolved := extent_solved (hsol.loans.mpr ⟨p, hp, a, ha, hl⟩)
    refine ⟨_, List.mem_append_right _ (List.mem_map.mpr ⟨(.loan site, sol.extent (.loan site)), ?_, rfl⟩),
      .loan hof hsolved⟩
    exact List.mem_filter.mpr ⟨OrderedMap.mem_entries_of_get? hsolved, rfl⟩

include hread

/-- The report keeps what is written. -/
theorem mem_regionMap {entry : String × Extent} :
    entry ∈ sol.regionMap.entries ↔ entry ∈ sol.bindingEntries ++ sol.loanEntries := by
  rw [regionMap_eq]
  refine OrderedMap.mem_ofList fun a ha b hb hkey => ?_
  obtain ⟨x, hx, hax⟩ := exists_reference hsol hfx ha
  obtain ⟨y, hy, hby⟩ := exists_reference hsol hfx hb
  obtain rfl := hax.eq_of_key hread hfx hx hy hby hkey
  exact hax.unique hsol hby

end

end RegionSolution

/-- A report loses nothing. Every binding that carries references and every borrow expression that control reaches
has exactly one entry, with the extent that was solved for it; every entry is that of exactly one of them; and no key
stands for two. -/
theorem regionMap_lossless {cx : Context} (hread : cx.IsRead) {graph : Except Fault Graph} {limit : Option Int}
    {sol : RegionSolution} (h : (cx.analyze cx.ownSignature graph limit).solution = .ok sol) :
    ∃ g fx, graph = .ok g ∧ cx.effects g = .ok fx ∧
      (∀ x : Reference, x.Occurs cx g → ∃! entry, entry ∈ sol.regionMap.entries ∧ sol.Reports cx g fx x entry) ∧
      (∀ entry ∈ sol.regionMap.entries, ∃! x : Reference, x.Occurs cx g ∧ sol.Reports cx g fx x entry) ∧
      sol.regionMap.keys.Nodup := by
  obtain ⟨g, fx, hg, hfx, hsol⟩ := Context.solution_describes hread h
  refine ⟨g, fx, hg, hfx, fun x hx => ?_, fun entry hentry => ?_, OrderedMap.nodup_keys _⟩
  · obtain ⟨entry, hentry, hreports⟩ := RegionSolution.exists_entry hsol hfx hx
    refine ⟨entry, ⟨(RegionSolution.mem_regionMap hsol hread hfx).mpr hentry, hreports⟩, ?_⟩
    rintro other ⟨_, hother⟩
    exact hother.unique hsol hreports
  · obtain ⟨x, hx, hreports⟩ := RegionSolution.exists_reference hsol hfx
      ((RegionSolution.mem_regionMap hsol hread hfx).mp hentry)
    refine ⟨x, ⟨hx, hreports⟩, ?_⟩
    rintro y ⟨hy, hother⟩
    exact hother.eq_of_key hread hfx hy hx hreports rfl

/-- Two blocks in turn have a binding with the name of the parameter. -/
def reusedName : Context :=
  Context.ofText ("fn f(a: &Int) -> &Int \x7b let x = 1; \x7b let a = &x; \x7d " ++
    "let b = &x; \x7b let a = &*b; \x7d return a; \x7d") "f"

/-- Whether the binding carries references, and a report has these keys. -/
def Context.reportsKeys (cx : Context) (id : BindingId) (keys : List String) : Bool :=
  (cx.function.bindings.get? id).any (fun b => (cx.types.carriesRefs (some b.ty)).toOption = some true) &&
    (cx.analyze cx.ownSignature cx.function.graph none).solution.toOption.any (·.regionMap.keys = keys)

/-- The three bindings of one name have keys of their own, and so has each of the three loans. -/
theorem regionMap_lossless_reusedName : reusedName.IsRead ∧ ∃ sol g fx,
    (reusedName.analyze reusedName.ownSignature reusedName.function.graph none).solution = .ok sol ∧
      reusedName.function.graph = .ok g ∧ reusedName.effects g = .ok fx ∧
      sol.regionMap.keys =
        ["<return>", "a#1", "a#3", "b", "a#5", "loan@bb0[1]#0", "loan@bb0[3]#0", "loan@bb0[4]#0"] ∧
      sol.regionMap.keys.Nodup ∧
      ∃! entry, entry ∈ sol.regionMap.entries ∧ sol.Reports reusedName g fx (.binding 5) entry := by
  obtain ⟨hread, htest⟩ : reusedName.IsRead ∧ reusedName.reportsKeys 5
      ["<return>", "a#1", "a#3", "b", "a#5", "loan@bb0[1]#0", "loan@bb0[3]#0", "loan@bb0[4]#0"] = true :=
    Context.ofText_of_any (t := (·.reportsKeys 5 _)) (by decide +kernel)
  simp only [Context.reportsKeys, Bool.and_eq_true, Option.any_eq_true, decide_eq_true_eq] at htest
  obtain ⟨⟨b, hb, hc⟩, sol, hsol, hkeys⟩ := htest
  have hsol := eq_ok_of_toOption hsol
  obtain ⟨g, fx, hg, hfx, hentry, _, hnodup⟩ := regionMap_lossless hread hsol
  exact ⟨hread, sol, g, fx, hsol, hg, hfx, hkeys, hnodup, hentry (.binding 5) ⟨b, hb, eq_ok_of_toOption hc⟩⟩

end Ownership
