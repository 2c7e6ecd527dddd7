/-!
Computations that may fail. A sequence of steps succeeds exactly when each of
its steps does, so a successful run can be taken apart into its steps.
-/
namespace Ownership.Outcome

variable {ε α β : Type}

@[simp] theorem pure_eq (a : α) : (pure a : Except ε α) = .ok a := rfl

@[simp] theorem bind_eq_ok {x : Except ε α} {f : α → Except ε β} {b : β} :
    (x >>= f) = .ok b ↔ ∃ a, x = .ok a ∧ f a = .ok b := by
  cases x with
  | error e => simp [bind, Except.bind]
  | ok a => simp [bind, Except.bind]

@[simp] theorem map_eq_ok {x : Except ε α} {f : α → β} {b : β} :
    x.map f = .ok b ↔ ∃ a, x = .ok a ∧ f a = b := by
  cases x with
  | error e => simp [Except.map]
  | ok a => simp [Except.map]

@[simp] theorem throw_ne_ok (e : ε) (a : α) : (throw e : Except ε α) ≠ .ok a := by
  intro h
  cases h

theorem eq_some_of_elim_eq_ok {o : Option α} {e : ε} {a : α} (h : o.elim (.error e) Except.ok = .ok a) :
    o = some a := by
  cases o with
  | none => cases h
  | some b => rw [Except.ok.inj h]

theorem eq_ok_of_toOption {x : Except ε α} {a : α} (h : x.toOption = some a) : x = .ok a := by
  cases x with
  | error e => simp [Except.toOption] at h
  | ok b => simpa [Except.toOption] using h

theorem eq_ok_getD {x : Except ε α} (d : α) (h : x.toOption.isSome = true) :
    x = .ok (x.toOption.getD d) := by
  cases x with
  | error e => simp [Except.toOption] at h
  | ok b => rfl

theorem exists_eq_ok {x : Except ε α} (h : x.toOption.isSome = true) : ∃ a, x = .ok a := by
  cases x with
  | error e => simp [Except.toOption] at h
  | ok a => exact ⟨a, rfl⟩

/-- A successful traversal has a successful result for every item, in order. -/
theorem mapM_eq_ok {f : α → Except ε β} {xs : List α} {ys : List β} (h : xs.mapM f = .ok ys) :
    (∀ x ∈ xs, ∃ y ∈ ys, f x = .ok y) ∧ ∀ y ∈ ys, ∃ x ∈ xs, f x = .ok y := by
  induction xs generalizing ys with
  | nil =>
    simp only [List.mapM_nil, pure_eq, Except.ok.injEq] at h
    subst h
    simp
  | cons x xs ih =>
    simp only [List.mapM_cons, bind_eq_ok, pure_eq, Except.ok.injEq] at h
    obtain ⟨y, hy, rest, hrest, rfl⟩ := h
    obtain ⟨hl, hr⟩ := ih hrest
    constructor
    · intro z hz
      rcases List.mem_cons.mp hz with rfl | hz
      · exact ⟨y, List.mem_cons_self, hy⟩
      · obtain ⟨u, hu, he⟩ := hl z hz
        exact ⟨u, List.mem_cons_of_mem y hu, he⟩
    · intro z hz
      rcases List.mem_cons.mp hz with rfl | hz
      · exact ⟨x, List.mem_cons_self, hy⟩
      · obtain ⟨u, hu, he⟩ := hr z hz
        exact ⟨u, List.mem_cons_of_mem x hu, he⟩

/-- What each step makes of its input stands in the order of the inputs. -/
theorem map_of_mapM {γ : Type} {f : α → Except ε β} {k : β → γ} {j : α → γ} {xs : List α} {ys : List β}
    (h : xs.mapM f = .ok ys) (hf : ∀ x ∈ xs, ∀ y, f x = .ok y → k y = j x) : ys.map k = xs.map j := by
  induction xs generalizing ys with
  | nil =>
    obtain rfl := Except.ok.inj h
    rfl
  | cons x xs ih =>
    simp only [List.mapM_cons, bind_eq_ok, pure_eq, Except.ok.injEq] at h
    obtain ⟨y, hy, zs, hzs, rfl⟩ := h
    rw [List.map_cons, List.map_cons, hf x List.mem_cons_self y hy,
      ih hzs fun z hz => hf z (List.mem_cons_of_mem x hz)]

theorem filterAuxM_eq_ok {f : α → Except ε Bool} {xs acc ys : List α}
    (h : List.filterAuxM f xs acc = .ok ys) : acc ⊆ ys ∧
      (∀ y ∈ ys, (y ∈ xs ∧ f y = .ok true) ∨ y ∈ acc) ∧
      ∀ x ∈ xs, ∃ c, f x = .ok c ∧ (c = true → x ∈ ys) := by
  induction xs generalizing acc with
  | nil =>
    obtain rfl := Except.ok.inj h
    exact ⟨fun _ hy => hy, fun y hy => .inr hy, by simp⟩
  | cons x xs ih =>
    simp only [List.filterAuxM, bind_eq_ok] at h
    obtain ⟨c, hc, h⟩ := h
    obtain ⟨hacc, hsub, hall⟩ := ih h
    have hmem : ∀ y, y ∈ acc → y ∈ cond c (x :: acc) acc := by
      intro y hy
      cases c with
      | false => exact hy
      | true => exact List.mem_cons_of_mem x hy
    refine ⟨fun y hy => hacc (hmem y hy), fun y hy => ?_, fun y hy => ?_⟩
    · rcases hsub y hy with ⟨hy, htrue⟩ | hy
      · exact .inl ⟨List.mem_cons_of_mem x hy, htrue⟩
      · cases c with
        | false => exact .inr hy
        | true =>
          rcases List.mem_cons.mp hy with rfl | hy
          · exact .inl ⟨List.mem_cons_self, hc⟩
          · exact .inr hy
    · rcases List.mem_cons.mp hy with rfl | hy
      · refine ⟨c, hc, fun htrue => hacc ?_⟩
        subst htrue
        exact List.mem_cons_self
      · exact hall y hy

/-- A successful filter keeps the items whose test succeeds with `true`, and no test fails. -/
theorem filterM_eq_ok {f : α → Except ε Bool} {xs ys : List α} (h : xs.filterM f = .ok ys) :
    (∀ y ∈ ys, y ∈ xs ∧ f y = .ok true) ∧ ∀ x ∈ xs, ∃ c, f x = .ok c ∧ (c = true → x ∈ ys) := by
  simp only [List.filterM, bind_eq_ok, pure_eq, Except.ok.injEq] at h
  obtain ⟨zs, hzs, rfl⟩ := h
  obtain ⟨_, hsub, hall⟩ := filterAuxM_eq_ok hzs
  refine ⟨fun y hy => (hsub y (List.mem_reverse.mp hy)).resolve_right (by simp), fun x hx => ?_⟩
  obtain ⟨c, hc, hin⟩ := hall x hx
  exact ⟨c, hc, fun htrue => List.mem_reverse.mpr (hin htrue)⟩

/-- What every successful step of a fold keeps holds at its end. -/
theorem foldlM_invariant {f : β → α → Except ε β} (inv : β → Prop) {xs : List α}
    (hstep : ∀ b x c, x ∈ xs → inv b → f b x = .ok c → inv c) {b c : β} (hb : inv b)
    (h : xs.foldlM f b = .ok c) : inv c := by
  induction xs generalizing b with
  | nil =>
    simp only [List.foldlM_nil, pure_eq, Except.ok.injEq] at h
    exact h ▸ hb
  | cons x xs ih =>
    simp only [List.foldlM_cons, bind_eq_ok] at h
    obtain ⟨d, hd, hrest⟩ := h
    exact ih (fun b y c hy => hstep b y c (List.mem_cons_of_mem x hy))
      (hstep b x d List.mem_cons_self hb hd) hrest

end Ownership.Outcome
