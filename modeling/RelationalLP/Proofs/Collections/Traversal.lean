import Mathlib

/-! # Traversals that may fail

Applying a partial function along a list gives a list exactly when it gives each item its result. -/

namespace RelationalLP

variable {α β ε : Type}

/-- A computation of two steps succeeds when both do. -/
theorem bind_eq_ok_iff {x : Except ε α} {f : α → Except ε β} {b : β} :
    (x >>= f) = .ok b ↔ ∃ a, x = .ok a ∧ f a = .ok b := by
  cases x with
  | error e => exact iff_of_false nofun fun ⟨_, h, _⟩ => nomatch h
  | ok a =>
    constructor
    · intro h
      exact ⟨a, rfl, h⟩
    · rintro ⟨a', ha, h⟩
      rwa [← Except.ok.inj ha] at h

/-- It fails with the error of the first step, or with that of the second. -/
theorem bind_eq_error_iff {x : Except ε α} {f : α → Except ε β} {e : ε} :
    (x >>= f) = .error e ↔ x = .error e ∨ ∃ a, x = .ok a ∧ f a = .error e := by
  cases x with
  | error e' => simp [bind, Except.bind]
  | ok a => simp [bind, Except.bind]

/-- A result is mapped exactly when it is there. -/
theorem map_eq_ok_iff {x : Except ε α} {f : α → β} {b : β} :
    x.map f = .ok b ↔ ∃ a, x = .ok a ∧ f a = b := by
  cases x with
  | error e => exact iff_of_false nofun fun ⟨_, h, _⟩ => nomatch h
  | ok a => simp [Except.map]

/-- An error stays the same. -/
theorem map_eq_error_iff {x : Except ε α} {f : α → β} {e : ε} :
    x.map f = .error e ↔ x = .error e := by
  cases x <;> simp [Except.map]

/-- A computation of two steps over no effects succeeds when both do. -/
theorem exceptT_bind_eq_ok_iff {x : ExceptT ε Id α} {f : α → ExceptT ε Id β} {b : β} :
    (x >>= f) = .ok b ↔ ∃ a, x = .ok a ∧ f a = .ok b := by
  constructor
  · intro h
    match x with
    | .ok a => exact ⟨a, rfl, h⟩
    | .error e => exact nomatch h
  · rintro ⟨a, rfl, h⟩
    exact h

theorem liftExcept_eq_ok_iff {x : Except ε α} {a : α} :
    (liftExcept x : ExceptT ε Id α) = .ok a ↔ x = .ok a := by
  cases x with
  | error e => exact iff_of_false nofun nofun
  | ok b => exact Iff.rfl

theorem eq_ok_of_toOption_eq_some {x : Except ε α} {a : α} (h : x.toOption = some a) : x = .ok a := by
  cases x with
  | error e => cases h
  | ok b => exact congrArg Except.ok (Option.some.inj h)

/-- A computation with an observed result has a result, and it is observed there. -/
theorem exists_eq_ok_of_map_toOption {x : Except ε α} {f : α → β} {b : β}
    (h : x.toOption.map f = some b) : ∃ a, x = .ok a ∧ f a = b := by
  obtain ⟨a, ha, hfa⟩ := Option.map_eq_some_iff.mp h
  exact ⟨a, eq_ok_of_toOption_eq_some ha, hfa⟩

theorem exists_eq_ok_of_isSome_toOption {x : Except ε α} (h : x.toOption.isSome = true) :
    ∃ a, x = .ok a := by
  obtain ⟨a, ha⟩ := Option.isSome_iff_exists.mp h
  exact ⟨a, eq_ok_of_toOption_eq_some ha⟩

/-- Adding up takes one value after another. -/
theorem foldlM_add_cons_eq_ok_iff [Add β] {f : α → ExceptT ε Id β} {x : α} {xs : List α} {a b : β} :
    (x :: xs).foldlM (fun total x => do return total + (← f x)) a = .ok b ↔
      ∃ v, f x = .ok v ∧ xs.foldlM (fun total x => do return total + (← f x)) (a + v) = .ok b := by
  rw [List.foldlM_cons, exceptT_bind_eq_ok_iff]
  constructor
  · rintro ⟨_, hfirst, hrest⟩
    obtain ⟨v, hv, hadd⟩ := exceptT_bind_eq_ok_iff.mp hfirst
    obtain rfl := Except.ok.inj hadd
    exact ⟨v, hv, hrest⟩
  · rintro ⟨v, hv, hrest⟩
    exact ⟨a + v, exceptT_bind_eq_ok_iff.mpr ⟨v, hv, rfl⟩, hrest⟩

/-- A traversal in `Option` succeeds item by item. -/
theorem mapM_eq_some_iff {f : α → Option β} {xs : List α} {ys : List β} :
    xs.mapM f = some ys ↔ List.Forall₂ (fun x y => f x = some y) xs ys := by
  induction xs generalizing ys with
  | nil =>
    rw [List.mapM_nil, List.forall₂_nil_left_iff]
    exact ⟨fun h => (Option.some.inj h).symm, fun h => congrArg some h.symm⟩
  | cons x xs ih =>
    rw [List.mapM_cons, List.forall₂_cons_left_iff]
    cases hx : f x with
    | none => simp
    | some y =>
      cases hxs : xs.mapM f with
      | none =>
        simp only [hxs, false_iff, reduceCtorEq] at ih
        simp [ih]
      | some zs =>
        simp only [hxs, Option.some.injEq] at ih
        simp [← ih, eq_comm]

/-- A traversal in `Except` succeeds item by item. -/
theorem mapM_eq_ok_iff {f : α → Except ε β} {xs : List α} {ys : List β} :
    xs.mapM f = .ok ys ↔ List.Forall₂ (fun x y => f x = .ok y) xs ys := by
  induction xs generalizing ys with
  | nil =>
    rw [List.mapM_nil, List.forall₂_nil_left_iff]
    exact ⟨fun h => (Except.ok.inj h).symm, fun h => congrArg Except.ok h.symm⟩
  | cons x xs ih =>
    rw [List.mapM_cons, List.forall₂_cons_left_iff]
    cases hx : f x with
    | error e => simp [bind, Except.bind]
    | ok y =>
      cases hxs : xs.mapM f with
      | error e =>
        simp only [hxs, false_iff, reduceCtorEq] at ih
        simp [ih, bind, Except.bind]
      | ok zs =>
        simp only [hxs, Except.ok.injEq] at ih
        simp [← ih, eq_comm, bind, Except.bind, pure, Except.pure]

/-- A traversal depends on the values of the function along the list. -/
theorem mapM_congr {m : Type → Type} [Monad m] [LawfulMonad m] {f g : α → m β} {xs : List α}
    (h : ∀ x ∈ xs, f x = g x) : xs.mapM f = xs.mapM g := by
  induction xs with
  | nil => rfl
  | cons x xs ih =>
    rw [List.mapM_cons, List.mapM_cons, h x List.mem_cons_self,
      ih fun y hy => h y (List.mem_cons_of_mem x hy)]

/-- A traversal gives mapped results when each item does. -/
theorem mapM_eq_map_of_forall {β' : Type} {m : Type → Type} [Monad m] [LawfulMonad m] {f : α → m β}
    {f' : α → m β'} {g : β → β'} {xs : List α} (hf : ∀ x ∈ xs, f' x = g <$> f x) :
    xs.mapM f' = List.map g <$> xs.mapM f := by
  induction xs with
  | nil => rw [List.mapM_nil, List.mapM_nil, map_pure, List.map_nil]
  | cons x xs ih =>
    rw [List.mapM_cons, List.mapM_cons, hf x List.mem_cons_self,
      ih fun y hy => hf y (List.mem_cons_of_mem x hy)]
    simp only [map_eq_pure_bind, bind_assoc, pure_bind, List.map_cons]

/-- Related lists map alike when related items do. -/
theorem map_eq_map_of_forall₂ {γ : Type} {rel : α → β → Prop} {xs : List α} {ys : List β}
    (h : List.Forall₂ rel xs ys) {f : β → γ} {g : α → γ}
    (hfg : ∀ x ∈ xs, ∀ y, rel x y → f y = g x) : ys.map f = xs.map g := by
  induction h with
  | nil => rfl
  | cons hxy _ ih =>
    rw [List.map_cons, List.map_cons, hfg _ List.mem_cons_self _ hxy,
      ih fun x hx => hfg x (List.mem_cons_of_mem _ hx)]

/-- Related lists give the same joined lists when related items do. -/
theorem flatMap_eq_flatMap_of_forall₂ {γ : Type} {rel : α → β → Prop} {xs : List α} {ys : List β}
    (h : List.Forall₂ rel xs ys) {f : β → List γ} {g : α → List γ}
    (hfg : ∀ x ∈ xs, ∀ y, rel x y → f y = g x) : ys.flatMap f = xs.flatMap g := by
  rw [List.flatMap_def, List.flatMap_def, map_eq_map_of_forall₂ h hfg]

/-- A list related item by item to the values of a function is the list of these values. -/
theorem eq_map_of_forall₂ {rel : α → β → Prop} {xs : List α} {ys : List β}
    (h : List.Forall₂ rel xs ys) {f : α → β} (hf : ∀ x ∈ xs, ∀ y, rel x y → y = f x) :
    ys = xs.map f := by
  rw [← map_eq_map_of_forall₂ h hf, List.map_id']

/-- An item of the first list is related to an item of the second one. -/
theorem exists_of_forall₂_left {rel : α → β → Prop} {xs : List α} {ys : List β}
    (h : List.Forall₂ rel xs ys) {x : α} (hx : x ∈ xs) : ∃ y ∈ ys, rel x y := by
  induction h with
  | nil => exact absurd hx List.not_mem_nil
  | @cons x' y xs ys hxy _ ih =>
    rcases List.mem_cons.mp hx with rfl | hx
    · exact ⟨y, List.mem_cons_self, hxy⟩
    · obtain ⟨y', hy', hxy'⟩ := ih hx
      exact ⟨y', List.mem_cons_of_mem y hy', hxy'⟩

/-- An item of the second list is related to an item of the first one. -/
theorem exists_of_forall₂_right {rel : α → β → Prop} {xs : List α} {ys : List β}
    (h : List.Forall₂ rel xs ys) {y : β} (hy : y ∈ ys) : ∃ x ∈ xs, rel x y :=
  exists_of_forall₂_left h.flip hy

/-- Items related through a list between them. -/
theorem forall₂_comp {γ : Type} {rel : α → β → Prop} {rel' : β → γ → Prop} {rel'' : α → γ → Prop}
    {xs : List α} {ys : List β} {zs : List γ} (h : List.Forall₂ rel xs ys)
    (h' : List.Forall₂ rel' ys zs)
    (hrel : ∀ x ∈ xs, ∀ y z, rel x y → rel' y z → rel'' x z) : List.Forall₂ rel'' xs zs := by
  induction h generalizing zs with
  | nil =>
    rw [List.forall₂_nil_left_iff.mp h']
    exact .nil
  | cons hxy _ ih =>
    obtain ⟨z, rest, hyz, hrest, rfl⟩ := List.forall₂_cons_left_iff.mp h'
    exact .cons (hrel _ List.mem_cons_self _ _ hxy hyz)
      (ih hrest fun x hx => hrel x (List.mem_cons_of_mem _ hx))

/-- What related items have, all items of the second list have. -/
theorem forall_mem_of_forall₂ {rel : α → β → Prop} {P : β → Prop} {xs : List α} {ys : List β}
    (h : List.Forall₂ rel xs ys) (hP : ∀ x ∈ xs, ∀ y, rel x y → P y) : ∀ y ∈ ys, P y := by
  induction h with
  | nil => exact nofun
  | cons hxy _ ih =>
    rw [List.forall_mem_cons]
    exact ⟨hP _ List.mem_cons_self _ hxy, ih fun x hx => hP x (List.mem_cons_of_mem _ hx)⟩

/-- Items of related lists all have their properties together. -/
theorem forall_mem_iff_of_forall₂ {rel : α → β → Prop} {P : α → Prop} {Q : β → Prop} {xs : List α}
    {ys : List β} (h : List.Forall₂ rel xs ys) (hPQ : ∀ x ∈ xs, ∀ y, rel x y → (P x ↔ Q y)) :
    (∀ x ∈ xs, P x) ↔ ∀ y ∈ ys, Q y := by
  induction h with
  | nil => exact iff_of_true nofun nofun
  | cons hxy _ ih =>
    rw [List.forall_mem_cons, List.forall_mem_cons, hPQ _ List.mem_cons_self _ hxy,
      ih fun x hx => hPQ x (List.mem_cons_of_mem _ hx)]

/-- A list of items that are related to something is related to a list. -/
theorem exists_forall₂_of_forall_mem {rel : α → β → Prop} {xs : List α} (h : ∀ x ∈ xs, ∃ y, rel x y) :
    ∃ ys, List.Forall₂ rel xs ys := by
  induction xs with
  | nil => exact ⟨[], .nil⟩
  | cons x xs ih =>
    obtain ⟨⟨y, hy⟩, hxs⟩ := List.forall_mem_cons.mp h
    obtain ⟨ys, hys⟩ := ih hxs
    exact ⟨y :: ys, .cons hy hys⟩

/-- A traversal in options gives a list when each item has a result. -/
theorem isSome_mapM_iff {f : α → Option β} {xs : List α} :
    (xs.mapM f).isSome ↔ ∀ x ∈ xs, (f x).isSome := by
  simp only [Option.isSome_iff_exists, mapM_eq_some_iff]
  constructor
  · rintro ⟨ys, hys⟩ x hx
    obtain ⟨y, -, hy⟩ := exists_of_forall₂_left hys hx
    exact ⟨y, hy⟩
  · exact exists_forall₂_of_forall_mem

/-- A function of the second items alone, zipped along related lists. -/
theorem zipWith_eq_map_of_forall₂ {γ : Type} {rel : α → β → Prop} {xs : List α} {ys : List β}
    (h : List.Forall₂ rel xs ys) (f : β → γ) : List.zipWith (fun _ y => f y) xs ys = ys.map f := by
  induction h with
  | nil => rfl
  | cons _ _ ih => rw [List.zipWith_cons_cons, ih, List.map_cons]

/-- A function of related items is related to the first ones when it is for each pair. -/
theorem forall₂_zipWith_right {γ : Type} {rel : α → β → Prop} {rel' : α → γ → Prop} {f : α → β → γ}
    {xs : List α} {ys : List β} (h : List.Forall₂ rel xs ys) (hf : ∀ x y, rel x y → rel' x (f x y)) :
    List.Forall₂ rel' xs (List.zipWith f xs ys) := by
  induction h with
  | nil => exact .nil
  | cons hxy _ ih => exact .cons (hf _ _ hxy) ih

end RelationalLP
