import Mathlib
import RelationalLP.Proofs.Facts.Matching
import RelationalLP.Proofs.Grounding.Readings
import RelationalLP.Proofs.Grounding.Runs

/-! # Column keys

A column key stands for one ground decision atom, and it does so for good: columns are only added. In a
valid context every key that was handed out has its atom, and different keys have different ones. -/

namespace RelationalLP

/-- The place of a key holds it. -/
theorem OrderedIndex.getElem?_numberOf {α : Type} [Fingerprint α] [DecidableEq α]
    {i : OrderedIndex α} {key : α} (h : key ∈ i.items) : i.items[i.numberOf key]? = some key := by
  rw [numberOf_eq_idxOf, List.getElem?_eq_getElem (List.idxOf_lt_length_of_mem h),
    List.getElem_idxOf]

namespace GroundingContext

variable {K : Type} [Scalar K]

/-- The atom of a column key: the predicate that was declared there first, applied to the tuple seen at
that place. -/
def atomAt (ctx : GroundingContext K) (key : Position) : Option (Atom K) :=
  (ctx.model.decision[key.1]?).bind fun template =>
    if ctx.model.decisionIndex? template = some key.1 then
      ((ctx.columns.getD key.1 .empty).items[key.2]?).map fun t => ⟨template, t.map .const⟩
    else none

/-- The value of a column key under an assignment of the decision variables. -/
def valueAt (ctx : GroundingContext ℚ) (x : Atom ℚ → ℚ) (key : Position) : ℚ :=
  ((ctx.atomAt key).map x).getD 0

/-- **Valid contexts**: there is an index for each decision predicate, and each tuple in it makes a
column. -/
structure Valid (ctx : GroundingContext K) : Prop where
  /-- Every declared predicate has an index. -/
  length_eq : ctx.columns.length = ctx.model.decision.length
  /-- Every tuple belongs to an atom. -/
  named : ∀ t i, i < (ctx.columns.getD t .empty).items.length → (ctx.atomAt (t, i)).isSome

/-- **Growth**: columns may be added behind the others, and nothing else changes. -/
structure Grows (ctx ctx' : GroundingContext K) : Prop where
  /-- The model stays. -/
  model_eq : ctx'.model = ctx.model
  /-- Columns are added at the end. -/
  isPrefix : ∀ t, (ctx.columns.getD t .empty).items <+: (ctx'.columns.getD t .empty).items
  /-- A valid context stays valid. -/
  valid : ctx.Valid → ctx'.Valid

variable {ctx ctx' ctx'' : GroundingContext K}

theorem Grows.refl (ctx : GroundingContext K) : ctx.Grows ctx :=
  ⟨rfl, fun _ => List.prefix_refl _, id⟩

theorem Grows.trans (h : ctx.Grows ctx') (h' : ctx'.Grows ctx'') : ctx.Grows ctx'' :=
  ⟨h'.model_eq.trans h.model_eq, fun t => (h.isPrefix t).trans (h'.isPrefix t),
    fun hv => h'.valid (h.valid hv)⟩

/-! ### Keys and atoms -/

theorem atomAt_eq_some_iff {key : Position} {a : Atom K} : ctx.atomAt key = some a
    ↔ ctx.model.decision[key.1]? = some a.template
      ∧ ctx.model.decisionIndex? a.template = some key.1
      ∧ ∃ t, (ctx.columns.getD key.1 .empty).items[key.2]? = some t ∧ a.arguments = t.map .const := by
  rw [atomAt, Option.bind_eq_some_iff]
  constructor
  · rintro ⟨template, htemplate, ha⟩
    split at ha
    · rename_i hindex
      obtain ⟨t, ht, rfl⟩ := Option.map_eq_some_iff.mp ha
      exact ⟨htemplate, hindex, t, ht, rfl⟩
    · cases ha
  · rintro ⟨htemplate, hindex, t, ht, hargs⟩
    refine ⟨a.template, htemplate, ?_⟩
    rw [if_pos hindex, ht, Option.map_some, ← hargs]

/-- A key keeps its atom where columns are added behind the others. -/
theorem atomAt_of_isPrefix (hmodel : ctx'.model = ctx.model)
    (h : ∀ t, (ctx.columns.getD t .empty).items <+: (ctx'.columns.getD t .empty).items)
    {key : Position} {a : Atom K} (ha : ctx.atomAt key = some a) : ctx'.atomAt key = some a := by
  obtain ⟨htemplate, hindex, t, ht, hargs⟩ := atomAt_eq_some_iff.mp ha
  refine atomAt_eq_some_iff.mpr ⟨?_, ?_, t, ?_, hargs⟩
  · rwa [hmodel]
  · rwa [hmodel]
  · obtain ⟨hlt, -⟩ := List.getElem?_eq_some_iff.mp ht
    obtain ⟨added, hadded⟩ := h key.1
    rw [← hadded, List.getElem?_append_left hlt, ht]

theorem Grows.atomAt (h : ctx.Grows ctx') {key : Position} {a : Atom K}
    (ha : ctx.atomAt key = some a) : ctx'.atomAt key = some a :=
  atomAt_of_isPrefix h.model_eq h.isPrefix ha

/-- Different keys have different atoms. -/
theorem atomAt_inj {key key' : Position} {a : Atom K} (h : ctx.atomAt key = some a)
    (h' : ctx.atomAt key' = some a) : key = key' := by
  obtain ⟨-, hindex, t, ht, hargs⟩ := atomAt_eq_some_iff.mp h
  obtain ⟨-, hindex', t', ht', hargs'⟩ := atomAt_eq_some_iff.mp h'
  have hfirst : key.1 = key'.1 := Option.some.inj (hindex.symm.trans hindex')
  have htuple : t = t' := List.map_injective_iff.mpr (fun c d hcd => Term.const.inj hcd)
    (hargs.symm.trans hargs')
  rw [← hfirst, ← htuple] at ht'
  obtain ⟨hlt, -⟩ := List.getElem?_eq_some_iff.mp ht
  have hsecond : key.2 = key'.2 :=
    (List.getElem?_inj hlt (OrderedIndex.nodup_items _)).mp (ht.trans ht'.symm)
  exact Prod.ext hfirst hsecond

theorem valueAt_of_atomAt {ctx : GroundingContext ℚ} {key : Position} {a : Atom ℚ}
    (h : ctx.atomAt key = some a) (x : Atom ℚ → ℚ) : ctx.valueAt x key = x a := by
  rw [valueAt, h]
  rfl

/-! ### The empty context -/

theorem items_start (model : Model K) (t : ℕ) : ((start model).columns.getD t .empty).items = [] := by
  rw [start, List.getD_eq_getElem?_getD, List.getElem?_map]
  cases model.decision[t]? <;> rfl

theorem valid_start (model : Model K) : (start model).Valid := by
  refine ⟨List.length_map _, fun t i hi => ?_⟩
  rw [items_start] at hi
  exact absurd hi (Nat.not_lt_zero i)

/-- Before anything is grounded no key has an atom. -/
theorem atomAt_start (model : Model K) (key : Position) : (start model).atomAt key = none := by
  rw [Option.eq_none_iff_forall_ne_some]
  intro a ha
  obtain ⟨-, -, t, ht, -⟩ := atomAt_eq_some_iff.mp ha
  rw [items_start] at ht
  cases ht

/-! ### Handing out keys -/

/-- **Widening**: growth that leaves objective and rows alone. -/
structure Widens (ctx ctx' : GroundingContext K) : Prop extends ctx.Grows ctx' where
  /-- The objective stays. -/
  objective_eq : ctx'.objective = ctx.objective
  /-- The inequalities stay. -/
  inequalities_eq : ctx'.inequalities = ctx.inequalities
  /-- The equations stay. -/
  equalities_eq : ctx'.equalities = ctx.equalities

theorem Widens.refl (ctx : GroundingContext K) : ctx.Widens ctx := ⟨.refl ctx, rfl, rfl, rfl⟩

theorem Widens.trans (h : ctx.Widens ctx') (h' : ctx'.Widens ctx'') : ctx.Widens ctx'' :=
  ⟨h.toGrows.trans h'.toGrows, h'.objective_eq.trans h.objective_eq,
    h'.inequalities_eq.trans h.inequalities_eq, h'.equalities_eq.trans h.equalities_eq⟩

/-- The index of a predicate holds it, and is the first that does. -/
theorem decision_of_decisionIndex? {template : PredicateTemplate} {t : ℕ}
    (h : ctx.model.decisionIndex? template = some t) : ctx.model.decision[t]? = some template := by
  rw [Model.decisionIndex?, List.findIdx?_eq_some_iff_getElem] at h
  obtain ⟨hlt, hp, -⟩ := h
  rw [List.getElem?_eq_getElem hlt, of_decide_eq_true hp]

/-- A context with a tuple added to the index of a predicate. -/
def withTuple (ctx : GroundingContext K) (t : ℕ) (tuple : Tuple K) : GroundingContext K :=
  { ctx with columns := ctx.columns.set t ((ctx.columns.getD t .empty).insert tuple) }

@[simp] theorem model_withTuple (t : ℕ) (tuple : Tuple K) :
    (ctx.withTuple t tuple).model = ctx.model := rfl

theorem index_withTuple_self {t : ℕ} (ht : t < ctx.columns.length) (tuple : Tuple K) :
    (ctx.withTuple t tuple).columns.getD t .empty = (ctx.columns.getD t .empty).insert tuple := by
  rw [withTuple, List.getD_eq_getElem?_getD, List.getElem?_set_self ht, Option.getD_some]

theorem index_withTuple_of_ne {s t : ℕ} (hs : s ≠ t) (tuple : Tuple K) :
    (ctx.withTuple t tuple).columns.getD s .empty = ctx.columns.getD s .empty := by
  rw [withTuple, List.getD_eq_getElem?_getD, List.getElem?_set_ne (Ne.symm hs),
    ← List.getD_eq_getElem?_getD]

theorem items_isPrefix_withTuple {t : ℕ} (ht : t < ctx.columns.length) (tuple : Tuple K) (s : ℕ) :
    (ctx.columns.getD s .empty).items <+: ((ctx.withTuple t tuple).columns.getD s .empty).items := by
  by_cases hs : s = t
  · rw [hs, index_withTuple_self ht, OrderedIndex.items_insert, insertNew]
    split
    · exact List.prefix_refl _
    · exact List.prefix_append _ _
  · rw [index_withTuple_of_ne hs]

/-- A tuple of the changed index stands for an atom of its predicate. -/
theorem atomAt_withTuple {template : PredicateTemplate} {t : ℕ}
    (ht : ctx.model.decisionIndex? template = some t) (hlt : t < ctx.columns.length)
    {tuple added : Tuple K} {i : ℕ}
    (hi : ((ctx.columns.getD t .empty).insert added).items[i]? = some tuple) :
    (ctx.withTuple t added).atomAt (t, i) = some ⟨template, tuple.map .const⟩ :=
  atomAt_eq_some_iff.mpr ⟨decision_of_decisionIndex? ht, ht, tuple,
    by rw [index_withTuple_self hlt, hi], rfl⟩

/-- **Adding a tuple** widens a valid context. -/
theorem widens_withTuple (hv : ctx.Valid) {template : PredicateTemplate} {t : ℕ}
    (ht : ctx.model.decisionIndex? template = some t) (hlt : t < ctx.columns.length)
    (tuple : Tuple K) : ctx.Widens (ctx.withTuple t tuple) := by
  refine ⟨⟨rfl, items_isPrefix_withTuple hlt tuple, fun _ => ⟨?_, fun s i hi => ?_⟩⟩, rfl, rfl, rfl⟩
  · rw [withTuple, List.length_set, hv.length_eq]
  · by_cases hs : s = t
    · -- the new tuple has an atom, and so have the others of its predicate
      rw [hs, index_withTuple_self hlt] at hi
      rw [hs, atomAt_withTuple ht hlt (List.getElem?_eq_getElem hi)]
      rfl
    · -- the other predicates have their atoms as before
      rw [index_withTuple_of_ne hs] at hi
      obtain ⟨a, ha⟩ := Option.isSome_iff_exists.mp (hv.named s i hi)
      rw [atomAt_of_isPrefix (model_withTuple t tuple) (items_isPrefix_withTuple hlt tuple) ha]
      rfl

/-- Only the new tuple gives an atom that had no key. -/
theorem atomAt_of_atomAt_withTuple {t : ℕ} (hlt : t < ctx.columns.length) {tuple : Tuple K}
    {key : Position} {a : Atom K} (h : (ctx.withTuple t tuple).atomAt key = some a) :
    ctx.atomAt key = some a ∨ key.1 = t ∧ a.arguments = tuple.map .const := by
  obtain ⟨htemplate, hindex, row, hrow, hargs⟩ := atomAt_eq_some_iff.mp h
  by_cases hkey : key.1 = t
  · rw [hkey, index_withTuple_self hlt, OrderedIndex.items_insert, insertNew] at hrow
    split at hrow
    · exact .inl (atomAt_eq_some_iff.mpr ⟨htemplate, hindex, row, by rwa [hkey], hargs⟩)
    · rcases Nat.lt_or_ge key.2 (ctx.columns.getD t .empty).items.length with hold | hnew
      · rw [List.getElem?_append_left hold] at hrow
        exact .inl (atomAt_eq_some_iff.mpr ⟨htemplate, hindex, row, by rwa [hkey], hargs⟩)
      · rw [List.getElem?_append_right hnew] at hrow
        obtain rfl := List.mem_singleton.mp (List.mem_of_getElem? hrow)
        exact .inr ⟨hkey, hargs⟩
  · rw [index_withTuple_of_ne hkey] at hrow
    exact .inl (atomAt_eq_some_iff.mpr ⟨htemplate, hindex, row, hrow, hargs⟩)

/-- What a successful request for a column does: the tuple of the atom is added to the index of its
predicate. -/
theorem column_eq_ok_iff {a : Atom K} {key : Position} : ctx.column a = .ok (key, ctx')
    ↔ ∃ t tuple, ctx.model.decisionIndex? a.template = some t ∧ a.ground? = some tuple
      ∧ key = (t, ((ctx.columns.getD t .empty).insert tuple).numberOf tuple)
      ∧ ctx' = ctx.withTuple t tuple := by
  unfold column
  constructor
  · intro h
    split at h
    · cases h
    · rename_i t ht
      split at h
      · cases h
      · rename_i tuple htuple
        have hpair := Except.ok.inj h
        rw [Prod.mk.injEq] at hpair
        exact ⟨t, tuple, ht, htuple, hpair.1.symm, hpair.2.symm⟩
  · rintro ⟨t, tuple, ht, htuple, rfl, rfl⟩
    simp only [ht, htuple]
    rfl

/-- **A request for a column** widens a valid context. Afterwards the key stands for the atom, and no
other key has a new atom. -/
theorem widens_of_column (hv : ctx.Valid) {a : Atom K} {key : Position}
    (h : ctx.column a = .ok (key, ctx')) :
    ctx.Widens ctx' ∧ ctx'.atomAt key = some a
      ∧ ∀ {k b}, ctx'.atomAt k = some b → ctx.atomAt k = some b ∨ k = key ∧ b = a := by
  obtain ⟨t, tuple, ht, htuple, rfl, rfl⟩ := column_eq_ok_iff.mp h
  have hargs : a.arguments = tuple.map .const := Atom.ground?_eq_some_iff.mp htuple
  have hlt : t < ctx.columns.length := by
    rw [hv.length_eq]
    exact (List.getElem?_eq_some_iff.mp (decision_of_decisionIndex? ht)).1
  have hmem : tuple ∈ ((ctx.columns.getD t .empty).insert tuple).items := by
    rw [OrderedIndex.items_insert, mem_insertNew]
    exact .inr rfl
  have hkey := atomAt_withTuple ht hlt (OrderedIndex.getElem?_numberOf hmem)
  rw [← hargs] at hkey
  refine ⟨widens_withTuple hv ht hlt tuple, hkey, fun {k b} hk => ?_⟩
  rcases atomAt_of_atomAt_withTuple hlt hk with hold | ⟨hfirst, hbargs⟩
  · exact .inl hold
  · -- the atom has the predicate and the tuple of the one that was asked for, so it has its key
    have htemplate : b.template = a.template := by
      have hb := (atomAt_eq_some_iff.mp hk).1
      have ha := decision_of_decisionIndex? ht
      rw [model_withTuple, hfirst, ha] at hb
      exact (Option.some.inj hb).symm
    have hab : b = a := by
      obtain ⟨template, arguments⟩ := a
      obtain ⟨template', arguments'⟩ := b
      rw [Atom.mk.injEq]
      exact ⟨htemplate, hbargs.trans hargs.symm⟩
    rw [hab] at hk
    exact .inr ⟨atomAt_inj hk hkey, hab⟩

/-- **The key of a decision atom** stands for the ground atom under the binding. -/
theorem runs_column (hv : ctx.Valid) {a : Atom K} {b : Binding K} {key : Position}
    (h : GroundM.Runs (GroundM.column a b) ctx key ctx') :
    ctx.Widens ctx' ∧ ∃ g, a.groundAt b.get? = some g ∧ ctx'.atomAt key = some g := by
  rw [GroundM.column, GroundM.runs_update] at h
  obtain ⟨hwidens, hkey, -⟩ := widens_of_column hv h
  obtain ⟨-, tuple, -, htuple, -, -⟩ := column_eq_ok_iff.mp h
  have hground := Atom.ground?_substitute_eq_some_iff.mp htuple
  rw [Atom.substitute_of_groundAt hground] at hkey
  exact ⟨hwidens, _, hground, hkey⟩

end GroundingContext

end RelationalLP
