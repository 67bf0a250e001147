import Mathlib
import RelationalLP.Proofs.Grounding.Keys

/-! # The layout of columns

Finishing lays the columns of the predicates out one after another. Every column then belongs to one
key, and so to one ground decision atom. -/

namespace RelationalLP

/-! ### Places in indices one after another -/

namespace OrderedIndex

variable {α : Type} [Fingerprint α]

/-- The number of a key is its place. -/
theorem get?_eq_some_iff [DecidableEq α] {index : OrderedIndex α} {key : α} {n : ℕ} :
    index.get? key = some n ↔ index.items[n]? = some key := by
  rw [get?_eq_idxOf?, List.idxOf?_eq_some_iff, List.getElem?_eq_some_iff]
  constructor
  · rintro ⟨hlt, hkey, -⟩
    exact ⟨hlt, hkey⟩
  · rintro ⟨hlt, hkey⟩
    refine ⟨hlt, hkey, fun i hi heq => ?_⟩
    have hplace := (index.nodup_items.getElem_inj_iff).mp (heq.trans hkey.symm)
    omega

/-- A place in one of the indices is a place in all of them together. -/
theorem place_lt {is : List (OrderedIndex α)} {t i : ℕ} (h : i < (is.getD t .empty).size) :
    totalSize (is.take t) + i < totalSize is := by
  induction is generalizing t with
  | nil => exact absurd h (Nat.not_lt_zero i)
  | cons index rest ih =>
    cases t with
    | zero =>
      have hi : i < index.size := h
      rw [List.take_zero, totalSize, totalSize]
      omega
    | succ t =>
      have hrest := ih (t := t) h
      rw [List.take_succ_cons, totalSize, totalSize]
      omega

/-- Different places stay different. -/
theorem place_inj {is : List (OrderedIndex α)} {t s i j : ℕ} (hi : i < (is.getD t .empty).size)
    (hj : j < (is.getD s .empty).size)
    (h : totalSize (is.take t) + i = totalSize (is.take s) + j) : t = s ∧ i = j := by
  induction is generalizing t s with
  | nil => exact absurd hi (Nat.not_lt_zero i)
  | cons index rest ih =>
    cases t with
    | zero =>
      have hi : i < index.size := hi
      cases s with
      | zero =>
        rw [List.take_zero] at h
        exact ⟨rfl, by omega⟩
      -- the first place is within the first index, the second one behind it
      | succ s =>
        rw [List.take_zero, List.take_succ_cons, totalSize, totalSize] at h
        omega
    | succ t =>
      cases s with
      | zero =>
        have hj : j < index.size := hj
        rw [List.take_zero, List.take_succ_cons, totalSize, totalSize] at h
        omega
      -- both are behind the first index
      | succ s =>
        rw [List.take_succ_cons, List.take_succ_cons, totalSize, totalSize] at h
        obtain ⟨hts, hij⟩ := ih hi hj (by omega)
        exact ⟨congrArg Nat.succ hts, hij⟩

/-- Every place in all of the indices is a place in one of them. -/
theorem exists_place {is : List (OrderedIndex α)} {j : ℕ} (h : j < totalSize is) :
    ∃ t i, i < (is.getD t .empty).size ∧ totalSize (is.take t) + i = j := by
  induction is generalizing j with
  | nil => exact absurd h (Nat.not_lt_zero j)
  | cons index rest ih =>
    rw [totalSize] at h
    by_cases hj : j < index.size
    · exact ⟨0, j, hj, Nat.zero_add j⟩
    · obtain ⟨t, i, hi, heq⟩ := ih (j := j - index.size) (by omega)
      refine ⟨t + 1, i, hi, ?_⟩
      rw [List.take_succ_cons, totalSize]
      omega

end OrderedIndex

/-! ### Columns of keys -/

variable {K : Type} [Scalar K]

/-- The block of a predicate starts behind those before it. -/
theorem ColumnMap.find?_layout (offset : ℕ) (ps : List (PredicateTemplate × OrderedIndex (Tuple K)))
    (template : PredicateTemplate) :
    (layout offset ps).find? (·.template = template)
      = (ps.findIdx? (·.1 = template)).map fun t =>
        ⟨template, offset + OrderedIndex.totalSize ((ps.map Prod.snd).take t),
          (ps.map Prod.snd).getD t .empty⟩ := by
  induction ps generalizing offset with
  | nil => rfl
  | cons p ps ih =>
    obtain ⟨first, index⟩ := p
    rw [layout, List.find?_cons, List.findIdx?_cons]
    by_cases hfirst : first = template
    · simp [hfirst, OrderedIndex.totalSize]
    · rw [decide_eq_false hfirst]
      simp only [ih, Bool.false_eq_true, if_false, Option.map_map]
      congr 1
      funext t
      simp [OrderedIndex.totalSize, Nat.add_assoc]

namespace GroundingContext

variable {ctx : GroundingContext K} {key key' : Position} {a b : Atom K}

/-- The key of an atom is a place in the index of its predicate. -/
theorem place_of_atomAt (h : ctx.atomAt key = some a) :
    key.2 < (ctx.columns.getD key.1 .empty).size := by
  obtain ⟨-, -, t, ht, -⟩ := atomAt_eq_some_iff.mp h
  rw [OrderedIndex.size_eq_length]
  exact (List.getElem?_eq_some_iff.mp ht).1

theorem columnOf_lt (h : ctx.atomAt key = some a) : ctx.columnOf key < ctx.columnCount :=
  OrderedIndex.place_lt (place_of_atomAt h)

/-- Different keys have different columns. -/
theorem columnOf_inj (h : ctx.atomAt key = some a) (h' : ctx.atomAt key' = some b)
    (heq : ctx.columnOf key = ctx.columnOf key') : key = key' := by
  obtain ⟨hfirst, hsecond⟩ :=
    OrderedIndex.place_inj (place_of_atomAt h) (place_of_atomAt h') heq
  exact Prod.ext hfirst hsecond

/-- Every column belongs to the key of an atom. -/
theorem exists_key (hv : ctx.Valid) {j : ℕ} (h : j < ctx.columnCount) :
    ∃ key a, ctx.atomAt key = some a ∧ ctx.columnOf key = j := by
  obtain ⟨t, i, hi, hj⟩ := OrderedIndex.exists_place h
  rw [OrderedIndex.size_eq_length] at hi
  obtain ⟨a, ha⟩ := Option.isSome_iff_exists.mp (hv.named t i hi)
  exact ⟨(t, i), a, ha, hj⟩

/-- **The column of a decision atom** is that of its key. -/
theorem column?_finish (hv : ctx.Valid) {j : ℕ} :
    ctx.finish.columns.column? a = some j ↔ ∃ key, ctx.atomAt key = some a ∧ ctx.columnOf key = j := by
  have hsnd : (ctx.model.decision.zip ctx.columns).map Prod.snd = ctx.columns :=
    List.map_snd_zip hv.length_eq.le
  have hindex : (ctx.model.decision.zip ctx.columns).findIdx? (·.1 = a.template)
      = ctx.model.decisionIndex? a.template := by
    have hfst : (ctx.model.decision.zip ctx.columns).map Prod.fst = ctx.model.decision :=
      List.map_fst_zip hv.length_eq.ge
    rw [Model.decisionIndex?, ← hfst, List.findIdx?_map, hfst]
    rfl
  -- the blocks are laid out in the order of the declarations
  have hblock : ctx.finish.columns.blocks.find? (·.template = a.template)
      = (ctx.model.decisionIndex? a.template).map fun t =>
        ⟨a.template, ctx.offset t, ctx.columns.getD t .empty⟩ := by
    show (ColumnMap.layout 0 _).find? _ = _
    rw [ColumnMap.find?_layout, hindex, hsnd]
    simp only [Nat.zero_add]
    rfl
  rw [ColumnMap.column?, hblock]
  constructor
  · intro h
    cases ht : ctx.model.decisionIndex? a.template with
    | none => rw [ht] at h; cases h
    | some t =>
      cases hg : a.ground? with
      | none => rw [ht, hg] at h; cases h
      | some tuple =>
        rw [ht, hg] at h
        obtain ⟨i, hi, hj⟩ := Option.map_eq_some_iff.mp h
        exact ⟨(t, i), atomAt_eq_some_iff.mpr ⟨decision_of_decisionIndex? ht, ht, tuple,
          OrderedIndex.get?_eq_some_iff.mp hi, Atom.ground?_eq_some_iff.mp hg⟩, hj⟩
  · rintro ⟨key, hkey, rfl⟩
    obtain ⟨-, ht, tuple, htuple, hargs⟩ := atomAt_eq_some_iff.mp hkey
    rw [ht, Atom.ground?_eq_some_iff.mpr hargs]
    exact Option.map_eq_some_iff.mpr ⟨key.2, OrderedIndex.get?_eq_some_iff.mpr htuple, rfl⟩

theorem column?_lt (hv : ctx.Valid) {j : ℕ} (h : ctx.finish.columns.column? a = some j) :
    j < ctx.columnCount := by
  obtain ⟨key, hkey, rfl⟩ := (column?_finish hv).mp h
  exact columnOf_lt hkey

/-- Different atoms have different columns. -/
theorem column?_inj (hv : ctx.Valid) {j : ℕ} (ha : ctx.finish.columns.column? a = some j)
    (hb : ctx.finish.columns.column? b = some j) : a = b := by
  obtain ⟨key, hkey, hj⟩ := (column?_finish hv).mp ha
  obtain ⟨key', hkey', hj'⟩ := (column?_finish hv).mp hb
  obtain rfl := columnOf_inj hkey hkey' (hj.trans hj'.symm)
  exact Option.some.inj (hkey.symm.trans hkey')

/-- Every column is that of an atom. -/
theorem exists_column? (hv : ctx.Valid) {j : ℕ} (h : j < ctx.columnCount) :
    ∃ a, ctx.finish.columns.column? a = some j := by
  obtain ⟨key, a, hkey, hj⟩ := exists_key hv h
  exact ⟨a, (column?_finish hv).mpr ⟨key, hkey, hj⟩⟩

end GroundingContext

end RelationalLP
