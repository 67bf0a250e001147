import Mathlib
import RelationalLP.Facts.Answering
import RelationalLP.Proofs.Logic.ConstantValues

/-! # Stored rows

A fact base is filled by a sequence of calls, and keeps the keys of the rows of each relation apart. Keys
are equal when the cells have equal values, except that a real beyond the bound of whole numbers is not
stored as the integer that it is. -/

namespace RelationalLP

/-! ### Keys of cells -/

namespace Constant

/-- Whether a constant is a real that is not stored as an integer for being too great. -/
def isPastBound {K : Type} [Scalar K] : Constant K → Bool
  | real v => !decide (Scalar.abs v < (wholeBound : K))
  | _ => false

/-- **Cells that are stored alike**: they have the same value, and both are reals past the bound or neither
is. -/
def StoredAlike {K : Type} [Scalar K] (a b : Constant K) : Prop :=
  a.sameValue b = true ∧ a.isPastBound = b.isPastBound

variable {n : ℤ} {v w : Double}

theorem isPastBound_real :
    (real v).isPastBound = false ↔ Scalar.abs v < (wholeBound : Double) := by
  rw [isPastBound, Bool.not_eq_false', decide_eq_true_eq]

/-- A real below the bound has less than the bound's units. -/
theorem units_lt_of_abs_lt (h : Scalar.abs v < (wholeBound : Double)) :
    v.units < 9000000000000000 * Double.unitsOfOne := by
  have hexact : 9000000000000000 < 2 ^ 53 := by decide
  obtain ⟨-, hunits, hsign⟩ := Double.units_ofNat hexact
  have hlt := Double.magnitude_lt_of_abs_lt hsign h
  rw [← hunits]
  exact Double.unitsOf_strictMono (UInt64.lt_iff_toNat_lt.mp hlt)

/-- An integer has the value of a real below the bound when it is this real. -/
theorem numEq_ofInt_iff (h : Scalar.abs v < (wholeBound : Double)) :
    (Double.ofInt n).numEq v = true ↔ v.toInt? = some n := by
  have hv := units_lt_of_abs_lt h
  rcases Nat.lt_or_ge n.natAbs (2 ^ 53) with hsmall | hgreat
  · exact Double.numEq_iff_toInt? (Double.toInt?_ofInt hsmall)
  · refine iff_of_false (fun heq => ?_) (fun hint => ?_)
    · -- values that are equal have equal units
      have hunits : (Double.ofInt n).units = v.units := by
        obtain ⟨-, -, rfl | ⟨hx, hy⟩⟩ := Double.numEq_iff.mp heq
        · rfl
        · rw [Double.units, Double.units, hx, hy]
      have hle := Double.le_units_ofInt hgreat
      rw [hunits] at hle
      exact absurd (Nat.lt_of_mul_lt_mul_right (hle.trans_lt hv)) (by decide)
    · obtain ⟨-, k, hk, hn⟩ := Double.toInt?_eq_some_iff.mp hint
      have hlt : k < 9000000000000000 := by
        rw [hk] at hv
        exact Nat.lt_of_mul_lt_mul_right hv
      split at hn <;> omega

theorem storageKey_real_eq_integer_iff :
    (real v).storageKey = integer n ↔ v.toInt? = some n ∧ Scalar.abs v < (wholeBound : Double) := by
  have hint : Scalar.toInt? v = v.toInt? := rfl
  rw [storageKey, hint]
  cases v.toInt? with
  | none => simp
  | some m =>
    by_cases h : Scalar.abs v < (wholeBound : Double) <;> simp [h]

/-- The key of a zero is the integer zero, with whatever sign. -/
theorem storageKey_of_magnitude_eq_zero (h : v.magnitude = 0) : (real v).storageKey = integer 0 := by
  have habs : (Scalar.abs v : Double) = 0 := congrArg Double.mk h
  refine storageKey_real_eq_integer_iff.mpr ⟨Double.toInt?_of_magnitude_eq_zero h, ?_⟩
  rw [habs]
  decide +kernel

/-- A key that is no integer is the real itself. -/
theorem storageKey_real_eq (h : ∀ n, (real v).storageKey ≠ integer n) : (real v).storageKey = real v := by
  rw [storageKey] at h ⊢
  split
  · split
    · rename_i n hn hlt
      refine absurd ?_ (h n)
      rw [hn]
      exact if_pos hlt
    · rfl
  · rfl

/-- Two reals have one key when they are one pattern, or one number below the bound. -/
theorem storageKey_real_eq_iff :
    (real v).storageKey = (real w).storageKey ↔ (real v).StoredAlike (real w) := by
  constructor
  · intro h
    by_cases hwhole : ∃ n, (real v).storageKey = integer n
    · obtain ⟨n, hv⟩ := hwhole
      obtain ⟨hn, hlt⟩ := storageKey_real_eq_integer_iff.mp hv
      obtain ⟨hm, hlt'⟩ := storageKey_real_eq_integer_iff.mp (h ▸ hv)
      refine ⟨sameValue_real_iff.mpr (.inr ((Double.numEq_iff_toInt? hn).mpr hm)), ?_⟩
      rw [isPastBound_real.mpr hlt, isPastBound_real.mpr hlt']
    · have hv := storageKey_real_eq (not_exists.mp hwhole)
      have hw := storageKey_real_eq (v := w) (h ▸ not_exists.mp hwhole)
      rw [hv, hw] at h
      exact h ▸ ⟨sameValue_self _, rfl⟩
  · rintro ⟨hsame, -⟩
    obtain rfl | heq := sameValue_real_iff.mp hsame
    · rfl
    · obtain ⟨-, -, rfl | ⟨hzero, hzero'⟩⟩ := Double.numEq_iff.mp heq
      · rfl
      · rw [storageKey_of_magnitude_eq_zero hzero, storageKey_of_magnitude_eq_zero hzero']

/-- A real has an integer as its key when it is below the bound and has the integer's value. -/
theorem integer_eq_storageKey_real_iff :
    integer n = (real v).storageKey ↔ (integer n).StoredAlike (real v) := by
  rw [eq_comm, storageKey_real_eq_integer_iff, StoredAlike, sameValue_integer_real_iff]
  constructor
  · rintro ⟨hn, hlt⟩
    exact ⟨(numEq_ofInt_iff hlt).mpr hn, (isPastBound_real.mpr hlt).symm⟩
  · rintro ⟨heq, hbound⟩
    have hlt := isPastBound_real.mp hbound.symm
    exact ⟨(numEq_ofInt_iff hlt).mp heq, hlt⟩

theorem isNumeric_storageKey (c : Constant Double) : c.storageKey.isNumeric = c.isNumeric := by
  cases c with
  | real v =>
    rw [storageKey]
    split
    · split <;> rfl
    · rfl
  | _ => rfl

theorem StoredAlike.symm {a b : Constant Double} (h : a.StoredAlike b) : b.StoredAlike a :=
  ⟨sameValue_symm h.1, h.2.symm⟩

/-- **Keys are equal for cells that are stored alike**, and only for these. -/
theorem storageKey_eq_iff {a b : Constant Double} : a.storageKey = b.storageKey ↔ a.StoredAlike b := by
  have htext : ∀ (s : String) (c : Constant Double), c.isNumeric = true →
      ((text s).storageKey = c.storageKey ↔ (text s).StoredAlike c) := by
    intro s c hc
    -- a key keeps its kind, and a text never equals a number
    refine iff_of_false (fun h => ?_) (fun h => ?_)
    · have hkind := congrArg isNumeric h
      rw [isNumeric_storageKey, isNumeric_storageKey, hc] at hkind
      cases hkind
    · rw [StoredAlike, (sameValue_text_eq_false hc).1] at h
      cases h.1
  have hflip : ∀ {c d : Constant Double}, (c.storageKey = d.storageKey ↔ c.StoredAlike d) →
      (d.storageKey = c.storageKey ↔ d.StoredAlike c) :=
    fun h => eq_comm.trans (h.trans ⟨.symm, .symm⟩)
  match a, b with
  | integer n, integer m =>
    show integer n = integer m ↔ _
    rw [integer.injEq, StoredAlike, sameValue_integer_iff]
    exact (and_iff_left rfl).symm
  | text s, text t =>
    show text s = text t ↔ _
    rw [text.injEq, StoredAlike, sameValue_text_iff]
    exact (and_iff_left rfl).symm
  | real _, real _ => exact storageKey_real_eq_iff
  | integer _, real _ => exact integer_eq_storageKey_real_iff
  | real _, integer _ => exact hflip integer_eq_storageKey_real_iff
  | text s, integer _ => exact htext s _ rfl
  | text s, real _ => exact htext s _ rfl
  | integer _, text t => exact hflip (htext t _ rfl)
  | real _, text t => exact hflip (htext t _ rfl)

end Constant

namespace FactBase

/-! ### Calls -/

/-- A call that adds facts. -/
inductive Call (K : Type) where
  /-- A row is added to a relation. -/
  | insert (relation : String) (row : Tuple K)
  /-- A value is added to a relation, at some arguments. -/
  | insertValue (relation : String) (args : Tuple K) (value : K)
  /-- An atom is added. -/
  | insertAtom (a : Atom K)
  /-- The atoms of a text are added. -/
  | load (text : String)

variable {K : Type} [Scalar K]

/-- The fact base after a call, whatever is answered. -/
def call (fb : FactBase K) : Call K → FactBase K
  | .insert relation row => (fb.insert relation row).1
  | .insertValue relation args value => (fb.insertValue relation args value).1
  | .insertAtom a =>
    match fb.insertAtom a with
    | .ok (fb', _) => fb'
    | .error _ => fb
  | .load text => (fb.load text).1

/-- The fact base that calls fill. -/
def filledBy (calls : List (Call K)) : FactBase K := calls.foldl call empty

/-! ### What every call keeps -/

/-- **Every relation stores rows of different keys.** -/
def KeysApart (fb : FactBase K) : Prop := ∀ relation, ((fb.rows relation).map rowKey).Nodup

variable {fb : FactBase K}

theorem keysApart_empty : (empty : FactBase K).KeysApart := fun _ => List.nodup_nil

/-- Adding a row answers no when its key is stored. -/
theorem insert_snd_eq_false_iff {relation : String} {row : Tuple K} :
    (fb.insert relation row).2 = false ↔ rowKey row ∈ (fb.rows relation).map rowKey := by
  have hstores : fb.stores relation row = true ↔ rowKey row ∈ (fb.rows relation).map rowKey := by
    rw [stores, List.any_eq_true, List.mem_map]
    simp only [decide_eq_true_eq]
  rw [← hstores, insert]
  split <;> simp_all

/-- A row that is added comes last in its relation, and the other relations stay. -/
theorem rows_insert (fb : FactBase K) (relation name : String) (row : Tuple K) :
    (fb.insert relation row).1.rows name
      = fb.rows name ++ (if (fb.insert relation row).2 = true ∧ relation = name then [row] else []) := by
  rw [insert]
  split
  · rw [if_neg fun h => Bool.false_ne_true h.1, List.append_nil]
  · rw [rows, List.filterMap_append]
    by_cases h : relation = name <;> simp [h, rows]

theorem KeysApart.insert (h : fb.KeysApart) (relation : String) (row : Tuple K) :
    (fb.insert relation row).1.KeysApart := by
  intro name
  rw [rows_insert, List.map_append]
  split
  · -- the new key is none of those that are stored
    rename_i hnew
    obtain ⟨hadded, rfl⟩ := hnew
    have hfresh : rowKey row ∉ (fb.rows relation).map rowKey := by
      rw [← insert_snd_eq_false_iff, hadded]
      exact nofun
    exact (h relation).append (List.nodup_singleton _) (List.disjoint_singleton.mpr hfresh)
  · rw [List.map_nil, List.append_nil]
    exact h name

theorem KeysApart.insertAtom? (h : fb.KeysApart) {a : Atom K} {fb' : FactBase K} {isNew : Bool}
    (hinsert : fb.insertAtom? a = some (fb', isNew)) : fb'.KeysApart := by
  obtain ⟨row, -, heq⟩ := Option.map_eq_some_iff.mp hinsert
  have hkept := h.insert a.name row
  rwa [heq] at hkept

/-- Atoms are added one after another. -/
theorem KeysApart.insertAtoms (h : fb.KeysApart) (added : ℕ) (atoms : List (Atom K)) :
    (fb.insertAtoms added atoms).1.KeysApart := by
  induction atoms generalizing fb added with
  | nil => exact h
  | cons a atoms ih =>
    rw [FactBase.insertAtoms]
    split
    · exact h
    · rename_i fb' isNew hinsert
      exact ih (h.insertAtom? hinsert) _

/-- **Every call keeps the keys apart.** -/
theorem KeysApart.call (h : fb.KeysApart) (c : Call K) : (fb.call c).KeysApart := by
  cases c with
  | insert relation row => exact h.insert relation row
  | insertValue relation args value => exact h.insert relation _
  | insertAtom a =>
    rw [FactBase.call, FactBase.insertAtom]
    cases hinsert : fb.insertAtom? a with
    | none => exact h
    | some result => exact h.insertAtom? hinsert
  | load text =>
    rw [FactBase.call, load]
    split
    · exact h
    · rename_i atoms _
      have hatoms := h.insertAtoms 0 atoms
      split <;> rename_i hadd <;> rwa [hadd] at hatoms

theorem KeysApart.foldl_call (h : fb.KeysApart) (calls : List (Call K)) :
    (calls.foldl FactBase.call fb).KeysApart := by
  induction calls generalizing fb with
  | nil => exact h
  | cons c calls ih => exact ih (h.call c)

theorem keysApart_filledBy (calls : List (Call K)) : (filledBy calls).KeysApart :=
  keysApart_empty.foldl_call calls

/-! ### Rows of equal values -/

/-- Rows have one key when their cells are stored alike, pair by pair. -/
theorem rowKey_eq_iff {r s : Tuple Double} :
    rowKey r = rowKey s ↔ List.Forall₂ Constant.StoredAlike r s := by
  rw [rowKey, rowKey, ← List.forall₂_eq_eq_eq, List.forall₂_map_left_iff, List.forall₂_map_right_iff]
  simp only [Constant.storageKey_eq_iff]

/-- **A relation stores no row twice**, and a row is refused exactly when it is stored: rows are compared
cell by cell, by value, but reals beyond the bound meet only reals. -/
theorem filledBy_stores_rows_once (calls : List (Call Double)) (relation : String) :
    ((filledBy calls).rows relation).Pairwise (fun r s => ¬ List.Forall₂ Constant.StoredAlike r s)
      ∧ ∀ row, ((filledBy calls).insert relation row).2 = false
          ↔ ∃ r ∈ (filledBy calls).rows relation, List.Forall₂ Constant.StoredAlike r row := by
  constructor
  · have hkeys := List.pairwise_map.mp (keysApart_filledBy calls relation)
    exact hkeys.imp fun hne halike => hne (rowKey_eq_iff.mpr halike)
  · intro row
    rw [insert_snd_eq_false_iff, List.mem_map]
    simp only [rowKey_eq_iff]

/-- A row with an integer at the bound of whole numbers, and one with the real of this value. -/
def boundRows : List (Call Double) :=
  [.insert "size" [.integer 9000000000000000], .insert "size" [.real ⟨0x433ff973cafa8000⟩]]

/-- **Rows of equal values are stored twice beyond the bound**: the second one is not refused. -/
theorem filledBy_stores_equal_rows :
    ¬ ((filledBy boundRows).rows "size").Pairwise
        (fun r s => ¬ List.Forall₂ (fun a b => a.sameValue b = true) r s)
      ∧ ((filledBy (boundRows.take 1)).insert "size" [.real ⟨0x433ff973cafa8000⟩]).2 = true := by
  have hrows : (filledBy boundRows).rows "size"
      = [[.integer 9000000000000000], [.real ⟨0x433ff973cafa8000⟩]] := by decide +kernel
  refine ⟨fun h => ?_, by decide +kernel⟩
  rw [hrows, List.pairwise_pair] at h
  exact h (.cons (by decide +kernel) .nil)

end FactBase

end RelationalLP
