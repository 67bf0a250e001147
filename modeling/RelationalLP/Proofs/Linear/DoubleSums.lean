import Mathlib
import RelationalLP.Proofs.Linear.Matrix
import RelationalLP.Proofs.Number.RelativeRounding

/-! # Sums of doubles

A sum of doubles is finite only when its numbers are. Then it is near the exact sum: each addition is off by
a relative error of `2 ^ (-53)`, so that `n` additions are off by the factor `growth n - 1` of the sum of the
absolute values. This is kept for the weight of a list of positions and numbers, whatever the weights are. -/

namespace RelationalLP

/-! ### Finite sums -/

/-- All numbers of a tally are finite. -/
def AllFinite (es : List (Position × Double)) : Prop := ∀ e ∈ es, e.2.isFinite

/-- A tally is finite after an addition only when it was before and the added number is. -/
theorem Tally.allFinite_of_add {p : Position} {v : Double} {t : Tally Double}
    (h : AllFinite (t.add p v)) : AllFinite t ∧ v.isFinite := by
  induction t with
  | nil =>
    have hsum : (0 + v).isFinite := h (p, 0 + v) (by simp [add])
    exact ⟨by simp [AllFinite], (Double.isFinite_of_isFinite_add hsum).2⟩
  | cons e t ih =>
    obtain ⟨q, x⟩ := e
    rw [add] at h
    -- at its position or at a new one, the added number is part of a stored sum
    split at h
    · have hsum : (x + v).isFinite := h (q, x + v) (by simp)
      obtain ⟨hx, hv⟩ := Double.isFinite_of_isFinite_add hsum
      refine ⟨fun d hd => ?_, hv⟩
      rcases List.mem_cons.mp hd with rfl | hd
      · exact hx
      · exact h d (List.mem_cons_of_mem _ hd)
    · split at h
      · have hsum : (0 + v).isFinite := h (p, 0 + v) (by simp)
        exact ⟨fun d hd => h d (List.mem_cons_of_mem _ hd),
          (Double.isFinite_of_isFinite_add hsum).2⟩
      · obtain ⟨ht, hv⟩ := ih fun d hd => h d (List.mem_cons_of_mem _ hd)
        refine ⟨fun d hd => ?_, hv⟩
        rcases List.mem_cons.mp hd with rfl | hd
        · exact h _ (by simp)
        · exact ht d hd

theorem Tally.allFinite_of_foldl_add {items : List (Position × Double)} {t : Tally Double}
    (h : AllFinite (items.foldl (fun (t : Tally Double) (p, v) => t.add p v) t)) :
    AllFinite t ∧ AllFinite items := by
  induction items generalizing t with
  | nil => exact ⟨h, by simp [AllFinite]⟩
  | cons e items ih =>
    obtain ⟨hadd, hitems⟩ := ih h
    obtain ⟨ht, he⟩ := allFinite_of_add hadd
    exact ⟨ht, List.forall_mem_cons.mpr ⟨he, hitems⟩⟩

/-- **The sums of a list are finite only when its numbers are.** -/
theorem Tally.allFinite_of_ofList {items : List (Position × Double)}
    (h : AllFinite (ofList items)) : AllFinite items :=
  (allFinite_of_foldl_add h).2

namespace SparseMatrix

/-- The zeros that a matrix does not store are finite, too. -/
theorem allFinite_of_ofTriplets {rows cols : ℕ} {ts : List (Position × Double)}
    (h : AllFinite (ofTriplets rows cols ts).entries) : AllFinite ts := by
  refine Tally.allFinite_of_ofList fun e he => ?_
  cases hzero : Scalar.isZero e.2 with
  | true => exact Double.isFinite_of_isZero hzero
  | false => exact h e (List.mem_filter.mpr ⟨he, congrArg not hzero⟩)

theorem allFinite_of_mergeColumns {m : SparseMatrix Double} {classOf : ℕ → ℕ} {cols : ℕ}
    (h : AllFinite (m.mergeColumns classOf cols).entries) : AllFinite m.entries := fun e he =>
  allFinite_of_ofTriplets h ((e.1.1, classOf e.1.2), e.2) (List.mem_map.mpr ⟨e, he, rfl⟩)

/-- A selection of rows is finite only when the selected rows are. -/
theorem isFinite_of_selectRows {m : SparseMatrix Double} (hm : SortedByPosition m.entries)
    {rows : List ℕ} (h : AllFinite (m.selectRows rows).entries) {e : Position × Double} (he : e ∈ m.entries)
    (hrow : e.1.1 ∈ rows) : e.2.isFinite := by
  obtain ⟨new, hnew⟩ := List.mem_iff_getElem?.mp hrow
  refine allFinite_of_ofTriplets h ((new, e.1.2), e.2) (List.mem_flatMap.mpr ⟨(e.1.1, new), ?_, ?_⟩)
  · exact List.mk_mem_zipIdx_iff_getElem?.mpr hnew
  · exact List.mem_map.mpr ⟨(e.1.2, e.2), (mem_row hm).mpr he, rfl⟩

end SparseMatrix

/-! ### Drift -/

/-- The exact numbers of a list times the weights of their positions, summed up. -/
def total (f : Position → ℚ) (es : List (Position × Double)) : ℚ :=
  (es.map fun e => f e.1 * e.2.exact).sum

/-- The absolute values of what is summed up. -/
def size (f : Position → ℚ) (es : List (Position × Double)) : ℚ :=
  (es.map fun e => |f e.1 * e.2.exact|).sum

section Weights

variable (f : Position → ℚ) (e : Position × Double) (es ds : List (Position × Double))

@[simp] theorem total_cons : total f (e :: es) = f e.1 * e.2.exact + total f es := by simp [total]

@[simp] theorem size_cons : size f (e :: es) = |f e.1 * e.2.exact| + size f es := by simp [size]

@[simp] theorem total_append : total f (es ++ ds) = total f es + total f ds := by simp [total]

@[simp] theorem size_append : size f (es ++ ds) = size f es + size f ds := by simp [size]

theorem size_nonneg : 0 ≤ size f es := by
  refine List.sum_nonneg fun a ha => ?_
  obtain ⟨e, -, rfl⟩ := List.mem_map.mp ha
  exact abs_nonneg _

theorem total_perm {es ds : List (Position × Double)} (h : es.Perm ds) : total f es = total f ds :=
  (h.map _).sum_eq

theorem size_perm {es ds : List (Position × Double)} (h : es.Perm ds) : size f es = size f ds :=
  (h.map _).sum_eq

/-- Moving positions moves the weights. -/
theorem total_map (g : Position → Position) : total f (es.map fun e => (g e.1, e.2)) = total (f ∘ g) es := by
  simp [total, Function.comp_def]

theorem size_map (g : Position → Position) : size f (es.map fun e => (g e.1, e.2)) = size (f ∘ g) es := by
  simp [size, Function.comp_def]

/-- Only the weights of positions that occur count. -/
theorem total_congr {f g : Position → ℚ} {es : List (Position × Double)} (h : ∀ e ∈ es, f e.1 = g e.1) :
    total f es = total g es :=
  congrArg List.sum (List.map_congr_left fun e he => by rw [h e he])

theorem size_congr {f g : Position → ℚ} {es : List (Position × Double)} (h : ∀ e ∈ es, f e.1 = g e.1) :
    size f es = size g es :=
  congrArg List.sum (List.map_congr_left fun e he => by rw [h e he])

end Weights

/-- How much a number may grow by `n` additions, each rounded. -/
def growth (n : ℕ) : ℚ := (1 + 1 / 2 ^ 53) ^ n

theorem one_le_growth (n : ℕ) : 1 ≤ growth n := one_le_pow₀ (by norm_num)

theorem growth_mono {m n : ℕ} (h : m ≤ n) : growth m ≤ growth n :=
  pow_le_pow_right₀ (by norm_num) h

theorem growth_add (m n : ℕ) : growth (m + n) = growth m * growth n := pow_add _ m n

/-- **A list that is another one after `n` additions**: for the weights `f` its total is off by no more than
the growth of the size, and its size has grown by no more than that. -/
structure Drift (f : Position → ℚ) (n : ℕ) (es ds : List (Position × Double)) : Prop where
  /-- The totals are near each other. -/
  total_le : |total f ds - total f es| ≤ (growth n - 1) * size f es
  /-- The size grows. -/
  size_le : size f ds ≤ growth n * size f es

namespace Drift

variable {f : Position → ℚ} {m n : ℕ} {es ds cs : List (Position × Double)}

/-- Lists with one total and one size do not drift. -/
theorem of_eq (htotal : total f ds = total f es) (hsize : size f ds = size f es) : Drift f 0 es ds where
  total_le := by simp [htotal, growth]
  size_le := by simp [hsize, growth]

/-- Without additions the totals are the same. -/
theorem total_eq (h : Drift f 0 es ds) : total f ds = total f es := by
  have hle := h.total_le
  rw [growth, pow_zero, sub_self, zero_mul, abs_nonpos_iff] at hle
  exact sub_eq_zero.mp hle

/-- Additions one after another drift together. -/
theorem trans (h : Drift f m es ds) (h' : Drift f n ds cs) : Drift f (m + n) es cs where
  total_le := by
    have hstep := abs_sub_le (total f cs) (total f ds) (total f es)
    have hgrown := mul_le_mul_of_nonneg_left h.size_le (sub_nonneg.mpr (one_le_growth n))
    rw [growth_add]
    linarith [h.total_le, h'.total_le]
  size_le := by
    rw [growth_add]
    calc size f cs ≤ growth n * size f ds := h'.size_le
      _ ≤ growth n * (growth m * size f es) :=
        mul_le_mul_of_nonneg_left h.size_le (zero_le_one.trans (one_le_growth n))
      _ = growth m * growth n * size f es := by ring

/-- What is not added to stays the same. -/
theorem append_right (h : Drift f n es ds) (rest : List (Position × Double)) :
    Drift f n (es ++ rest) (ds ++ rest) where
  total_le := by
    have hrest := mul_nonneg (sub_nonneg.mpr (one_le_growth n)) (size_nonneg f rest)
    rw [total_append, total_append, size_append, add_sub_add_right_eq_sub, mul_add]
    linarith [h.total_le]
  size_le := by
    have hrest := mul_nonneg (sub_nonneg.mpr (one_le_growth n)) (size_nonneg f rest)
    rw [size_append, size_append, mul_add]
    linarith [h.size_le]

theorem of_perm (h : es.Perm ds) : Drift f 0 es ds :=
  .of_eq (total_perm f h.symm) (size_perm f h.symm)

theorem cons (h : Drift f n es ds) (e : Position × Double) : Drift f n (e :: es) (e :: ds) := by
  have hin : Drift f 0 (e :: es) (es ++ [e]) := .of_perm (List.perm_append_singleton _ _).symm
  have hout : Drift f 0 (ds ++ [e]) (e :: ds) := .of_perm (List.perm_append_singleton _ _)
  simpa only [Nat.zero_add, Nat.add_zero] using (hin.trans (h.append_right [e])).trans hout

end Drift

/-! ### Additions -/

/-- The numbers of a list that have a weight. -/
def weighted (f : Position → ℚ) (es : List (Position × Double)) : ℕ := es.countP fun e => f e.1 ≠ 0

theorem weighted_cons (f : Position → ℚ) (e : Position × Double) (es : List (Position × Double)) :
    weighted f (e :: es) = weighted f [e] + weighted f es := by
  rw [weighted, weighted, weighted, ← List.countP_append, List.singleton_append]

theorem weighted_map (f : Position → ℚ) (g : Position → Position) (es : List (Position × Double)) :
    weighted f (es.map fun e => (g e.1, e.2)) = weighted (f ∘ g) es := by
  rw [weighted, weighted, List.countP_map]
  rfl

theorem weighted_congr {f g : Position → ℚ} {es : List (Position × Double)}
    (h : ∀ e ∈ es, f e.1 = g e.1) : weighted f es = weighted g es :=
  List.countP_congr fun e he => by rw [h e he]

/-- **One addition.** Without weight it does not count. -/
theorem drift_add (f : Position → ℚ) (p : Position) {x v : Double} (h : (x + v).isFinite) :
    Drift f (weighted f [(p, v)]) [(p, x), (p, v)] [(p, x + v)] := by
  obtain ⟨hx, hv⟩ := Double.isFinite_of_isFinite_add h
  have hle := Double.abs_sub_exact_add_le hx hv h
  by_cases hp : f p = 0
  · have hnone : weighted f [(p, v)] = 0 := by simp [weighted, hp]
    rw [hnone]
    exact .of_eq (by simp [total, hp]) (by simp [size, hp])
  · have hone : weighted f [(p, v)] = 1 := by simp [weighted, hp]
    have hsum := abs_add_le x.exact v.exact
    have hfar := abs_sub_abs_le_abs_sub (x + v).exact (x.exact + v.exact)
    rw [abs_sub_comm] at hfar
    have hnear : |(x + v).exact - (x.exact + v.exact)| ≤ 1 / 2 ^ 53 * (|x.exact| + |v.exact|) := by
      rw [abs_sub_comm]
      linarith
    rw [hone]
    constructor
    · have htotal : total f [(p, x + v)] - total f [(p, x), (p, v)]
          = f p * ((x + v).exact - (x.exact + v.exact)) := by
        simp only [total, List.map_cons, List.map_nil, List.sum_cons, List.sum_nil]
        ring
      have hscaled := mul_le_mul_of_nonneg_left hnear (abs_nonneg (f p))
      rw [htotal, abs_mul]
      simp only [size, List.map_cons, List.map_nil, List.sum_cons, List.sum_nil, abs_mul, growth, pow_one]
      linarith
    · have hscaled := mul_le_mul_of_nonneg_left
        (show |(x + v).exact| ≤ (1 + 1 / 2 ^ 53) * (|x.exact| + |v.exact|) by linarith) (abs_nonneg (f p))
      simp only [size, List.map_cons, List.map_nil, List.sum_cons, List.sum_nil, abs_mul, growth, pow_one]
      linarith

/-- A new position starts from zero. -/
theorem drift_zero_add (f : Position → ℚ) (p : Position) {v : Double} (h : (0 + v).isFinite) :
    Drift f (weighted f [(p, v)]) [(p, v)] [(p, 0 + v)] := by
  have hzero : (0 : Double).exact = 0 := Double.exact_of_isZero (by decide)
  have hstart : Drift f 0 [(p, v)] [(p, 0), (p, v)] :=
    .of_eq (by simp [total, hzero]) (by simp [size, hzero])
  simpa only [Nat.zero_add] using hstart.trans (drift_add f p h)

namespace Tally

/-- An addition to a tally. -/
theorem drift_add (f : Position → ℚ) {p : Position} {v : Double} {t : Tally Double}
    (h : AllFinite (t.add p v)) : Drift f (weighted f [(p, v)]) ((p, v) :: t) (t.add p v) := by
  induction t with
  | nil => exact drift_zero_add f p (h (p, 0 + v) (by simp [add]))
  | cons e t ih =>
    obtain ⟨q, x⟩ := e
    rw [add] at h ⊢
    split
    · rename_i heq
      subst heq
      rw [if_pos rfl] at h
      -- the number that stands there comes first
      have hswap : Drift f 0 ((p, v) :: (p, x) :: t) ((p, x) :: (p, v) :: t) := .of_perm (.swap _ _ _)
      have hsum := (RelationalLP.drift_add f p (h (p, x + v) (by simp))).append_right t
      simpa only [Nat.zero_add, List.singleton_append] using hswap.trans hsum
    · rename_i hne
      rw [if_neg hne] at h
      split
      · rename_i hbefore
        rw [if_pos hbefore] at h
        exact (drift_zero_add f p (h (p, 0 + v) (by simp))).append_right _
      · rename_i hbefore
        rw [if_neg hbefore] at h
        have hrest := (ih fun d hd => h d (List.mem_cons_of_mem _ hd)).cons (q, x)
        have hswap : Drift f 0 ((p, v) :: (q, x) :: t) ((q, x) :: (p, v) :: t) := .of_perm (.swap _ _ _)
        simpa only [Nat.zero_add] using hswap.trans hrest

theorem drift_foldl_add (f : Position → ℚ) {items : List (Position × Double)} {t : Tally Double}
    (h : AllFinite (items.foldl (fun (t : Tally Double) (p, v) => t.add p v) t)) :
    Drift f (weighted f items) (t ++ items)
      (items.foldl (fun (t : Tally Double) (p, v) => t.add p v) t) := by
  induction items generalizing t with
  | nil => exact .of_perm (by rw [List.append_nil]; rfl)
  | cons e items ih =>
    have hmove : Drift f 0 (t ++ e :: items) ((e :: t) ++ items) := .of_perm List.perm_middle
    have hfirst : AllFinite (t.add e.1 e.2) := (allFinite_of_foldl_add (t := t.add e.1 e.2) h).1
    have hadd := (drift_add f hfirst).append_right items
    have hall := (hmove.trans hadd).trans (ih h)
    rw [Nat.zero_add] at hall
    rw [weighted_cons]
    exact hall

/-- **The tally of a list** is off by one addition for each number that has a weight. -/
theorem drift_ofList (f : Position → ℚ) {items : List (Position × Double)}
    (h : AllFinite (ofList items)) : Drift f (weighted f items) items (ofList items) :=
  drift_foldl_add f h

end Tally

namespace SparseMatrix

/-- Zeros weigh nothing, so they need not be stored. -/
theorem drift_filter (f : Position → ℚ) (es : List (Position × Double)) :
    Drift f 0 es (es.filter fun (_, v) => !Scalar.isZero v) := by
  induction es with
  | nil => exact .of_perm (.refl _)
  | cons e es ih =>
    cases hzero : Scalar.isZero e.2 with
    | true =>
      have hexact := Double.exact_of_isZero hzero
      have hdrop : Drift f 0 (e :: es) es := .of_eq (by simp [hexact]) (by simp [hexact])
      rw [List.filter_cons_of_neg (by simp [hzero])]
      exact hdrop.trans ih
    | false =>
      rw [List.filter_cons_of_pos (by simp [hzero])]
      exact ih.cons e

/-- **A matrix of triplets** is off by one addition for each triplet that has a weight. -/
theorem drift_ofTriplets (f : Position → ℚ) {rows cols : ℕ} {ts : List (Position × Double)}
    (h : AllFinite (ofTriplets rows cols ts).entries) :
    Drift f (weighted f ts) ts (ofTriplets rows cols ts).entries := by
  have hsums : AllFinite (Tally.ofList ts) := by
    intro e he
    cases hzero : Scalar.isZero e.2 with
    | true => exact Double.isFinite_of_isZero hzero
    | false => exact h e (List.mem_filter.mpr ⟨he, congrArg not hzero⟩)
  exact (Tally.drift_ofList f hsums).trans (drift_filter f _)

end SparseMatrix

end RelationalLP
