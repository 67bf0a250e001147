import Mathlib
import RelationalLP.Linear.Tally
import RelationalLP.Proofs.Number.Exact

/-! # What a tally sums up

`weigh f es` is the sum of the numbers of `es`, each times the weight of its position. Adding to a
tally adds to its weight, whatever the weights are, so a tally weighs as much as the list that it
was made of. A tally is sorted by position, hence its value at a position is its weight for the
indicator of that position. -/

namespace RelationalLP

/-- The numbers of a list times the weights of their positions, summed up. -/
def weigh (f : Position → ℚ) (es : List (Position × ℚ)) : ℚ := (es.map fun e => f e.1 * e.2).sum

@[simp] theorem weigh_nil (f : Position → ℚ) : weigh f [] = 0 := rfl

@[simp] theorem weigh_cons (f : Position → ℚ) (e : Position × ℚ) (es : List (Position × ℚ)) :
    weigh f (e :: es) = f e.1 * e.2 + weigh f es := by
  simp [weigh]

@[simp] theorem weigh_append (f : Position → ℚ) (es ds : List (Position × ℚ)) :
    weigh f (es ++ ds) = weigh f es + weigh f ds := by
  simp [weigh]

/-- The weight of lists one after another is the sum of their weights. -/
theorem weigh_flatMap {α : Type} (f : Position → ℚ) (xs : List α)
    (g : α → List (Position × ℚ)) :
    weigh f (xs.flatMap g) = (xs.map fun x => weigh f (g x)).sum := by
  induction xs with
  | nil => rfl
  | cons x xs ih => rw [List.flatMap_cons, weigh_append, ih, List.map_cons, List.sum_cons]

/-- Moving positions moves the weights. -/
theorem weigh_map (f : Position → ℚ) (g : Position → Position) (es : List (Position × ℚ)) :
    weigh f (es.map fun e => (g e.1, e.2)) = weigh (f ∘ g) es := by
  simp [weigh, Function.comp_def]

/-- Only the weights of positions that occur count. -/
theorem weigh_congr {f g : Position → ℚ} {es : List (Position × ℚ)}
    (h : ∀ e ∈ es, f e.1 = g e.1) : weigh f es = weigh g es := by
  unfold weigh
  exact congrArg List.sum (List.map_congr_left fun e he => by rw [h e he])

/-- Entries of value zero weigh nothing. -/
theorem weigh_filter_nonzero (f : Position → ℚ) (es : List (Position × ℚ)) :
    weigh f (es.filter fun (_, v) => !Scalar.isZero v) = weigh f es := by
  induction es with
  | nil => rfl
  | cons e es ih =>
    by_cases he : e.2 = 0
    · rw [List.filter_cons_of_neg (by simp [he]), ih, weigh_cons, he, mul_zero, zero_add]
    · rw [List.filter_cons_of_pos (by simp [he]), weigh_cons, weigh_cons, ih]

/-! ### The order of positions -/

namespace Position

theorem before_iff {p q : Position} :
    p.before q = true ↔ p.1 < q.1 ∨ p.1 = q.1 ∧ p.2 < q.2 := by
  simp [before]

theorem before_trans {p q r : Position} (hpq : p.before q = true) (hqr : q.before r = true) :
    p.before r = true := by
  rw [before_iff] at *
  omega

theorem ne_of_before {p q : Position} (h : p.before q = true) : p ≠ q := by
  rintro rfl
  rw [before_iff] at h
  omega

/-- Of two different positions that are not in order the second comes first. -/
theorem before_of_not_before {p q : Position} (hne : p ≠ q) (h : ¬ p.before q = true) :
    q.before p = true := by
  obtain ⟨p₁, p₂⟩ := p
  obtain ⟨q₁, q₂⟩ := q
  rw [before_iff] at *
  simp only [ne_eq, Prod.mk.injEq] at *
  omega

theorem order_eq_lt_iff {p q : Position} : p.order q = .lt ↔ p.before q = true := by
  rw [order, Ordering.then_eq_lt, before_iff, Nat.compare_eq_lt, Nat.compare_eq_lt, Nat.compare_eq_eq]

theorem order_eq_eq_iff {p q : Position} : p.order q = .eq ↔ p = q := by
  rw [order, Ordering.then_eq_eq, Nat.compare_eq_eq, Nat.compare_eq_eq, Prod.ext_iff]

theorem order_eq_gt_iff {p q : Position} : p.order q = .gt ↔ q.before p = true := by
  rw [order, Ordering.then_eq_gt, before_iff, Nat.compare_eq_gt, Nat.compare_eq_gt, Nat.compare_eq_eq,
    eq_comm (a := q.1)]

end Position

/-- Positions strictly increase along a list. -/
def SortedByPosition {K : Type} (es : List (Position × K)) : Prop :=
  es.Pairwise fun e d => e.1.before d.1 = true

/-- In a sorted list no position occurs twice. -/
theorem SortedByPosition.nodup {K : Type} {es : List (Position × K)} (h : SortedByPosition es) :
    (es.map Prod.fst).Nodup := by
  rw [List.Nodup, List.pairwise_map]
  exact h.imp Position.ne_of_before

namespace Tally

/-! ### Adding to a tally -/

/-- The positions after an addition: those before and the new one. -/
theorem mem_fst_add {K : Type} [Scalar K] {p q : Position} {v : K} {t : Tally K} :
    q ∈ (t.add p v).map Prod.fst ↔ q = p ∨ q ∈ t.map Prod.fst := by
  induction t with
  | nil => simp [add]
  | cons e t ih =>
    obtain ⟨r, x⟩ := e
    rw [add]
    split
    · rename_i h
      subst h
      simp
    · split
      · simp
      · rw [List.map_cons, List.mem_cons, ih, List.map_cons, List.mem_cons]
        tauto

/-- An addition keeps a tally sorted. -/
theorem sorted_add {K : Type} [Scalar K] {t : Tally K} (h : SortedByPosition t) (p : Position)
    (v : K) : SortedByPosition (t.add p v) := by
  induction t with
  | nil => exact List.pairwise_singleton _ _
  | cons e t ih =>
    obtain ⟨q, x⟩ := e
    obtain ⟨hq, ht⟩ := List.pairwise_cons.mp h
    rw [add]
    split
    · -- a position that is known keeps its place
      exact List.pairwise_cons.mpr ⟨hq, ht⟩
    · rename_i hpq
      split
      · -- a position before the first one is put in front
        rename_i hb
        refine List.pairwise_cons.mpr ⟨?_, h⟩
        intro d hd
        rcases List.mem_cons.mp hd with rfl | hd
        · exact hb
        · exact Position.before_trans hb (hq d hd)
      · rename_i hb
        refine List.pairwise_cons.mpr ⟨?_, ih ht⟩
        intro d hd
        have hmem : d.1 ∈ (add p v t).map Prod.fst := List.mem_map_of_mem hd
        rcases mem_fst_add.mp hmem with he | hm
        · rw [he]
          exact Position.before_of_not_before hpq hb
        · obtain ⟨c, hc, hcd⟩ := List.mem_map.mp hm
          rw [← hcd]
          exact hq c hc

/-- An addition adds to the weight. -/
theorem weigh_add (f : Position → ℚ) (p : Position) (v : ℚ) (t : Tally ℚ) :
    weigh f (t.add p v) = weigh f t + f p * v := by
  induction t with
  | nil => simp [add]
  | cons e t ih =>
    obtain ⟨q, x⟩ := e
    rw [add]
    split
    · rename_i h
      subst h
      simp only [weigh_cons]
      ring
    · split
      · simp only [weigh_cons]
        simp
        ring
      · rw [weigh_cons, weigh_cons, ih]
        ring

/-- Adding at a new position adds one entry, which starts from zero. -/
theorem mem_add_of_notMem {K : Type} [Scalar K] {t : Tally K} {p : Position}
    (h : p ∉ t.map Prod.fst) (v : K) {e : Position × K} :
    e ∈ t.add p v ↔ e = (p, 0 + v) ∨ e ∈ t := by
  induction t with
  | nil => simp [add]
  | cons d t ih =>
    obtain ⟨q, x⟩ := d
    rw [List.map_cons, List.mem_cons, not_or] at h
    rw [add, if_neg h.1]
    split
    · exact List.mem_cons
    · rw [List.mem_cons, ih h.2, List.mem_cons]
      tauto

/-- A search looks at the first position and then at the others. -/
theorem lookup_cons_eq_ite {K : Type} (p q : Position) (x : K) (t : Tally K) :
    List.lookup q ((p, x) :: t) = if q = p then some x else t.lookup q := by
  rw [List.lookup_cons]
  by_cases h : q = p
  · rw [if_pos h, beq_iff_eq.mpr h]
  · rw [if_neg h, beq_false_of_ne h]

/-- An addition changes the number at its position only. -/
theorem lookup_add {K : Type} [Scalar K] {t : Tally K} (h : SortedByPosition t) (p q : Position)
    (v : K) : (t.add p v).lookup q = if q = p then some (t.get p + v) else t.lookup q := by
  induction t with
  | nil => exact lookup_cons_eq_ite p q (0 + v) []
  | cons d t ih =>
    obtain ⟨r, x⟩ := d
    obtain ⟨hr, ht⟩ := List.pairwise_cons.mp h
    unfold add
    by_cases hpr : p = r
    · subst hpr
      simp only [if_pos, get, lookup_cons_eq_ite]
      split <;> simp
    · rw [if_neg hpr]
      split
      · rename_i hbefore
        -- the position comes before all others, so it is not among them
        have hnew : List.lookup p ((r, x) :: t) = none := by
          rw [List.lookup_eq_none_iff]
          intro d hd
          refine bne_iff_ne.mpr (Position.ne_of_before ?_)
          rcases List.mem_cons.mp hd with rfl | hd
          · exact hbefore
          · exact Position.before_trans hbefore (hr d hd)
        rw [lookup_cons_eq_ite, get, hnew]
        rfl
      · simp only [lookup_cons_eq_ite, ih ht, get, if_neg hpr]
        by_cases hqr : q = r
        · have hqp : q ≠ p := fun hq => hpr (hq.symm.trans hqr)
          rw [if_pos hqr, if_neg hqp, if_pos hqr]
        · rw [if_neg hqr, if_neg hqr]

/-! ### The tally of a list -/

/-- Adding one entry after another keeps a tally sorted. -/
theorem sorted_foldl_add {K : Type} [Scalar K] (items : List (Position × K)) {t : Tally K}
    (h : SortedByPosition t) :
    SortedByPosition (items.foldl (fun (t : Tally K) (p, v) => t.add p v) t) := by
  induction items generalizing t with
  | nil => exact h
  | cons e items ih => exact ih (sorted_add h e.1 e.2)

/-- The tally of a list is sorted. -/
theorem sorted_ofList {K : Type} [Scalar K] (items : List (Position × K)) :
    SortedByPosition (ofList items) :=
  sorted_foldl_add items List.Pairwise.nil

/-- Adding one entry after another gives a tally their positions. -/
theorem mem_fst_foldl_add {K : Type} [Scalar K] {items : List (Position × K)} {t : Tally K}
    {q : Position} :
    q ∈ (items.foldl (fun (t : Tally K) (p, v) => t.add p v) t).map Prod.fst
      ↔ q ∈ t.map Prod.fst ∨ q ∈ items.map Prod.fst := by
  induction items generalizing t with
  | nil => simp
  | cons e items ih =>
    rw [List.foldl_cons, ih, mem_fst_add, List.map_cons, List.mem_cons]
    tauto

/-- The positions of a tally are those of its list. -/
theorem mem_fst_ofList {K : Type} [Scalar K] {items : List (Position × K)} {q : Position} :
    q ∈ (ofList items).map Prod.fst ↔ q ∈ items.map Prod.fst := by
  rw [ofList, mem_fst_foldl_add]
  simp

/-- Numbers at positions that are new and not repeated join a tally, each added to zero. -/
theorem mem_foldl_add_of_new {K : Type} [Scalar K] {items : List (Position × K)} {t : Tally K}
    (hnodup : (items.map Prod.fst).Nodup) (hnew : ∀ d ∈ items, d.1 ∉ t.map Prod.fst)
    {e : Position × K} :
    e ∈ items.foldl (fun (t : Tally K) (p, v) => t.add p v) t
      ↔ e ∈ t ∨ ∃ v, (e.1, v) ∈ items ∧ e.2 = 0 + v := by
  induction items generalizing t with
  | nil => simp
  | cons d items ih =>
    obtain ⟨hd, hitems⟩ := List.nodup_cons.mp hnodup
    obtain ⟨hdt, hnew⟩ := List.forall_mem_cons.mp hnew
    -- the positions to come are new to the tally with the first one, too
    have hrest : ∀ c ∈ items, c.1 ∉ (t.add d.1 d.2).map Prod.fst := by
      intro c hc hmem
      rcases mem_fst_add.mp hmem with heq | hmem
      · exact hd (List.mem_map.mpr ⟨c, hc, heq⟩)
      · exact hnew c hc hmem
    rw [List.foldl_cons, ih hitems hrest, mem_add_of_notMem hdt]
    simp only [List.mem_cons]
    constructor
    · rintro ((rfl | ht) | ⟨v, hv, heq⟩)
      · exact .inr ⟨d.2, .inl rfl, rfl⟩
      · exact .inl ht
      · exact .inr ⟨v, .inr hv, heq⟩
    · rintro (ht | ⟨v, rfl | hv, heq⟩)
      · exact .inl (.inr ht)
      · exact .inl (.inl (Prod.ext rfl heq))
      · exact .inr ⟨v, hv, heq⟩

/-- A list that repeats no position makes a tally of its numbers, each added to zero. -/
theorem mem_ofList_of_nodup {K : Type} [Scalar K] {items : List (Position × K)}
    (h : (items.map Prod.fst).Nodup) {e : Position × K} :
    e ∈ ofList items ↔ ∃ v, (e.1, v) ∈ items ∧ e.2 = 0 + v :=
  (mem_foldl_add_of_new h fun _ _ => List.not_mem_nil).trans (by simp)

/-- Adding one entry after another adds their weight. -/
theorem weigh_foldl_add (f : Position → ℚ) (items : List (Position × ℚ)) (t : Tally ℚ) :
    weigh f (items.foldl (fun (t : Tally ℚ) (p, v) => t.add p v) t) = weigh f t + weigh f items := by
  induction items generalizing t with
  | nil => simp
  | cons e items ih =>
    rw [List.foldl_cons, ih, weigh_add, weigh_cons]
    ring

/-- A tally weighs as much as its list. -/
theorem weigh_ofList (f : Position → ℚ) (items : List (Position × ℚ)) :
    weigh f (ofList items) = weigh f items := by
  rw [ofList, weigh_foldl_add, weigh_nil, zero_add]

end Tally

/-! ### Values by position -/

/-- The weight that picks out one position. -/
def indicator (p q : Position) : ℚ := if q = p then 1 else 0

/-- A position that does not occur has no weight. -/
theorem weigh_indicator_of_notMem {p : Position} {es : List (Position × ℚ)}
    (h : p ∉ es.map Prod.fst) : weigh (indicator p) es = 0 := by
  induction es with
  | nil => rfl
  | cons e es ih =>
    rw [List.map_cons, List.mem_cons, not_or] at h
    rw [weigh_cons, ih h.2, indicator, if_neg (Ne.symm h.1), zero_mul, add_zero]

/-- Where no position occurs twice, the number at a position is the weight of its indicator. -/
theorem lookup_eq_weigh {es : List (Position × ℚ)} (h : (es.map Prod.fst).Nodup) (p : Position) :
    (es.lookup p).getD 0 = weigh (indicator p) es := by
  induction es with
  | nil => rfl
  | cons e es ih =>
    obtain ⟨q, x⟩ := e
    obtain ⟨hq, hn⟩ := List.nodup_cons.mp h
    rw [weigh_cons, List.lookup_cons]
    by_cases hpq : p = q
    · subst hpq
      rw [weigh_indicator_of_notMem hq]
      simp [indicator]
    · rw [beq_false_of_ne hpq, indicator, if_neg (Ne.symm hpq), zero_mul, zero_add]
      exact ih hn

end RelationalLP
