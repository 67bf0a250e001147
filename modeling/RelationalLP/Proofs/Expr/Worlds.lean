import Mathlib
import RelationalLP.Proofs.Logic.Kleene

/-! # Worlds and sums over them

A world has finitely many constants and says which ground atoms hold. A quantity that depends on a
valuation is summed over all constants of some symbols, one symbol after another, in any commutative
semiring. Such sums split, factor, and follow a renaming of their symbols. -/

namespace RelationalLP

/-- Finitely many constants, and the truth of ground atoms. -/
structure World where
  /-- The constants. -/
  domain : Finset (Constant ℚ)
  /-- Whether a ground atom holds. -/
  truthOf : Atom ℚ → Bool

namespace World

variable (w : World)

/-- **Reached valuations**: some symbols are bound to constants of the world, the others keep what they
had. -/
structure Reaches (symbols : List Symbol) (v u : Valuation ℚ) : Prop where
  /-- Other symbols keep their constants. -/
  keeps : ∀ s ∉ symbols, u s = v s
  /-- The symbols are bound to constants of the world. -/
  binds : ∀ s ∈ symbols, ∃ c ∈ w.domain, u s = some c

variable {w} {symbols others : List Symbol} {v v' u t : Valuation ℚ}

theorem reaches_nil (v : Valuation ℚ) : w.Reaches [] v v := ⟨fun _ _ => rfl, nofun⟩

theorem Reaches.eq_of_nil (h : w.Reaches [] v u) : u = v :=
  funext fun s => h.keeps s List.not_mem_nil

/-- Binding one symbol first. -/
theorem Reaches.cons {s : Symbol} {c : Constant ℚ} (hc : c ∈ w.domain)
    (h : w.Reaches symbols (Function.update v s (some c)) u) : w.Reaches (s :: symbols) v u where
  keeps := by
    intro x hx
    rw [List.mem_cons, not_or] at hx
    rw [h.keeps x hx.2, Function.update_of_ne hx.1]
  binds := by
    intro x hx
    by_cases hmem : x ∈ symbols
    · exact h.binds x hmem
    · obtain rfl := (List.mem_cons.mp hx).resolve_right hmem
      exact ⟨c, hc, by rw [h.keeps x hmem, Function.update_self]⟩

/-- What is reached by all symbols is reached by the first ones first. -/
theorem Reaches.split (h : w.Reaches (symbols ++ others) v t) :
    ∃ u, w.Reaches symbols v u ∧ w.Reaches others u t := by
  refine ⟨fun s => if s ∈ symbols then t s else v s, ⟨fun s hs => if_neg hs, fun s hs => ?_⟩,
    ⟨fun s hs => ?_, fun s hs => h.binds s (List.mem_append_right _ hs)⟩⟩
  · rw [if_pos hs]
    exact h.binds s (List.mem_append_left _ hs)
  · split
    · rfl
    · rename_i hmem
      exact h.keeps s (by rw [List.mem_append, not_or]; exact ⟨hmem, hs⟩)

/-- From another start the same constants are reached. -/
theorem Reaches.transfer (h : w.Reaches symbols v u) (v' : Valuation ℚ) :
    w.Reaches symbols v' fun s => if s ∈ symbols then u s else v' s where
  keeps := fun s hs => if_neg hs
  binds := by
    intro s hs
    rw [if_pos hs]
    exact h.binds s hs

/-! ### Sums over constants -/

variable {R : Type} [CommSemiring R]

/-- The sum over the constants of some symbols. -/
def total (w : World) : List Symbol → (Valuation ℚ → R) → Valuation ℚ → R
  | [], F, v => F v
  | s :: symbols, F, v =>
    ∑ c ∈ w.domain, total w symbols F (Function.update v s (some c))

@[simp] theorem total_nil (F : Valuation ℚ → R) (v : Valuation ℚ) : w.total [] F v = F v := rfl

/-- Only reached valuations count. -/
theorem total_congr {F G : Valuation ℚ → R} (h : ∀ u, w.Reaches symbols v u → F u = G u) :
    w.total symbols F v = w.total symbols G v := by
  induction symbols generalizing v with
  | nil => exact h v (reaches_nil v)
  | cons s symbols ih =>
    exact Finset.sum_congr rfl fun c hc => ih fun u hu => h u (hu.cons hc)

theorem total_zero : w.total symbols (fun _ => (0 : R)) v = 0 := by
  induction symbols generalizing v with
  | nil => rfl
  | cons s symbols ih => exact Finset.sum_eq_zero fun c _ => ih

/-- A sum of zeros is zero. -/
theorem total_eq_zero {F : Valuation ℚ → R} (h : ∀ u, w.Reaches symbols v u → F u = 0) :
    w.total symbols F v = 0 := by
  rw [total_congr h, total_zero]

theorem total_append (F : Valuation ℚ → R) (v : Valuation ℚ) :
    w.total (symbols ++ others) F v = w.total symbols (w.total others F) v := by
  induction symbols generalizing v with
  | nil => rfl
  | cons s symbols ih => exact Finset.sum_congr rfl fun c _ => ih _

theorem total_mul_left (a : R) (F : Valuation ℚ → R) (v : Valuation ℚ) :
    w.total symbols (fun u => a * F u) v = a * w.total symbols F v := by
  induction symbols generalizing v with
  | nil => rfl
  | cons s symbols ih =>
    rw [total, total, Finset.mul_sum]
    exact Finset.sum_congr rfl fun c _ => ih _

theorem total_mul_right (F : Valuation ℚ → R) (a : R) (v : Valuation ℚ) :
    w.total symbols (fun u => F u * a) v = w.total symbols F v * a := by
  rw [mul_comm, ← total_mul_left]
  exact total_congr fun u _ => mul_comm _ _

theorem total_add (F G : Valuation ℚ → R) (v : Valuation ℚ) :
    w.total symbols (fun u => F u + G u) v = w.total symbols F v + w.total symbols G v := by
  induction symbols generalizing v with
  | nil => rfl
  | cons s symbols ih =>
    rw [total, total, total, ← Finset.sum_add_distrib]
    exact Finset.sum_congr rfl fun c _ => ih _

/-- A sum of sums, term by term. -/
theorem total_list_sum {α : Type} (xs : List α) (F : α → Valuation ℚ → R) (v : Valuation ℚ) :
    w.total symbols (fun u => (xs.map (F · u)).sum) v
      = (xs.map fun x => w.total symbols (F x) v).sum := by
  induction xs with
  | nil => exact total_zero
  | cons x xs ih => simp only [List.map_cons, List.sum_cons, total_add, ih]

/-- **Renaming a sum**: where different symbols keep different names, summing over the renamed symbols
is summing over the symbols. -/
theorem total_rename {r : Renaming} (scope : List Symbol) {F : Valuation ℚ → R}
    (hF : ∀ u u', (∀ s ∈ scope, u s = u' s) → F u = F u')
    (hinj : ∀ s ∈ symbols, ∀ t ∈ scope, r.apply t = r.apply s → t = s)
    (hv : ∀ s ∈ scope, s ∉ symbols → v (r.apply s) = v' s) :
    w.total (symbols.map r.apply) (fun u => F (u.renamed r)) v = w.total symbols F v' := by
  induction symbols generalizing v v' with
  | nil => exact hF _ _ fun s hs => hv s hs List.not_mem_nil
  | cons x symbols ih =>
    refine Finset.sum_congr rfl fun c _ => ih (fun s hs => hinj s (List.mem_cons_of_mem x hs)) ?_
    intro s hs hmem
    by_cases hx : s = x
    · rw [hx, Function.update_self, Function.update_self]
    · rw [Function.update_of_ne hx, Function.update_of_ne]
      · exact hv s hs (by rw [List.mem_cons, not_or]; exact ⟨hx, hmem⟩)
      · exact fun heq => hx (hinj x List.mem_cons_self s hs heq)

/-- A sum depends on what the valuation says of the symbols that are not summed over. -/
theorem total_agree (scope : List Symbol) {F : Valuation ℚ → R}
    (hF : ∀ u u', (∀ s ∈ scope, u s = u' s) → F u = F u')
    (hv : ∀ s ∈ scope, s ∉ symbols → v s = v' s) :
    w.total symbols F v = w.total symbols F v' := by
  induction symbols generalizing v v' with
  | nil => exact hF _ _ fun s hs => hv s hs List.not_mem_nil
  | cons x symbols ih =>
    refine Finset.sum_congr rfl fun c _ => ih fun s hs hmem => ?_
    by_cases hx : s = x
    · rw [hx, Function.update_self, Function.update_self]
    · rw [Function.update_of_ne hx, Function.update_of_ne hx]
      exact hv s hs (by rw [List.mem_cons, not_or]; exact ⟨hx, hmem⟩)

/-! ### Sums over tuples -/

/-- The tuples of constants of a length. -/
def tuples (w : World) : ℕ → Finset (Tuple ℚ)
  | 0 => {[]}
  | n + 1 => (w.domain ×ˢ tuples w n).image fun p => p.1 :: p.2

theorem mem_tuples {n : ℕ} {tuple : Tuple ℚ} :
    tuple ∈ w.tuples n ↔ tuple.length = n ∧ ∀ c ∈ tuple, c ∈ w.domain := by
  induction n generalizing tuple with
  | zero =>
    rw [tuples, Finset.mem_singleton, List.length_eq_zero_iff]
    refine ⟨fun h => ⟨h, ?_⟩, fun h => h.1⟩
    rw [h]
    exact nofun
  | succ n ih =>
    rw [tuples, Finset.mem_image]
    constructor
    · rintro ⟨⟨c, t⟩, hp, rfl⟩
      obtain ⟨hc, ht⟩ := Finset.mem_product.mp hp
      obtain ⟨hlen, hall⟩ := ih.mp ht
      exact ⟨congrArg Nat.succ hlen, List.forall_mem_cons.mpr ⟨hc, hall⟩⟩
    · rintro ⟨hlen, hall⟩
      cases tuple with
      | nil => exact nomatch hlen
      | cons c t =>
        obtain ⟨hc, hall⟩ := List.forall_mem_cons.mp hall
        exact ⟨(c, t), Finset.mem_product.mpr ⟨hc, ih.mpr ⟨Nat.succ.inj hlen, hall⟩⟩, rfl⟩

/-- A tuple splits into its first constants and the others. -/
theorem take_drop_mem_tuples {m n : ℕ} {tuple : Tuple ℚ} (h : tuple ∈ w.tuples (m + n)) :
    tuple.take m ∈ w.tuples m ∧ tuple.drop m ∈ w.tuples n := by
  obtain ⟨hlen, hall⟩ := mem_tuples.mp h
  refine ⟨mem_tuples.mpr ⟨?_, fun c hc => hall c (List.mem_of_mem_take hc)⟩,
    mem_tuples.mpr ⟨?_, fun c hc => hall c (List.mem_of_mem_drop hc)⟩⟩
  · rw [List.length_take, hlen]
    omega
  · rw [List.length_drop, hlen]
    omega

/-- **A sum over the constants of some symbols is a sum over tuples.** -/
theorem total_eq_sum_tuples (F : Valuation ℚ → R) (v : Valuation ℚ) :
    w.total symbols F v = ∑ t ∈ w.tuples symbols.length, F (v.extend symbols t) := by
  induction symbols generalizing v with
  | nil => rw [total_nil, List.length_nil, tuples, Finset.sum_singleton, Valuation.extend_nil]
  | cons s symbols ih =>
    have hinj : ∀ p q : Constant ℚ × Tuple ℚ, p.1 :: p.2 = q.1 :: q.2 → p = q := by
      intro p q h
      exact Prod.ext (List.cons.inj h).1 (List.cons.inj h).2
    rw [List.length_cons, tuples, Finset.sum_image fun p _ q _ h => hinj p q h,
      Finset.sum_product, total]
    exact Finset.sum_congr rfl fun c _ => ih _

/-- **A listing** of the tuples of constants for some symbols that satisfy a condition, each once. -/
structure Listing (w : World) (symbols : List Symbol) (P : Valuation ℚ → Prop) (v : Valuation ℚ)
    (ts : List (Tuple ℚ)) : Prop where
  /-- No tuple is listed twice. -/
  nodup : ts.Nodup
  /-- The tuples that satisfy the condition are listed. -/
  mem_iff : ∀ t, t ∈ ts ↔ t ∈ w.tuples symbols.length ∧ P (v.extend symbols t)

/-- Without symbols there is one tuple. -/
theorem listing_nil {P : Valuation ℚ → Prop} (h : P v) : w.Listing [] P v [[]] := by
  refine ⟨List.nodup_singleton _, fun t => ?_⟩
  rw [List.mem_singleton, List.length_nil, tuples, Finset.mem_singleton, Valuation.extend_nil]
  exact (and_iff_left h).symm

/-- A sum over the valuations that satisfy a condition is one over a listing. -/
theorem Listing.total_eq {P : Valuation ℚ → Prop} [DecidablePred P] {ts : List (Tuple ℚ)}
    (h : w.Listing symbols P v ts) (F : Valuation ℚ → R) :
    w.total symbols (fun u => if P u then F u else 0) v
      = (ts.map fun t => F (v.extend symbols t)).sum := by
  rw [total_eq_sum_tuples, ← Finset.sum_filter, ← List.sum_toFinset _ h.nodup]
  refine Finset.sum_congr (Finset.ext fun t => ?_) fun t _ => rfl
  rw [Finset.mem_filter, List.mem_toFinset, h.mem_iff]

/-- Binding symbols to a tuple of constants reaches a valuation. -/
theorem reaches_extend (hnodup : symbols.Nodup) {tuple : Tuple ℚ}
    (h : tuple ∈ w.tuples symbols.length) (v : Valuation ℚ) :
    w.Reaches symbols v (v.extend symbols tuple) where
  keeps := fun s hs => Valuation.extend_of_notMem v tuple hs
  binds := by
    obtain ⟨hlen, hall⟩ := mem_tuples.mp h
    intro s hs
    obtain ⟨i, hi, rfl⟩ := List.mem_iff_getElem.mp hs
    exact ⟨tuple[i], hall _ (List.getElem_mem _), Valuation.extend_getElem v hnodup hlen i hi⟩

/-- Conditions that agree where the symbols are bound have the same listings. -/
theorem Listing.congr {P Q : Valuation ℚ → Prop} {ts : List (Tuple ℚ)}
    (h : w.Listing symbols P v ts) (hnodup : symbols.Nodup)
    (hPQ : ∀ u, w.Reaches symbols v u → (P u ↔ Q u)) : w.Listing symbols Q v ts :=
  ⟨h.nodup, fun t => (h.mem_iff t).trans
    (and_congr_right fun ht => hPQ _ (reaches_extend hnodup ht v))⟩

/-- The first symbols bound to a tuple, the rests of a listing are a listing for the others. -/
theorem Listing.under {P : Valuation ℚ → Prop} {ts : List (Tuple ℚ)}
    (h : w.Listing (symbols ++ others) P v ts) {t : Tuple ℚ} (ht : t ∈ w.tuples symbols.length) :
    w.Listing others P (v.extend symbols t)
      ((ts.filter (·.take symbols.length = t)).map (·.drop symbols.length)) := by
  obtain ⟨hlen, hall⟩ := mem_tuples.mp ht
  -- a tuple of the listing that starts with the given one is it and its rest
  have hsplit : ∀ r ∈ ts.filter (·.take symbols.length = t), t ++ r.drop symbols.length = r := by
    intro r hr
    have hfirst : r.take symbols.length = t := of_decide_eq_true (List.mem_filter.mp hr).2
    rw [← hfirst, List.take_append_drop]
  have hmem : ∀ d, d ∈ (ts.filter (·.take symbols.length = t)).map (·.drop symbols.length)
      ↔ t ++ d ∈ ts := by
    intro d
    constructor
    · intro hd
      obtain ⟨r, hr, rfl⟩ := List.mem_map.mp hd
      rw [hsplit r hr]
      exact List.mem_of_mem_filter hr
    · intro hd
      refine List.mem_map.mpr ⟨t ++ d, List.mem_filter.mpr ⟨hd, ?_⟩, ?_⟩
      · rw [List.take_left' hlen, decide_eq_true rfl]
      · rw [List.drop_left' hlen]
  refine ⟨(h.nodup.filter _).map_on fun r hr r' hr' heq => ?_, fun d => ?_⟩
  · rw [← hsplit r hr, ← hsplit r' hr', heq]
  · rw [hmem, h.mem_iff, Valuation.extend_append v hlen, mem_tuples, mem_tuples]
    refine and_congr_left fun _ => ?_
    rw [List.length_append, List.length_append, hlen, Nat.add_left_cancel_iff,
      List.forall_mem_append]
    exact and_congr_right fun _ => and_iff_right hall

/-- Every reached valuation binds the symbols to a tuple of constants. -/
theorem Reaches.exists_tuple (h : w.Reaches symbols v u) (hnodup : symbols.Nodup) :
    ∃ tuple ∈ w.tuples symbols.length, u = v.extend symbols tuple := by
  induction symbols generalizing v with
  | nil => exact ⟨[], mem_tuples.mpr ⟨rfl, nofun⟩, h.eq_of_nil⟩
  | cons s symbols ih =>
    obtain ⟨hs, hnodup⟩ := List.nodup_cons.mp hnodup
    obtain ⟨c, hc, hu⟩ := h.binds s List.mem_cons_self
    have hrest : w.Reaches symbols (Function.update v s (some c)) u := by
      refine ⟨fun x hx => ?_, fun x hx => h.binds x (List.mem_cons_of_mem s hx)⟩
      by_cases hxs : x = s
      · rw [hxs, Function.update_self, hu]
      · rw [Function.update_of_ne hxs]
        exact h.keeps x (by rw [List.mem_cons, not_or]; exact ⟨hxs, hx⟩)
    obtain ⟨t, ht, heq⟩ := ih hrest hnodup
    obtain ⟨hlen, hall⟩ := mem_tuples.mp ht
    exact ⟨c :: t, mem_tuples.mpr ⟨congrArg Nat.succ hlen, List.forall_mem_cons.mpr ⟨hc, hall⟩⟩,
      heq⟩

end World

end RelationalLP
