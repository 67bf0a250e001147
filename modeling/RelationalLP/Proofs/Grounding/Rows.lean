import Mathlib
import RelationalLP.Proofs.Grounding.Keys
import RelationalLP.Proofs.Linear.Tally

/-! # Rows as quantities

A grounded row stands for a quantity that depends on the values of the decision variables. It keeps
this quantity while columns are added, and it has decision variables exactly when the quantity varies. -/

namespace RelationalLP

/-- **Known tallies**: no key occurs twice, and each key stands for an atom. -/
structure Tally.Known {K : Type} [Scalar K] (ctx : GroundingContext K) (t : Tally K) : Prop where
  /-- The keys increase. -/
  sorted : SortedByPosition t
  /-- Each key has an atom. -/
  known : ∀ key ∈ t.map Prod.fst, (ctx.atomAt key).isSome

namespace Tally

section

variable {K : Type} [Scalar K] {ctx ctx' : GroundingContext K} {t : Tally K}

theorem known_nil (ctx : GroundingContext K) : Known ctx [] :=
  ⟨List.Pairwise.nil, fun _ h => absurd h List.not_mem_nil⟩

/-- Known keys stay known. -/
theorem Known.grows (h : t.Known ctx) (hg : ctx.Grows ctx') : t.Known ctx' := by
  refine ⟨h.sorted, fun key hkey => ?_⟩
  obtain ⟨a, ha⟩ := Option.isSome_iff_exists.mp (h.known key hkey)
  rw [hg.atomAt ha]
  rfl

theorem Known.add (h : t.Known ctx) {key : Position} (hkey : (ctx.atomAt key).isSome) (v : K) :
    (t.add key v).Known ctx := by
  refine ⟨sorted_add h.sorted key v, fun k hk => ?_⟩
  rcases mem_fst_add.mp hk with rfl | hk
  · exact hkey
  · exact h.known k hk

end

variable {ctx ctx' : GroundingContext ℚ} {t : Tally ℚ}

/-- Known keys keep their values. -/
theorem Known.weigh_grows (h : t.Known ctx) (hg : ctx.Grows ctx') (x : Atom ℚ → ℚ) :
    weigh (ctx'.valueAt x) t = weigh (ctx.valueAt x) t := by
  refine weigh_congr fun e he => ?_
  obtain ⟨a, ha⟩ := Option.isSome_iff_exists.mp (h.known e.1 (List.mem_map_of_mem he))
  rw [GroundingContext.valueAt_of_atomAt ha, GroundingContext.valueAt_of_atomAt (hg.atomAt ha)]

/-- Where the decision variables are zero, so is a sum of them. -/
theorem weigh_valueAt_zero (ctx : GroundingContext ℚ) (t : Tally ℚ) :
    weigh (ctx.valueAt 0) t = 0 := by
  induction t with
  | nil => rfl
  | cons e t ih =>
    have hzero : ctx.valueAt 0 e.1 = 0 := by
      rw [GroundingContext.valueAt]
      cases ctx.atomAt e.1 <;> rfl
    rw [weigh_cons, ih, hzero, zero_mul, zero_add]

/-- The assignment that is one at a single atom picks out its key. -/
theorem Known.weigh_single (h : t.Known ctx) {key : Position} {a : Atom ℚ}
    (ha : ctx.atomAt key = some a) : weigh (ctx.valueAt (Pi.single a 1)) t = weigh (indicator key) t := by
  refine weigh_congr fun e he => ?_
  obtain ⟨b, hb⟩ := Option.isSome_iff_exists.mp (h.known e.1 (List.mem_map_of_mem he))
  rw [GroundingContext.valueAt_of_atomAt hb, indicator]
  by_cases hkey : e.1 = key
  · rw [hkey, ha] at hb
    rw [if_pos hkey, Option.some.inj hb, Pi.single_eq_same]
  · rw [if_neg hkey, Pi.single_eq_of_ne]
    rintro rfl
    exact hkey (GroundingContext.atomAt_inj hb ha)

/-- The number at a key is the weight of its indicator. -/
theorem weigh_indicator_of_mem {key : Position} {q : ℚ} (h : SortedByPosition t)
    (hmem : (key, q) ∈ t) : weigh (indicator key) t = q := by
  obtain ⟨before, after, rfl⟩ := List.append_of_mem hmem
  have hnodup := h.nodup
  rw [List.map_append, List.map_cons, List.nodup_append] at hnodup
  have hbefore : key ∉ before.map Prod.fst := fun hk =>
    hnodup.2.2 key hk key List.mem_cons_self rfl
  rw [weigh_append, weigh_cons, weigh_indicator_of_notMem hbefore,
    weigh_indicator_of_notMem (List.nodup_cons.mp hnodup.2.1).1, indicator, if_pos rfl, one_mul,
    zero_add, add_zero]

/-- **A sum with a nonzero entry is not always zero.** -/
theorem Known.any_ne_zero_iff (h : t.Known ctx) : (t.any fun e => !Scalar.isZero e.2) = true
    ↔ ∃ x, weigh (ctx.valueAt x) t ≠ 0 := by
  rw [List.any_eq_true]
  constructor
  · rintro ⟨e, he, hne⟩
    obtain ⟨a, ha⟩ := Option.isSome_iff_exists.mp (h.known e.1 (List.mem_map_of_mem he))
    refine ⟨Pi.single a 1, ?_⟩
    rw [h.weigh_single ha, weigh_indicator_of_mem h.sorted he]
    simpa using hne
  · rintro ⟨x, hne⟩
    by_contra hall
    refine hne ?_
    have hzero : ∀ e ∈ t, e.2 = 0 := by
      intro e he
      by_contra hq
      exact hall ⟨e, he, by simpa using hq⟩
    exact List.sum_eq_zero (List.forall_mem_map.mpr fun e he => by rw [hzero e he, mul_zero])

end Tally

/-! ### Quantities -/

/-- A number that depends on the values of the decision variables. -/
abbrev Quantity := (Atom ℚ → ℚ) → ℚ

/-- A quantity varies when the values of the decision variables matter. -/
def Quantity.Varies (F : Quantity) : Prop := ∃ x, F x ≠ F 0

noncomputable instance (F : Quantity) : Decidable F.Varies := Classical.propDecidable _

/-! ### Rows -/

namespace GroundRow

variable {ctx ctx' : GroundingContext ℚ}

/-- The value of a row under an assignment of the decision variables. -/
def valueAt (ctx : GroundingContext ℚ) (x : Atom ℚ → ℚ) (r : GroundRow ℚ) : ℚ :=
  weigh (ctx.valueAt x) r.entries + r.constant

/-- The quantity that a row stands for. -/
def quantity (ctx : GroundingContext ℚ) (r : GroundRow ℚ) : Quantity := fun x => r.valueAt ctx x

variable {r : GroundRow ℚ}

@[simp] theorem valueAt_empty (ctx : GroundingContext ℚ) (x : Atom ℚ → ℚ) :
    (empty : GroundRow ℚ).valueAt ctx x = 0 := add_zero 0

theorem valueAt_zero (ctx : GroundingContext ℚ) (r : GroundRow ℚ) : r.valueAt ctx 0 = r.constant := by
  rw [valueAt, Tally.weigh_valueAt_zero, zero_add]

/-- **A row has decision variables when its quantity varies.** -/
theorem hasDecisions_iff (h : r.entries.Known ctx) :
    r.hasDecisions = true ↔ (r.quantity ctx).Varies := by
  rw [hasDecisions, h.any_ne_zero_iff]
  refine exists_congr fun x => ?_
  rw [quantity, quantity, valueAt_zero, valueAt, ne_eq, ne_eq, add_eq_right]

theorem valueAt_grows (h : r.entries.Known ctx) (hg : ctx.Grows ctx') (x : Atom ℚ → ℚ) :
    r.valueAt ctx' x = r.valueAt ctx x := by
  rw [valueAt, valueAt, h.weigh_grows hg]

theorem quantity_grows (h : r.entries.Known ctx) (hg : ctx.Grows ctx') :
    r.quantity ctx' = r.quantity ctx := funext fun x => valueAt_grows h hg x

theorem valueAt_add (x : Atom ℚ → ℚ) (key : Position) (q : ℚ) :
    (r.add key q).valueAt ctx x = r.valueAt ctx x + ctx.valueAt x key * q := by
  rw [valueAt, valueAt, add, Tally.weigh_add]
  ring

theorem valueAt_addConstant (x : Atom ℚ → ℚ) (q : ℚ) :
    (r.addConstant q).valueAt ctx x = r.valueAt ctx x + q := by
  rw [valueAt, valueAt, addConstant, add_assoc]

/-- **Progress of a row**: columns may be added, and the row gains a quantity. -/
structure Gains (ctx : GroundingContext ℚ) (row : GroundRow ℚ) (ctx' : GroundingContext ℚ)
    (row' : GroundRow ℚ) (F : Quantity) : Prop where
  /-- Columns may be added. -/
  widens : ctx.Widens ctx'
  /-- The keys of the row are known. -/
  known : row'.entries.Known ctx'
  /-- The row gains the quantity. -/
  value_eq : ∀ x, row'.valueAt ctx' x = row.valueAt ctx x + F x

variable {row row' : GroundRow ℚ} {F : Quantity}

theorem Gains.congr {G : Quantity} (h : row.Gains ctx ctx' row' F) (heq : ∀ x, G x = F x) :
    row.Gains ctx ctx' row' G :=
  ⟨h.widens, h.known, fun x => by rw [h.value_eq, heq]⟩

theorem Gains.refl (h : row.entries.Known ctx) : row.Gains ctx ctx row fun _ => 0 :=
  ⟨.refl ctx, h, fun _ => (add_zero _).symm⟩

theorem Gains.trans {ctx'' : GroundingContext ℚ} {row'' : GroundRow ℚ} {G : Quantity}
    (h : row.Gains ctx ctx' row' F) (h' : row'.Gains ctx' ctx'' row'' G) :
    row.Gains ctx ctx'' row'' fun x => F x + G x :=
  ⟨h.widens.trans h'.widens, h'.known, fun x => by rw [h'.value_eq, h.value_eq, add_assoc]⟩

/-- What the row of zeros gains is the quantity of the row. -/
theorem Gains.quantity_eq (h : empty.Gains ctx ctx' row F) : row.quantity ctx' = F := by
  funext x
  rw [quantity, h.value_eq, valueAt_empty, zero_add]

theorem gains_addConstant (h : row.entries.Known ctx) (q : ℚ) :
    row.Gains ctx ctx (row.addConstant q) fun _ => q :=
  ⟨.refl ctx, h, fun x => valueAt_addConstant x q⟩

/-- A row gains a multiple of the decision variable whose column is asked for. -/
theorem gains_column (hv : ctx.Valid) (hrow : row.entries.Known ctx) {a : Atom ℚ} {b : Binding ℚ}
    {key : Position} (h : GroundM.Runs (GroundM.column a b) ctx key ctx') (q : ℚ) :
    ∃ g, a.groundAt b.get? = some g ∧ row.Gains ctx ctx' (row.add key q) fun x => q * x g := by
  obtain ⟨hwidens, g, hg, hat⟩ := GroundingContext.runs_column hv h
  refine ⟨g, hg, hwidens, (hrow.grows hwidens.toGrows).add (by rw [hat]; rfl) q, fun x => ?_⟩
  rw [valueAt_add, valueAt_grows hrow hwidens.toGrows, GroundingContext.valueAt_of_atomAt hat, mul_comm]

/-- A loop over a row gains what its steps gain, one quantity for each item. -/
theorem gains_foldlM {α : Type} {f : GroundRow ℚ → α → GroundM ℚ Id (GroundRow ℚ)} {xs : List α}
    {P : α → Quantity → Prop}
    (hstep : ∀ x ∈ xs, ∀ {ctx ctx' row row'}, ctx.Valid → row.entries.Known ctx →
      GroundM.Runs (f row x) ctx row' ctx' → ∃ F, row.Gains ctx ctx' row' F ∧ P x F)
    (hv : ctx.Valid) (hrow : row.entries.Known ctx)
    (h : GroundM.Runs (xs.foldlM f row) ctx row' ctx') :
    ∃ Fs, List.Forall₂ P xs Fs ∧ row.Gains ctx ctx' row' fun x => (Fs.map (· x)).sum := by
  induction xs generalizing ctx row with
  | nil =>
    obtain ⟨rfl, rfl⟩ := GroundM.runs_foldlM_nil.mp h
    exact ⟨[], .nil, .refl hrow⟩
  | cons x xs ih =>
    obtain ⟨row₁, ctx₁, hfirst, hrest⟩ := GroundM.runs_foldlM_cons.mp h
    obtain ⟨F, hgains, hx⟩ := hstep x List.mem_cons_self hv hrow hfirst
    obtain ⟨Fs, hxs, hgains'⟩ := ih (fun y hy => hstep y (List.mem_cons_of_mem x hy))
      (hgains.widens.valid hv) hgains.known hrest
    exact ⟨F :: Fs, .cons hx hxs, hgains.trans hgains'⟩

end GroundRow

end RelationalLP
