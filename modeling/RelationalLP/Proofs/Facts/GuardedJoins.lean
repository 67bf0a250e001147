import Mathlib
import RelationalLP.Proofs.Expr.FreshNames
import RelationalLP.Proofs.Facts.JoinOrder

/-! # Guarded joins

Conjunctions of an atom, comparisons of its variables, and further atoms. The comparisons wait for the
first atom and are then applied in order before the other atoms are joined, so such a conjunction is
always solved. Where the bindings that are found are known, so are the answers: one row for each item
of a finite set. -/

namespace RelationalLP

variable {K : Type} [Scalar K]

/-- **A conjunction whose simplified parts are literals** is simplified to the conjunction of the different
ones. -/
theorem Formula.simplify_conj_eq_of_distinct {fs gs parts kept : List (Formula K)}
    (hgs : simplifyList fs = gs) (hdecided : falsity ∉ gs)
    (hparts : (gs.filter (· ≠ truth)).flatMap Connective.conj.parts = parts)
    (hkept : distinct parts = kept) (hlength : 2 ≤ kept.length) : (conj fs).simplify = conj kept := by
  have hjoin : Connective.conj.join gs = Connective.conj.collapse (distinct parts) := by
    rw [← hparts]
    exact if_neg hdecided
  rw [simplify, hgs, hjoin, hkept]
  match kept, hlength with
  | _ :: _ :: _, _ => rfl

/-- Different literals are all kept. -/
theorem Formula.simplify_conj_eq {fs gs parts : List (Formula K)} (hgs : simplifyList fs = gs)
    (hdecided : falsity ∉ gs)
    (hparts : (gs.filter (· ≠ truth)).flatMap Connective.conj.parts = parts)
    (hnodup : parts.Nodup) (hlength : 2 ≤ parts.length) : (conj fs).simplify = conj parts :=
  simplify_conj_eq_of_distinct hgs hdecided hparts (distinct_of_nodup hnodup) hlength

namespace FactBase

variable {fb : FactBase K}

/-! ### Filters -/

/-- A literal is ready when its variables are bound. -/
theorem isReady_of_bound {bound : List Symbol} {l : Literal K} (h : ∀ x ∈ l.vars, x ∈ bound) :
    isReady bound l = true := by
  have hnil : l.vars.filter (· ∉ bound) = [] := by
    rw [List.filter_eq_nil_iff]
    intro x hx
    simpa using h x hx
  unfold isReady
  rw [hnil]
  rfl

/-- **Literals whose variables are bound** are applied one after the other. -/
theorem exists_applyFilters_of_bound (fb : FactBase K) (ls : List (Literal K))
    (bindings : List (Binding K)) {bound : List Symbol} (h : ∀ l ∈ ls, ∀ x ∈ l.vars, x ∈ bound) :
    ∃ bound', fb.applyFilters ⟨bindings, ls, bound⟩
      = ⟨ls.foldl (fun bs l => bs.filterMap (fb.check l)) bindings, [], bound'⟩ := by
  induction ls generalizing bindings bound with
  | nil => exact ⟨bound, applyFilters_nil bindings bound⟩
  | cons l ls ih =>
    rw [List.forall_mem_cons] at h
    have hready := isReady_of_bound h.1
    have hfind : (l :: ls).find? (isReady bound) = some l := List.find?_cons_of_pos hready
    have hbound : ∀ l' ∈ ls, ∀ x ∈ l'.vars, x ∈ bound ++ l.vars := fun l' hl' x hx =>
      List.mem_append_left _ (h.2 l' hl' x hx)
    obtain ⟨bound', hrest⟩ := ih (bindings.filterMap (fb.check l)) hbound
    have herase : (l :: ls).eraseP (isReady bound) = ls := List.eraseP_cons_of_pos hready
    refine ⟨bound', ?_⟩
    rw [applyFilters_ready (s := ⟨bindings, l :: ls, bound⟩) hfind, herase]
    exact hrest

/-! ### Guarded conjunctions -/

/-- A conjunction of an atom, comparisons, and further atoms. -/
def guarded (a : Atom K) (guards : List (Comparison K)) (atoms : List (Atom K)) : Conjunction K :=
  .positive a :: (guards.map .compare ++ atoms.map .positive)

/-- **A guarded conjunction is solved**: the first atom is joined, the comparisons filter, and the other
atoms are joined. -/
theorem solve_guarded {a : Atom K} {guards : List (Comparison K)} (atoms : List (Atom K))
    (hwaiting : ∀ c ∈ guards, isReady [] (.compare c) = false)
    (hvars : ∀ c ∈ guards, ∀ x ∈ c.vars, x ∈ a.vars) :
    fb.solve (guarded a guards atoms) = .ok (atoms.foldl fb.join
      ((guards.map .compare).foldl (fun bs l => bs.filterMap (fb.check l)) (fb.join [.empty] a))) := by
  have hpositive : (atoms.map Literal.positive).filter (·.positive?.isNone) = [] := by
    rw [List.filter_eq_nil_iff, List.forall_mem_map]
    exact fun b _ => Bool.false_ne_true
  have hcompare : (guards.map Literal.compare).filter (·.positive?.isNone)
      = guards.map Literal.compare := by
    rw [List.filter_eq_self, List.forall_mem_map]
    exact fun c _ => rfl
  have hfilters : (guarded a guards atoms).filter (·.positive?.isNone) = guards.map .compare := by
    rw [guarded, List.filter_cons_of_neg Bool.false_ne_true, List.filter_append, hpositive, hcompare,
      List.append_nil]
  have hatoms : (guarded a guards atoms).filterMap Literal.positive? = a :: atoms := by
    have hnone : (guards.map Literal.compare).filterMap Literal.positive? = [] := by
      rw [List.filterMap_eq_nil_iff, List.forall_mem_map]
      exact fun c _ => rfl
    rw [guarded, List.filterMap_cons, List.filterMap_append, hnone, List.filterMap_map]
    exact congrArg (a :: ·) List.filterMap_some
  -- the first atom binds what the comparisons wait for, so all of them are applied before the others
  obtain ⟨bound, hguards⟩ := exists_applyFilters_of_bound fb (guards.map .compare)
    (fb.join [.empty] a) (List.forall_mem_map.mpr hvars)
  obtain ⟨bound', hrest⟩ := foldl_step_idle fb atoms
    ((guards.map .compare).foldl (fun bs l => bs.filterMap (fb.check l)) (fb.join [.empty] a)) bound
  rw [solve, hfilters, hatoms, applyFilters_waiting (List.forall_mem_map.mpr hwaiting),
    List.foldl_cons, step, List.nil_append, hguards, hrest]

/-- What is left of some bindings when comparisons filter them: those under which all of them hold. -/
theorem mem_foldl_check {guards : List (Comparison K)} {bs : List (Binding K)} {b : Binding K}
    (hbound : ∀ b ∈ bs, ∀ c ∈ guards, ∀ x ∈ c.vars, (b.get? x).isSome) :
    b ∈ (guards.map .compare).foldl (fun bs l => bs.filterMap (fb.check l)) bs
      ↔ b ∈ bs ∧ ∀ c ∈ guards, c.kleene b.get? = some true := by
  induction guards generalizing bs with
  | nil => exact (and_iff_left nofun).symm
  | cons c guards ih =>
    have hstep : ∀ b, b ∈ bs.filterMap (fb.check (.compare c)) ↔ b ∈ bs ∧ c.kleene b.get? = some true := by
      intro b
      rw [List.mem_filterMap]
      constructor
      · rintro ⟨b₀, hb₀, hcheck⟩
        obtain ⟨rfl, htrue⟩ := 
          (check_of_bound (l := .compare c) (hbound b₀ hb₀ c List.mem_cons_self)).mp hcheck
        exact ⟨hb₀, htrue⟩
      · rintro ⟨hb, htrue⟩
        exact ⟨b, hb,
          (check_of_bound (l := .compare c) (hbound b hb c List.mem_cons_self)).mpr ⟨rfl, htrue⟩⟩
    rw [List.map_cons, List.foldl_cons, ih fun b hb c' hc' =>
      hbound b ((hstep b).mp hb).1 c' (List.mem_cons_of_mem _ hc'), hstep, List.forall_mem_cons,
      and_assoc]

/-! ### Answers -/

variable {α : Type} [DecidableEq α] {S : Finset α} {row : α → Tuple K}

/-- **Answers that list a finite set**: one row for each item, in some order. -/
def Lists (found : Except KbError (Answers K)) (S : Finset α) (row : α → Tuple K) : Prop :=
  ∃ xs : List α, xs.Nodup ∧ xs.toFinset = S ∧ found = .ok (xs.map row)

/-- **The answers over a finite set**: where a formula has one conjunction, and the bindings that solve it
are those of the items of a set, each with a row of its own, these rows are the answers. -/
theorem lists_collect {B : α → Binding K} {selectors : List Symbol} {f : Formula K}
    {conjunction : Conjunction K} {bs : List (Binding K)}
    {cells : Binding K → Except KbError (Tuple K)} (hrow : Set.InjOn row S)
    (hdnf : f.toDnf = [conjunction]) (hselectors : ∀ s ∈ selectors, s ∈ f.vars)
    (hsolve : fb.solve conjunction = .ok bs) (hbs : ∀ b, b ∈ bs ↔ ∃ x ∈ S, B x = b)
    (hyields : ∀ x ∈ S, Yields selectors cells (B x) (row x)) :
    Lists (fb.collect selectors f cells) S row := by
  have hitem : ∀ b ∈ bs, ∃ x, x ∈ S ∧ B x = b := fun b hb => (hbs b).mp hb
  obtain ⟨rows, hrows⟩ : ∃ rows, List.Forall₂ (Yields selectors cells) bs rows :=
    exists_forall₂_of_forall_mem fun b hb => by
      obtain ⟨x, hx, rfl⟩ := hitem b hb
      exact ⟨row x, hyields x hx⟩
  -- the rows are those of the items, since an item determines its row
  have hmem : ∀ r, r ∈ rows ↔ ∃ x ∈ S, row x = r := by
    intro r
    constructor
    · intro hr
      obtain ⟨b, hb, hbr⟩ := exists_of_forall₂_right hrows hr
      obtain ⟨x, hx, rfl⟩ := hitem b hb
      exact ⟨x, hx, (hyields x hx).unique hbr⟩
    · rintro ⟨x, hx, rfl⟩
      obtain ⟨r, hr, hbr⟩ := exists_of_forall₂_left hrows ((hbs _).mpr ⟨x, hx, rfl⟩)
      rwa [(hyields x hx).unique hbr]
  -- rows of different items differ, so one item can be taken for each row
  obtain ⟨xs, hxs⟩ : ∃ xs, List.Forall₂ (fun r x => x ∈ S ∧ row x = r) (distinct rows) xs :=
    exists_forall₂_of_forall_mem fun r hr => (hmem r).mp (mem_distinct.mp hr)
  have hdistinct : distinct rows = xs.map row :=
    eq_map_of_forall₂ hxs.flip fun _ _ _ h => h.2.symm
  have hS : ∀ x ∈ xs, x ∈ S := fun x hx => by
    obtain ⟨r, -, hxS, -⟩ := exists_of_forall₂_right hxs hx
    exact hxS
  refine ⟨xs, .of_map row (hdistinct ▸ nodup_distinct rows), Finset.ext fun x => ?_, ?_⟩
  · rw [List.mem_toFinset]
    refine ⟨hS x, fun hx => ?_⟩
    have hr : row x ∈ distinct rows := mem_distinct.mpr ((hmem _).mpr ⟨x, hx, rfl⟩)
    rw [hdistinct] at hr
    obtain ⟨y, hy, heq⟩ := List.mem_map.mp hr
    rwa [← hrow (hS y hy) hx heq]
  · rw [collect_of_solve hdnf hselectors hsolve hrows, hdistinct]

end FactBase

end RelationalLP
