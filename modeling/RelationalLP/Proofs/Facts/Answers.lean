import Mathlib
import RelationalLP.Proofs.Facts.Search

/-! # Answers

What a fact base collects. Every row comes from a binding of variables to constants of the domain under
which the simplified formula is true, and every valuation of such constants that makes it true extends
a binding that is collected. -/

namespace RelationalLP

variable {K : Type}

namespace FactBase

/-! ### Selection -/

theorem select_eq_ok_iff {selectors : List Symbol} {b : Binding K} {t : Tuple K} :
    select selectors b = .ok t ↔ List.Forall₂ (fun s c => b.get? s = some c) selectors t := by
  rw [select, mapM_eq_ok_iff]
  constructor
  · refine fun h => h.imp fun s c hc => ?_
    cases hs : b.get? s with
    | none => rw [hs] at hc; cases hc
    | some d => rw [hs] at hc; rw [Except.ok.inj hc]
  · refine fun h => h.imp fun s c hc => ?_
    rw [hc]

/-- A binding that is collected, with the cells that it selects and the further ones. -/
def Yields (selectors : List Symbol) (cells : Binding K → Except KbError (Tuple K)) (b : Binding K)
    (r : Tuple K) : Prop :=
  ∃ t cs, List.Forall₂ (fun s c => b.get? s = some c) selectors t ∧ cells b = .ok cs ∧ r = t ++ cs

/-- Without further cells the cells are those that the binding selects. -/
theorem yields_plain {selectors : List Symbol} {b : Binding K} {r : Tuple K} :
    Yields selectors (fun _ => .ok []) b r ↔ Valuation.Reads b.get? selectors r := by
  constructor
  · rintro ⟨t, cs, ht, hcs, rfl⟩
    rw [← Except.ok.inj hcs, List.append_nil]
    exact ht
  · intro h
    exact ⟨r, [], h, rfl, (List.append_nil r).symm⟩

variable [Scalar K] {D : Domain K} {fb : FactBase K}

variable {selectors : List Symbol} {f : Formula K} {cells : Binding K → Except KbError (Tuple K)}
  {rows : Answers K}

/-- **What is collected**: the rows of all bindings of all conjunctions, each row once. -/
theorem collect_eq_ok (h : fb.collect selectors f cells = .ok rows) :
    rows.Nodup
      ∧ (∀ c ∈ f.toDnf, ∃ bs, fb.solve c = .ok bs
          ∧ ∀ b ∈ bs, ∃ r ∈ rows, Yields selectors cells b r)
      ∧ ∀ r ∈ rows, ∃ c ∈ f.toDnf, ∃ bs, fb.solve c = .ok bs
          ∧ ∃ b ∈ bs, Yields selectors cells b r := by
  unfold collect at h
  split at h
  · cases h
  · obtain ⟨found, hfound, h⟩ := bind_eq_ok_iff.mp h
    obtain rfl := Except.ok.inj h
    rw [OrderedIndex.items_ofList]
    -- each conjunction is solved, and each of its bindings gives a row
    have hconj : List.Forall₂ (fun c rs => ∃ bs, fb.solve c = .ok bs
        ∧ List.Forall₂ (Yields selectors cells) bs rs) f.toDnf found := by
      refine (mapM_eq_ok_iff.mp hfound).imp fun c rs hc => ?_
      obtain ⟨bs, hbs, hc⟩ := bind_eq_ok_iff.mp hc
      refine ⟨bs, hbs, (mapM_eq_ok_iff.mp hc).imp fun b r hr => ?_⟩
      obtain ⟨t, ht, hr⟩ := bind_eq_ok_iff.mp hr
      obtain ⟨cs, hcs, hr⟩ := bind_eq_ok_iff.mp hr
      exact ⟨t, cs, select_eq_ok_iff.mp ht, hcs, (Except.ok.inj hr).symm⟩
    refine ⟨nodup_distinct _, fun c hc => ?_, fun r hr => ?_⟩
    · obtain ⟨rs, hrs, bs, hbs, hall⟩ := exists_of_forall₂_left hconj hc
      refine ⟨bs, hbs, fun b hb => ?_⟩
      obtain ⟨r, hr, hyields⟩ := exists_of_forall₂_left hall hb
      exact ⟨r, mem_distinct.mpr (List.mem_flatten.mpr ⟨rs, hrs, hr⟩), hyields⟩
    · obtain ⟨rs, hrs, hr⟩ := List.mem_flatten.mp (mem_distinct.mp hr)
      obtain ⟨c, hc, bs, hbs, hall⟩ := exists_of_forall₂_right hconj hrs
      obtain ⟨b, hb, hyields⟩ := exists_of_forall₂_right hall hr
      exact ⟨c, hc, bs, hbs, b, hb, hyields⟩

/-! ### Truth of what is collected -/

/-- The literals of the normal form of a formula mention known constants only. -/
theorem knows_of_mem_toDnf (hf : D.Knows f.terms) {c : Conjunction K} (hc : c ∈ f.toDnf) :
    ∀ l ∈ c, D.Knows l.terms := fun _ hl d hd =>
  hf d (Formula.mem_terms_of_toDnf hc hl hd)

/-- **Every collected row is true**: it comes from a binding of variables of the formula to constants
under which the simplified formula is true. -/
theorem collect_sound (hD : D.Covers fb) (hf : D.Knows f.terms)
    (h : fb.collect selectors f cells = .ok rows) {r : Tuple K} (hr : r ∈ rows) :
    ∃ b : Binding K, D.Inside b.get? ∧ (∀ x, (b.get? x).isSome → x ∈ f.occurrences)
      ∧ f.simplify.kleene b.get? fb.holds = some true ∧ Yields selectors cells b r := by
  obtain ⟨-, -, hrows⟩ := collect_eq_ok h
  obtain ⟨c, hc, bs, hbs, b, hb, hyields⟩ := hrows r hr
  obtain ⟨s, rfl, hs⟩ := exists_exact_of_solve hD (knows_of_mem_toDnf hf hc) hbs
  refine ⟨b, hs.inside b hb, fun x hx => ?_, ?_, hyields⟩
  · obtain ⟨l, hl, hxl⟩ := hs.origin x ((hs.bound b hb x).mp hx)
    rw [Literal.mem_vars_iff] at hxl
    rw [Formula.mem_occurrences_iff]
    exact Formula.mem_terms_of_toDnf hc hl hxl
  · exact (Formula.holds_dnf f.simplify false).mp ⟨c, hc, hs.sound b hb⟩

/-- **Everything true is collected**: a valuation that makes the simplified formula true extends a
binding that is collected. -/
theorem collect_complete (hD : D.Covers fb) (hf : D.Knows f.terms)
    (h : fb.collect selectors f cells = .ok rows) {v : Valuation K} (hv : D.Inside v)
    (htrue : f.simplify.kleene v fb.holds = some true) :
    ∃ b : Binding K, v.Extends b.get? ∧ ∃ r ∈ rows, Yields selectors cells b r := by
  obtain ⟨-, hconj, -⟩ := collect_eq_ok h
  obtain ⟨c, hc, hholds⟩ := (Formula.holds_dnf f.simplify false).mpr htrue
  obtain ⟨bs, hbs, hall⟩ := hconj c hc
  obtain ⟨s, rfl, hs⟩ := exists_exact_of_solve hD (knows_of_mem_toDnf hf hc) hbs
  obtain ⟨b, hb, hext⟩ := hs.complete v hv hholds
  exact ⟨b, hext, hall b hb⟩

/-- **Answers by valuations**: a tuple is an answer when a valuation that makes the simplified formula
true reads it. -/
theorem mem_answers_iff (hD : D.Covers fb) (hf : D.Knows f.terms)
    (h : fb.answers selectors f = .ok rows) {t : Tuple K} :
    t ∈ rows ↔ ∃ v : Valuation K, D.Inside v ∧ f.simplify.kleene v fb.holds = some true
      ∧ v.Reads selectors t := by
  constructor
  · intro ht
    obtain ⟨b, hin, -, htrue, hyields⟩ := collect_sound hD hf h ht
    exact ⟨b.get?, hin, htrue, yields_plain.mp hyields⟩
  · rintro ⟨v, hin, htrue, hread⟩
    obtain ⟨b, hext, r, hr, hyields⟩ := collect_complete hD hf h hin htrue
    -- what the binding selects is what the valuation reads
    obtain rfl : r = t := ((yields_plain.mp hyields).of_extends hext).unique hread
    exact hr

/-! ### Facts -/

/-- The rows that a lookup finds are the arguments and one more cell. -/
theorem mem_found_iff (hD : D.Covers fb) {name : String} {t row : Tuple K} (ht : ∀ c ∈ t, c ∈ D) :
    row ∈ (fb.rows name).filter (fun row => startsWith t row && row.length == t.length + 1)
      ↔ ∃ c, row = t ++ [c] ∧ t ++ [c] ∈ fb.rows name := by
  rw [List.mem_filter, Bool.and_eq_true, beq_iff_eq]
  constructor
  · rintro ⟨hrow, hstart, hlen⟩
    obtain ⟨rest, rfl⟩ := (hD.startsWith_iff ht (hD.cells _ _ hrow)).mp hstart
    obtain ⟨c, rfl⟩ := List.length_eq_one_iff.mp (by simpa using hlen)
    exact ⟨c, rfl, hrow⟩
  · rintro ⟨c, rfl, hrow⟩
    exact ⟨hrow, (hD.startsWith_iff ht (hD.cells _ _ hrow)).mpr (List.prefix_append t [c]),
      List.length_append⟩

/-- **A resolved fact has one cell**: it is a number, and every row of the arguments and a further cell
ends with it. -/
theorem exists_cell_of_askFact (hD : D.Covers fb) {template : PredicateTemplate} {t : Tuple K}
    (ht : ∀ c ∈ t, c ∈ D) {x : K}
    (h : fb.askFact ⟨template, t.map .const⟩ = .ok (some x)) :
    ∃ c, c.number? = some x ∧ ∀ d, t ++ [d] ∈ fb.rows template.name ↔ d = c := by
  have hfound : ∀ row, row ∈ (fb.rows template.name).filter
      (fun row => startsWith t row && row.length == t.length + 1)
        ↔ ∃ c, row = t ++ [c] ∧ t ++ [c] ∈ fb.rows template.name := fun _ => mem_found_iff hD ht
  rw [askFact, Atom.ground?_const] at h
  simp only [Atom.name] at h
  split at h
  · cases h
  · rename_i row hone
    simp only [hone, List.mem_singleton] at hfound
    obtain ⟨c, rfl, hc⟩ := (hfound row).mp rfl
    refine ⟨c, ?_, fun d => ⟨fun hd => ?_, fun hd => hd ▸ hc⟩⟩
    · rw [List.getLast?_concat, Option.bind_some] at h
      cases hn : c.number? with
      | none => rw [hn] at h; cases h
      | some y => rw [hn] at h; exact congrArg some (Option.some.inj (Except.ok.inj h))
    · have heq := (hfound (t ++ [d])).mpr ⟨d, rfl, hd⟩
      exact (List.cons.inj (List.append_cancel_left heq)).1
  · cases h

/-- Every row of a resolved fact has its value. -/
theorem number?_of_askFact (hD : D.Covers fb) {template : PredicateTemplate} {t : Tuple K}
    (ht : ∀ c ∈ t, c ∈ D) {x : K}
    (h : fb.askFact ⟨template, t.map .const⟩ = .ok (some x)) {c : Constant K}
    (hc : t ++ [c] ∈ fb.rows template.name) : c.number? = some x := by
  obtain ⟨d, hd, hall⟩ := exists_cell_of_askFact hD ht h
  rwa [(hall c).mp hc]

/-- A fact resolves when no row is stored twice and one cell, a number, stands behind the arguments. -/
theorem askFact_of_cell (hD : D.Covers fb) (hfb : fb.facts.Nodup) {template : PredicateTemplate}
    {t : Tuple K} (ht : ∀ c ∈ t, c ∈ D) {c : Constant K} {x : K} (hc : c.number? = some x)
    (h : ∀ d, t ++ [d] ∈ fb.rows template.name ↔ d = c) :
    fb.askFact ⟨template, t.map .const⟩ = .ok (some x) := by
  have hrows : (fb.rows template.name).Nodup := by
    refine hfb.filterMap fun p q row hp hq => ?_
    simp only [Option.mem_def, Option.ite_none_right_eq_some, Option.some.injEq] at hp hq
    exact Prod.ext (hp.1.trans hq.1.symm) (hp.2.trans hq.2.symm)
  have hfound : (fb.rows template.name).filter (fun row =>
      startsWith t row && row.length == t.length + 1) = [t ++ [c]] := by
    refine List.perm_singleton.mp ((List.perm_ext_iff_of_nodup (hrows.filter _)
      (List.nodup_singleton _)).mpr fun row => ?_)
    rw [mem_found_iff hD ht, List.mem_singleton]
    constructor
    · rintro ⟨d, rfl, hd⟩
      rw [(h d).mp hd]
    · rintro rfl
      exact ⟨c, rfl, (h c).mpr rfl⟩
  rw [askFact, Atom.ground?_const]
  simp only [Atom.name, hfound, List.getLast?_concat, Option.bind_some, hc]

end FactBase

end RelationalLP
