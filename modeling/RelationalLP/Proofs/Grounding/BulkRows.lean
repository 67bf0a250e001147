import Mathlib
import RelationalLP.Proofs.Grounding.BulkQueries

/-! # Rows of bulk queries

The rows that a summand gets under an outer query. A summand without value atoms has its rows from a query
that says the same as both formulas. For a summand with value atoms the rows are counted against that
query. Either way every tuple under which both formulas are true has exactly one row. -/

namespace RelationalLP

namespace Blocks

open SplitSummand

variable {w : World} {fb : FactBase ℚ} {outer : Query ℚ} {s : Summand ℚ} {split : SplitSummand ℚ}
  {atoms : List (Formula ℚ)} {symbols : List Symbol} {ctx ctx' : GroundingContext ℚ}

/-! ### Splitting answers -/

/-- The answer that a row comes from: its tuple and its number at the end. -/
def answerOf (row : Tuple ℚ × ℚ) : Tuple ℚ := row.1 ++ [.real row.2]

theorem answerOf_inj {row row' : Tuple ℚ × ℚ} (h : answerOf row = answerOf row') : row = row' := by
  obtain ⟨htuple, hcell⟩ := List.append_inj' h rfl
  exact Prod.ext htuple (Constant.real.inj (List.cons.inj hcell).1)

/-- The number at the end of an answer is taken off. -/
theorem splitAnswer_concat {K : Type} [Scalar K] (e : Expr K) (t : Tuple K) (y : K) :
    splitAnswer e (t ++ [.real y]) = .ok (t, y) := by
  rw [splitAnswer, List.getLast?_concat, List.dropLast_concat]
  rfl

theorem splitAnswer_answerOf (e : Expr ℚ) (row : Tuple ℚ × ℚ) :
    splitAnswer e (answerOf row) = .ok row := splitAnswer_concat e row.1 row.2

/-- The search for a repeated key finds none when no key is repeated. -/
theorem repeated?_eq_none_iff {K : Type} [Scalar K] {seen : OrderedIndex (Tuple K)}
    {keys : List (Tuple K)} :
    repeated? seen keys = none ↔ keys.Nodup ∧ ∀ t ∈ keys, t ∉ seen.items := by
  induction keys generalizing seen with
  | nil => exact iff_of_true rfl ⟨List.nodup_nil, fun t ht => absurd ht List.not_mem_nil⟩
  | cons t keys ih =>
    rw [repeated?, List.nodup_cons, List.forall_mem_cons]
    by_cases ht : t ∈ seen.items
    · have hseen : (seen.get? t).isSome = true := by
        rw [Option.isSome_iff_ne_none, ne_eq, OrderedIndex.get?_eq_none, not_not]
        exact ht
      rw [if_pos hseen]
      exact iff_of_false nofun fun h => h.2.1 ht
    · have hseen : ¬ (seen.get? t).isSome = true := by
        rw [Option.not_isSome_iff_eq_none, OrderedIndex.get?_eq_none]
        exact ht
      rw [if_neg hseen, ih]
      simp only [OrderedIndex.items_insert, mem_insertNew, not_or]
      constructor
      · rintro ⟨hnodup, hunseen⟩
        exact ⟨⟨fun hmem => (hunseen t hmem).2 rfl, hnodup⟩, ht, fun k hk => (hunseen k hk).1⟩
      · rintro ⟨⟨hnew, hnodup⟩, -, hunseen⟩
        exact ⟨hnodup, fun k hk => ⟨hunseen k hk, fun heq => hnew (heq ▸ hk)⟩⟩

/-- **The check of the values** succeeds when no key is repeated and there are as many rows as answers
without the value atoms. -/
theorem runs_checkResolved {K : Type} [Scalar K] {fb : FactBase K} {outer : Query K}
    {split : SplitSummand K} {ctx ctx' : GroundingContext K} {found : List (Tuple K × K)} {u : Unit} :
    GroundM.Runs (checkResolved fb.knowledgeBase outer split found) ctx u ctx'
      ↔ ctx' = ctx ∧ (found.map Prod.fst).Nodup ∧ ∃ ts,
        fb.answers (outer.conjoin split.base).symbols (outer.conjoin split.base).formula = .ok ts
          ∧ ts.length = found.length := by
  have hempty : (found.map Prod.fst).Nodup ↔ repeated? .empty (found.map Prod.fst) = none := by
    rw [repeated?_eq_none_iff]
    exact (and_iff_left fun t _ => List.not_mem_nil).symm
  rw [hempty]
  unfold checkResolved
  cases hkeys : repeated? .empty (found.map Prod.fst) with
  | some key =>
    -- a repeated key is refused before the facts are asked again
    refine iff_of_false (fun h => ?_) fun h => nomatch h.2.1
    obtain ⟨u₁, ctx₁, hthrow, -⟩ := GroundM.runs_bind.mp h
    exact GroundM.not_runs_throw hthrow
  | none =>
    constructor
    · intro h
      obtain ⟨ts, ctx₁, hrequest, hcount⟩ := GroundM.runs_bind.mp h
      obtain ⟨hask, rfl⟩ := GroundM.runs_request.mp hrequest
      by_cases hlength : ts.length ≠ found.length
      · rw [if_pos hlength] at hcount
        exact absurd hcount GroundM.not_runs_throw
      · rw [if_neg hlength] at hcount
        obtain ⟨-, rfl⟩ := GroundM.runs_pure.mp hcount
        exact ⟨rfl, rfl, ts, hask, not_not.mp hlength⟩
    · rintro ⟨rfl, -, ts, hask, hlength⟩
      refine GroundM.runs_bind.mpr ⟨ts, _, GroundM.runs_request.mpr ⟨hask, rfl⟩, ?_⟩
      rw [if_neg (not_not.mpr hlength)]
      exact GroundM.runs_pure.mpr ⟨rfl, rfl⟩

/-! ### The rows of a summand -/

/-- **The rows of a summand under an outer query**: one for each tuple under which both formulas are true,
with the value of the plain factors wherever these are finite. -/
structure Answered (w : World) (fb : FactBase ℚ) (outer : Query ℚ) (s : Summand ℚ)
    (found : List (Tuple ℚ × ℚ)) : Prop where
  /-- The tuples are listed. -/
  listing : w.Listing (outer.symbols ++ s.bound) (BothHold w outer s) .unbound (found.map Prod.fst)
  /-- The number of a tuple is the product of the plain factors. -/
  value_eq : ∀ r ∈ found,
    s.plainDenote fb.demands (Valuation.unbound.extend (outer.symbols ++ s.bound) r.1) ≠ ⊤ →
      ∀ x, r.2 = s.plainDenote (fb.values x)
        (Valuation.unbound.extend (outer.symbols ++ s.bound) r.1)

/-- Without value atoms, a row is a tuple under which both formulas are true, and a number that the cells of
the tuple determine. -/
theorem exists_of_plain_row (hw : w.Describes fb) (he : outer.Encloses w s)
    (hs : Splits s split [] symbols) {found : List (Tuple ℚ × ℚ)}
    (h : fb.ask (outer.conjoin split.query).symbols (outer.conjoin split.query).formula
      (some split.coefficient) = .ok (found.map answerOf)) {r : Tuple ℚ × ℚ} (hr : r ∈ found) :
    ∃ ys, r.2 = s.coefficient * ys.prod ∧ r.1 ∈ w.tuples (outer.symbols ++ s.bound).length
      ∧ BothHold w outer s (Valuation.unbound.extend (outer.symbols ++ s.bound) r.1)
      ∧ List.Forall₂ (fun x y => (Valuation.unbound.extend (outer.symbols ++ s.bound) r.1 x).bind
        Constant.number? = some y) symbols ys := by
  obtain ⟨b, t, ys, hrt, htuple, hext, hvars, hboth, hys, -⟩ :=
    exists_of_mem_ask hw he hs h (List.mem_map_of_mem hr)
  obtain rfl : r = (t, s.coefficient * ys.prod) := answerOf_inj hrt
  refine ⟨ys, rfl, htuple, hboth, hys.imp fun x y hy => ?_⟩
  -- the query has no variables but its symbols, so the binding is that of the tuple
  obtain ⟨c, hc, hnumber⟩ := Option.bind_eq_some_iff.mp hy
  have hmem : x ∈ outer.symbols ++ s.bound := by
    have hocc := hvars x (by rw [hc]; rfl)
    rw [hs.plain rfl] at hocc
    exact scoped_conjoin_base he x hocc
  obtain ⟨d, -, hd⟩ := (World.reaches_extend he.nodup htuple .unbound).binds x hmem
  obtain rfl : c = d := Option.some.inj (hc.symm.trans (hext x d hd))
  rw [hd]
  exact hnumber

/-- Without value atoms, every tuple under which both formulas are true has a row. -/
theorem mem_of_plain_row (hw : w.Describes fb) (he : outer.Encloses w s)
    (hs : Splits s split [] symbols) {found : List (Tuple ℚ × ℚ)}
    (h : fb.ask (outer.conjoin split.query).symbols (outer.conjoin split.query).formula
      (some split.coefficient) = .ok (found.map answerOf)) {t : Tuple ℚ}
    (htuple : t ∈ w.tuples (outer.symbols ++ s.bound).length)
    (hboth : BothHold w outer s (Valuation.unbound.extend (outer.symbols ++ s.bound) t)) :
    t ∈ found.map Prod.fst := by
  obtain ⟨hdecided, htrue⟩ := kleene_conjoin_base he (World.reaches_extend he.nodup htuple .unbound)
  have hsimplified := (Formula.kleene_simplify_iff hdecided).mpr (htrue.mpr hboth)
  rw [hs.plain rfl] at h
  rw [hw.truthOf_eq] at hsimplified
  obtain ⟨b, hext, r, hr, t', cs, ht', hcs, rfl⟩ := FactBase.collect_complete hw.covers
    (knows_conjoin_base he) h (FactBase.inside_extend htuple) hsimplified
  obtain ⟨y, -, rfl⟩ := coefficientCell_eq_ok hcs
  obtain ⟨p, hp, heq⟩ := List.mem_map.mp hr
  obtain rfl : p = (t', y) := answerOf_inj heq
  rw [symbols_conjoin_base he] at ht'
  -- what the binding selects is what the valuation says of the symbols
  have hread : Valuation.Reads b.get? (outer.symbols ++ s.bound) t' := ht'
  obtain rfl : t' = t := (hread.of_extends hext).unique
    (Valuation.reads_extend _ he.nodup (World.mem_tuples.mp htuple).1)
  exact List.mem_map_of_mem hp

/-- Without value atoms, rows for the same tuple have the same number, and no tuple is missing. -/
theorem listing_plain (hw : w.Describes fb) (he : outer.Encloses w s) (hs : Splits s split [] symbols)
    {found : List (Tuple ℚ × ℚ)}
    (h : fb.ask (outer.conjoin split.query).symbols (outer.conjoin split.query).formula
      (some split.coefficient) = .ok (found.map answerOf)) :
    w.Listing (outer.symbols ++ s.bound) (BothHold w outer s) .unbound (found.map Prod.fst) := by
  have hcollected : (found.map answerOf).Nodup := (FactBase.collect_eq_ok h).1
  refine ⟨hcollected.of_map.map_on fun r hr r' hr' heq => ?_, fun t => ⟨fun ht => ?_, ?_⟩⟩
  · obtain ⟨ys, hvalue, -, -, hys⟩ := exists_of_plain_row hw he hs h hr
    obtain ⟨ys', hvalue', -, -, hys'⟩ := exists_of_plain_row hw he hs h hr'
    rw [← heq] at hys'
    obtain rfl : ys = ys' := List.right_unique_forall₂'
      (fun x y y' hy hy' => Option.some.inj (hy.symm.trans hy')) hys hys'
    exact Prod.ext heq (hvalue.trans hvalue'.symm)
  · obtain ⟨r, hr, rfl⟩ := List.mem_map.mp ht
    obtain ⟨ys, -, htuple, hboth, -⟩ := exists_of_plain_row hw he hs h hr
    exact ⟨htuple, hboth⟩
  · rintro ⟨htuple, hboth⟩
    exact mem_of_plain_row hw he hs h htuple hboth

/-- Checked rows are complete: their tuples are among the answers without the value atoms, no tuple is
repeated, and there are as many. -/
theorem listing_checked (hw : w.Describes fb) (he : outer.Encloses w s)
    (hs : Splits s split atoms symbols) {found : List (Tuple ℚ × ℚ)}
    (h : fb.ask (outer.conjoin split.query).symbols (outer.conjoin split.query).formula
      (some split.coefficient) = .ok (found.map answerOf))
    (hnodup : (found.map Prod.fst).Nodup) {ts : Answers ℚ}
    (hts : fb.answers (outer.conjoin split.base).symbols (outer.conjoin split.base).formula = .ok ts)
    (hlength : ts.length = found.length) :
    w.Listing (outer.symbols ++ s.bound) (BothHold w outer s) .unbound (found.map Prod.fst) := by
  rw [hs.base_eq] at hts
  have hlist := listing_base hw he hts
  have hsub : found.map Prod.fst ⊆ ts := by
    intro t ht
    obtain ⟨r, hr, rfl⟩ := List.mem_map.mp ht
    obtain ⟨b, t, ys, hrt, htuple, -, -, hboth, -⟩ :=
      exists_of_mem_ask hw he hs h (List.mem_map_of_mem hr)
    obtain rfl : r = (t, s.coefficient * ys.prod) := answerOf_inj hrt
    exact (hlist.mem_iff t).mpr ⟨htuple, hboth⟩
  have hperm : (found.map Prod.fst).Perm ts :=
    (hnodup.subperm hsub).perm_of_length_le (by rw [List.length_map, hlength])
  exact ⟨hnodup, fun t => hperm.mem_iff.trans (hlist.mem_iff t)⟩

/-- **A successful bulk query** answers the summand under the outer query. -/
theorem runs_rows (hw : w.Describes fb) (he : outer.Encloses w s) (hs : Splits s split atoms symbols)
    {found : List Symbol × List (Tuple ℚ × ℚ)}
    (h : GroundM.Runs (rows fb.knowledgeBase outer split) ctx found ctx') :
    ctx' = ctx ∧ found.1 = outer.symbols ++ s.bound ∧ Answered w fb outer s found.2 := by
  obtain ⟨answers, ctx₁, hrequest, hrest⟩ := GroundM.runs_bind.mp h
  obtain ⟨hask, rfl⟩ := GroundM.runs_request.mp hrequest
  obtain ⟨rs, ctx₂, hsplit, hchecked⟩ := GroundM.runs_bind.mp hrest
  obtain ⟨hrs, rfl⟩ := GroundM.runs_liftExcept.mp hsplit
  -- splitting an answer and putting it together again changes nothing
  have hanswers : answers = rs.map answerOf := by
    rw [← List.map_id answers]
    refine (map_eq_map_of_forall₂ (mapM_eq_ok_iff.mp hrs) fun r hr p hp => ?_).symm
    obtain ⟨b, t, ys, rfl, -⟩ := exists_of_mem_ask hw he hs hask hr
    have hsplit := splitAnswer_answerOf split.coefficient (t, s.coefficient * ys.prod)
    rw [Except.ok.inj (hp.symm.trans hsplit)]
    rfl
  rw [hanswers] at hask
  have hvalue : ∀ r ∈ rs,
      s.plainDenote fb.demands (Valuation.unbound.extend (outer.symbols ++ s.bound) r.1) ≠ ⊤ →
        ∀ x, r.2 = s.plainDenote (fb.values x)
          (Valuation.unbound.extend (outer.symbols ++ s.bound) r.1) := by
    intro r hr
    obtain ⟨b, t, ys, hrt, -, -, -, -, -, hys⟩ :=
      exists_of_mem_ask hw he hs hask (List.mem_map_of_mem hr)
    obtain rfl : r = (t, s.coefficient * ys.prod) := answerOf_inj hrt
    exact hys
  have hsymbols := symbols_conjoin_split he hs
  -- with value atoms the check says that none of the answers was lost or doubled
  by_cases hcount : 0 < split.valueAtoms
  · rw [if_pos hcount] at hchecked
    obtain ⟨u, ctx₃, hcheck, hpure⟩ := GroundM.runs_bind.mp hchecked
    obtain ⟨rfl, hnodup, ts, hts, hlength⟩ := runs_checkResolved.mp hcheck
    obtain ⟨rfl, rfl⟩ := GroundM.runs_pure.mp hpure
    exact ⟨rfl, hsymbols, listing_checked hw he hs hask hnodup hts hlength, hvalue⟩
  · -- without value atoms the query is that of the answers
    rw [if_neg hcount] at hchecked
    obtain ⟨rfl, rfl⟩ := GroundM.runs_pure.mp hchecked
    rw [hs.count_eq, List.length_pos_iff, not_not] at hcount
    subst hcount
    exact ⟨rfl, hsymbols, listing_plain hw he hs hask, hvalue⟩

end Blocks

end RelationalLP
