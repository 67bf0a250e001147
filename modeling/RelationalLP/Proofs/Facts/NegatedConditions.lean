import Mathlib
import RelationalLP.Number.Double
import RelationalLP.Proofs.Facts.ConjoinedQueries

/-! # Conditions and their negations

A condition put beside a query, and its negation put beside it. Simplification turns the negation of a
comparison into the opposite comparison, so an order between constants that do not compare is false both
ways. Main statement: an answer of the query that leaves the condition no such order is an answer with the
condition or with its negation, not with both, and neither has any other answer. -/

namespace RelationalLP

variable {K : Type}

/-- A pair of formulas brings no further constants in. -/
theorem Domain.Knows.conj_pair {D : Domain K} {g f : Formula K} (hg : D.Knows g.terms)
    (hf : D.Knows f.terms) : D.Knows (Formula.conj [g, f]).terms := by
  intro c hc
  obtain ⟨h, hh, hterm⟩ := Formula.mem_termsList.mp hc
  rcases List.mem_pair.mp hh with rfl | rfl
  · exact hg c hterm
  · exact hf c hterm

variable [Scalar K]

namespace Formula

variable {v : Valuation K} {truthOf : Atom K → Bool} {f g : Formula K}

/-- A simplified conjunction of two formulas is true when both are, simplified. -/
theorem kleene_simplify_conj_pair : (conj [g, f]).simplify.kleene v truthOf = some true
    ↔ g.simplify.kleene v truthOf = some true ∧ f.simplify.kleene v truthOf = some true := by
  rw [kleene_simplify_conj, List.forall_mem_cons, List.forall_mem_singleton]

/-- A simplified negation is true when the simplified formula is false. -/
theorem kleene_simplify_neg : (neg f).simplify.kleene v truthOf = some true
    ↔ f.simplify.kleene v truthOf = some false := by
  rw [simplify, kleene_opposite, Option.map_eq_some_iff]
  simp

/-- **A condition whose orders compare is true or false** when all its variables are read. -/
theorem Comparable.simplify_decided {selectors : List Symbol} {t : Tuple K}
    (h : f.Comparable (Binding.ofAnswer selectors t).get?) (hvars : ∀ x ∈ f.vars, x ∈ selectors)
    (ht : v.Reads selectors t) :
    f.simplify.kleene v truthOf = some true ∨ f.simplify.kleene v truthOf = some false := by
  set b := Binding.ofAnswer selectors t
  -- the valuation and the binding of the tuple agree on the variables
  have hagree : ∀ x ∈ f.occurrences, b.get? x = v x := by
    intro x hx
    rw [Binding.get?_ofAnswer]
    exact ht.extend_eq .unbound x (hvars x (mem_vars.mpr hx))
  have hbound : ∀ x ∈ f.occurrences, (b.get? x).isSome := by
    intro x hx
    obtain ⟨c, -, hc⟩ := exists_of_forall₂_left ht (hvars x (mem_vars.mpr hx))
    rw [hagree x hx, hc]
    rfl
  obtain ⟨y, hy⟩ := Option.ne_none_iff_exists'.mp (h.kleene_ne_none hbound)
  rw [kleene_congr f hagree] at hy
  have hsimplified := kleene_simplify f y hy
  cases y with
  | true => exact .inl hsimplified
  | false => exact .inr hsimplified

/-- **A tuple of the variables of a condition fixes its truth.** -/
theorem kleene_simplify_eq_of_reads {w : Valuation K} {selectors : List Symbol} {t : Tuple K}
    (hvars : ∀ x ∈ f.vars, x ∈ selectors) (hv : v.Reads selectors t) (hw : w.Reads selectors t) :
    f.simplify.kleene v truthOf = f.simplify.kleene w truthOf :=
  kleene_congr _ fun x hx => hv.eq_of_mem hw x
    (hvars x (mem_vars.mpr (mem_occurrences_of_simplify f hx)))

end Formula

namespace FactBase

variable {fb : FactBase K} {selectors : List Symbol} {g f : Formula K}

section Answers

variable {D : Domain K} {answers : Answers K} {t : Tuple K} (hD : D.Covers fb)
  (hg : D.Knows g.terms) (hf : D.Knows f.terms)

include hD hg hf

/-- The answers of a query with a condition. -/
theorem mem_ask_conj_pair_iff (hanswers : fb.ask selectors (.conj [g, f]) none = .ok answers) :
    t ∈ answers ↔ ∃ v : Valuation K, D.Inside v ∧ (g.simplify.kleene v fb.holds = some true
      ∧ f.simplify.kleene v fb.holds = some true) ∧ v.Reads selectors t := by
  rw [mem_answers_iff hD (hg.conj_pair hf) hanswers]
  simp only [Formula.kleene_simplify_conj_pair]

/-- The answers of a query with the negation of a condition. -/
theorem mem_ask_conj_neg_iff (hanswers : fb.ask selectors (.conj [g, .neg f]) none = .ok answers) :
    t ∈ answers ↔ ∃ v : Valuation K, D.Inside v ∧ (g.simplify.kleene v fb.holds = some true
      ∧ f.simplify.kleene v fb.holds = some false) ∧ v.Reads selectors t := by
  have hneg : D.Knows (Formula.neg f).terms := hf
  rw [mem_ask_conj_pair_iff hD hg hneg hanswers]
  simp only [Formula.kleene_simplify_neg]

end Answers

/-- **A condition splits the answers of a query**: whenever the query is answered alone, with the
condition and with its negation, every answer is one with the condition or with its negation, not with
both, and there are no other answers. -/
def SplitBy (fb : FactBase K) (selectors : List Symbol) (g f : Formula K) : Prop :=
  ∀ all yes no, fb.ask selectors g none = .ok all → fb.ask selectors (.conj [g, f]) none = .ok yes →
    fb.ask selectors (.conj [g, .neg f]) none = .ok no →
    (∀ t ∈ all, Xor (t ∈ yes) (t ∈ no)) ∧ (∀ t ∈ yes, t ∈ all) ∧ ∀ t ∈ no, t ∈ all

/-- **Negation splits the answers.** Where the constants are told apart by value and the selectors hold
the variables of a condition, no tuple is an answer both with the condition and with its negation, all
these answers are answers of the query, and an answer of the query is one of them if the orders of the
condition compare there. -/
theorem ask_conj_or_conj_neg (fb : FactBase K) (selectors : List Symbol) (g f : Formula K)
    (hconst : Constant.TellApart (fb.constants ++ g.constants ++ f.constants))
    (hvars : ∀ x ∈ f.vars, x ∈ selectors) {all yes no : Answers K}
    (hall : fb.ask selectors g none = .ok all)
    (hyes : fb.ask selectors (.conj [g, f]) none = .ok yes)
    (hno : fb.ask selectors (.conj [g, .neg f]) none = .ok no) :
    (∀ t ∈ all, f.Comparable (Binding.ofAnswer selectors t).get? → Xor (t ∈ yes) (t ∈ no))
      ∧ (∀ t ∈ yes, t ∈ all ∧ t ∉ no) ∧ ∀ t ∈ no, t ∈ all ∧ t ∉ yes := by
  -- all three queries draw from one domain
  obtain ⟨D, hD, hg, hf⟩ := hconst.exists_domain
  have hmem : ∀ t, t ∈ all ↔ ∃ v : Valuation K, D.Inside v
      ∧ g.simplify.kleene v fb.holds = some true ∧ v.Reads selectors t :=
    fun t => mem_answers_iff hD hg hall
  have hexclusive : ∀ t ∈ yes, t ∉ no := by
    intro t htyes htno
    obtain ⟨v, -, ⟨-, htrue⟩, hv⟩ := (mem_ask_conj_pair_iff hD hg hf hyes).mp htyes
    obtain ⟨w, -, ⟨-, hfalse⟩, hw⟩ := (mem_ask_conj_neg_iff hD hg hf hno).mp htno
    have hsame : f.simplify.kleene v fb.holds = f.simplify.kleene w fb.holds :=
      Formula.kleene_simplify_eq_of_reads hvars hv hw
    rw [htrue, hfalse] at hsame
    cases hsame
  have hyesAll : ∀ t ∈ yes, t ∈ all := by
    intro t ht
    obtain ⟨v, hin, ⟨htrue, -⟩, hv⟩ := (mem_ask_conj_pair_iff hD hg hf hyes).mp ht
    exact (hmem t).mpr ⟨v, hin, htrue, hv⟩
  have hnoAll : ∀ t ∈ no, t ∈ all := by
    intro t ht
    obtain ⟨v, hin, ⟨htrue, -⟩, hv⟩ := (mem_ask_conj_neg_iff hD hg hf hno).mp ht
    exact (hmem t).mpr ⟨v, hin, htrue, hv⟩
  refine ⟨fun t ht hcompare => ?_, fun t ht => ⟨hyesAll t ht, hexclusive t ht⟩,
    fun t ht => ⟨hnoAll t ht, fun htyes => hexclusive t htyes ht⟩⟩
  -- an answer with orders that compare decides the condition, one way or the other
  obtain ⟨v, hin, htrue, hv⟩ := (hmem t).mp ht
  have hdecided : f.simplify.kleene v fb.holds = some true
      ∨ f.simplify.kleene v fb.holds = some false := hcompare.simplify_decided hvars hv
  rcases hdecided with hdecided | hdecided
  · have htyes : t ∈ yes :=
      (mem_ask_conj_pair_iff hD hg hf hyes).mpr ⟨v, hin, ⟨htrue, hdecided⟩, hv⟩
    exact .inl ⟨htyes, hexclusive t htyes⟩
  · have htno : t ∈ no :=
      (mem_ask_conj_neg_iff hD hg hf hno).mpr ⟨v, hin, ⟨htrue, hdecided⟩, hv⟩
    exact .inr ⟨htno, fun htyes => hexclusive t htyes htno⟩

/-- Pipes with their widths, one of them written as a text, and a closed pipe. -/
def pipes : FactBase Double where
  facts := [("pipe", [.text "a", .integer 2]), ("pipe", [.text "b", .text "wide"]),
    ("pipe", [.text "c", .integer 7]), ("pipe", [.text "d", .integer 9]), ("closed", [.text "c"])]

/-- `pipe(X, W)`. -/
def pipeWidths : Formula Double :=
  .atom ⟨⟨"pipe", 2, .boolean, false⟩, [.var ⟨"X"⟩, .var ⟨"W"⟩]⟩

/-- `W > 4 & ~closed(X)`. -/
def broadAndOpen : Formula Double :=
  .conj [.compare ⟨.var ⟨"W"⟩, .gt, .const (.integer 4)⟩,
    .neg (.atom ⟨⟨"closed", 1, .boolean, false⟩, [.var ⟨"X"⟩]⟩)]

/-- The pipe `d` is broad and open, `a` and `c` are not. The pipe `b` is no answer at all, as a text and a
number have no order; its width is the only one that does not compare with 4. -/
theorem ask_conj_or_conj_neg_pipes :
    Constant.TellApart (pipes.constants ++ pipeWidths.constants ++ broadAndOpen.constants)
      ∧ (∀ x ∈ broadAndOpen.vars, x ∈ [(⟨"X"⟩ : Symbol), ⟨"W"⟩])
      ∧ pipes.ask [⟨"X"⟩, ⟨"W"⟩] pipeWidths none = .ok [[.text "a", .integer 2],
          [.text "b", .text "wide"], [.text "c", .integer 7], [.text "d", .integer 9]]
      ∧ pipes.ask [⟨"X"⟩, ⟨"W"⟩] (.conj [pipeWidths, broadAndOpen]) none
          = .ok [[.text "d", .integer 9]]
      ∧ pipes.ask [⟨"X"⟩, ⟨"W"⟩] (.conj [pipeWidths, .neg broadAndOpen]) none
          = .ok [[.text "a", .integer 2], [.text "c", .integer 7]]
      ∧ broadAndOpen.Comparable (Binding.ofAnswer [⟨"X"⟩, ⟨"W"⟩] [.text "c", .integer 7]).get?
      ∧ Xor ([.text "c", .integer 7] ∈ ([[.text "d", .integer 9]] : Answers Double))
          ([.text "c", .integer 7]
            ∈ ([[.text "a", .integer 2], [.text "c", .integer 7]] : Answers Double)) := by
  have hconst : Constant.TellApart
      (pipes.constants ++ pipeWidths.constants ++ broadAndOpen.constants) :=
    ⟨by decide +kernel, by decide +kernel⟩
  have hvars : ∀ x ∈ broadAndOpen.vars, x ∈ [(⟨"X"⟩ : Symbol), ⟨"W"⟩] := by decide +kernel
  have hall : pipes.ask [⟨"X"⟩, ⟨"W"⟩] pipeWidths none = .ok [[.text "a", .integer 2],
      [.text "b", .text "wide"], [.text "c", .integer 7], [.text "d", .integer 9]] := by
    decide +kernel
  have hyes : pipes.ask [⟨"X"⟩, ⟨"W"⟩] (.conj [pipeWidths, broadAndOpen]) none
      = .ok [[.text "d", .integer 9]] := by decide +kernel
  have hno : pipes.ask [⟨"X"⟩, ⟨"W"⟩] (.conj [pipeWidths, .neg broadAndOpen]) none
      = .ok [[.text "a", .integer 2], [.text "c", .integer 7]] := by decide +kernel
  have hcompare : broadAndOpen.Comparable
      (Binding.ofAnswer [⟨"X"⟩, ⟨"W"⟩] [.text "c", .integer 7]).get? := by
    -- the only order compares the width of the pipe with 4
    intro c hc _ x y hx hy
    obtain rfl := List.mem_singleton.mp hc
    obtain rfl : Constant.integer 7 = x := Option.some.inj hx
    obtain rfl : Constant.integer 4 = y := Option.some.inj hy
    exact nofun
  exact ⟨hconst, hvars, hall, hyes, hno, hcompare,
    (ask_conj_or_conj_neg pipes _ pipeWidths broadAndOpen hconst hvars hall hyes hno).1 _
      (by decide) hcompare⟩

/-- A weight that is undefined. -/
def undefined : FactBase Double where
  facts := [("weight", [.real ⟨0x7ff8000000000000⟩])]

/-- The weights, twice: `weight(X) & weight(Z)`. -/
def weightPairs : Formula Double :=
  .conj [.atom ⟨⟨"weight", 1, .boolean, false⟩, [.var ⟨"X"⟩]⟩,
    .atom ⟨⟨"weight", 1, .boolean, false⟩, [.var ⟨"Z"⟩]⟩]

/-- **Selectors that atoms bind**: they hold all variables of a query and a condition, and every
conjunction of the normal form of the query binds them by its positive atoms. -/
structure BoundByAtoms (selectors : List Symbol) (g f : Formula K) : Prop where
  /-- All variables are selected. -/
  vars : ∀ x ∈ g.vars ++ f.vars, x ∈ selectors
  /-- Positive atoms of the query bind the selectors. -/
  binds : ∀ c ∈ g.toDnf, ∀ x ∈ selectors, x ∈ (c.filterMap Literal.positive?).flatMap Atom.vars

/-- A condition does not split the answers where an answer of the query is an answer with the condition
and with its negation, or with none of them. -/
theorem not_splitBy (all yes no : Answers K) (t : Tuple K)
    (hall : fb.ask selectors g none = .ok all)
    (hyes : fb.ask selectors (.conj [g, f]) none = .ok yes)
    (hno : fb.ask selectors (.conj [g, .neg f]) none = .ok no) (ht : t ∈ all)
    (h : t ∈ yes ↔ t ∈ no) : ¬ fb.SplitBy selectors g f := by
  intro hsplit
  exact (xor_iff_not_iff _ _).mp ((hsplit all yes no hall hyes hno).1 t ht) h

/-- **The conditions of splitting are needed.** A size 5 that a condition compares with 5.0 is answered
as 5.0; an order between a number and a text is false, and so is the opposite one; and an undefined number
is not equal to itself, and is matched with itself all the same. -/
theorem ask_conj_not_splitBy :
    (BoundByAtoms sizes.symbols sizes.formula
          (.compare ⟨.var ⟨"X"⟩, .eq, .const (.real ⟨0x4014000000000000⟩)⟩)
        ∧ ¬ towns.SplitBy sizes.symbols sizes.formula
          (.compare ⟨.var ⟨"X"⟩, .eq, .const (.real ⟨0x4014000000000000⟩)⟩))
      ∧ (BoundByAtoms sizes.symbols sizes.formula
          (.compare ⟨.var ⟨"X"⟩, .lt, .const (.text "z")⟩)
        ∧ ¬ towns.SplitBy sizes.symbols sizes.formula
          (.compare ⟨.var ⟨"X"⟩, .lt, .const (.text "z")⟩))
      ∧ BoundByAtoms [⟨"X"⟩, ⟨"Z"⟩] weightPairs (.compare ⟨.var ⟨"Z"⟩, .eq, .var ⟨"X"⟩⟩)
      ∧ ¬ undefined.SplitBy [⟨"X"⟩, ⟨"Z"⟩] weightPairs
          (.compare ⟨.var ⟨"Z"⟩, .eq, .var ⟨"X"⟩⟩) := by
  refine ⟨⟨⟨by decide +kernel, by decide +kernel⟩, ?_⟩, ⟨⟨by decide +kernel, by decide +kernel⟩, ?_⟩,
    ⟨by decide +kernel, by decide +kernel⟩, ?_⟩
  · exact not_splitBy [[.integer 5]] [[.real ⟨0x4014000000000000⟩]] [] [.integer 5]
      (by decide +kernel) (by decide +kernel) (by decide +kernel) (by decide) (by decide)
  · exact not_splitBy [[.integer 5]] [] [] [.integer 5]
      (by decide +kernel) (by decide +kernel) (by decide +kernel) (by decide) (by decide)
  · exact not_splitBy [[.real ⟨0x7ff8000000000000⟩, .real ⟨0x7ff8000000000000⟩]]
      [[.real ⟨0x7ff8000000000000⟩, .real ⟨0x7ff8000000000000⟩]]
      [[.real ⟨0x7ff8000000000000⟩, .real ⟨0x7ff8000000000000⟩]]
      [.real ⟨0x7ff8000000000000⟩, .real ⟨0x7ff8000000000000⟩]
      (by decide +kernel) (by decide +kernel) (by decide +kernel) (by decide) (by decide)

end FactBase

end RelationalLP
