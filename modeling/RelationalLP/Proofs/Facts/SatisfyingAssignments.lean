import Mathlib
import RelationalLP.Number.Double
import RelationalLP.Proofs.Facts.Answers

/-! # Satisfying assignments

The answers of a fact base said without the search: the tuples that the selectors read from the
assignments of constants to the variables of some conjunction of the normal form under which the positive
atoms are stored rows, the negated ones are not, and the comparisons are true. -/

namespace RelationalLP

variable {K : Type}

/-! ### Constants -/

/-- The constants of the facts. -/
def FactBase.constants (fb : FactBase K) : List (Constant K) := fb.facts.flatMap Prod.snd

/-- The constants of a formula. -/
def Formula.constants (f : Formula K) : List (Constant K) := f.terms.filterMap Term.constant?

theorem FactBase.mem_constants {fb : FactBase K} {name : String} {row : Tuple K}
    (hrow : row ∈ fb.rows name) {c : Constant K} (hc : c ∈ row) : c ∈ fb.constants := by
  obtain ⟨fact, hfact, hsome⟩ := List.mem_filterMap.mp hrow
  refine List.mem_flatMap.mpr ⟨fact, hfact, ?_⟩
  obtain ⟨-, heq⟩ := Option.ite_none_right_eq_some.mp hsome
  rwa [Option.some.inj heq]

theorem Formula.mem_constants {f : Formula K} {c : Constant K} (hc : .const c ∈ f.terms) :
    c ∈ f.constants := List.mem_filterMap.mpr ⟨.const c, hc, rfl⟩

/-- **Constants that a search can tell apart by value**: each has a value, so no real among them is
undefined, and no two of them have the same one. -/
structure Constant.TellApart [Scalar K] (cs : List (Constant K)) : Prop where
  /-- Each constant has a value. -/
  valued : ∀ x ∈ cs, x.compareValue x = some .eq
  /-- Constants with one value are one constant. -/
  distinct : ∀ x ∈ cs, ∀ y ∈ cs, x.compareValue y = some .eq → x = y

/-! ### Assignments -/

namespace FactBase

variable [Scalar K]

/-- What a literal says of the facts: an atom is a stored row of its relation, a negated atom is none,
and a comparison is true. -/
def Satisfies (fb : FactBase K) (b : Binding K) : Literal K → Prop
  | .positive a => ∃ row, (a.substitute b).ground? = some row ∧ row ∈ fb.rows a.name
  | .negative a => ∃ row, (a.substitute b).ground? = some row ∧ row ∉ fb.rows a.name
  | .compare c => c.evaluate b = some true

/-- **A satisfying assignment** of some constants to the variables of a conjunction. -/
structure Assignment (fb : FactBase K) (constants : List (Constant K)) (c : Conjunction K)
    (b : Binding K) : Prop where
  /-- The variables of the conjunction are bound, and no others. -/
  binds : ∀ s, (b.get? s).isSome ↔ ∃ l ∈ c, s ∈ l.vars
  /-- They are bound to constants of the list. -/
  values : ∀ s x, b.get? s = some x → x ∈ constants
  /-- Every literal is satisfied. -/
  satisfies : ∀ l ∈ c, fb.Satisfies b l

end FactBase

variable [Scalar K] {D : Domain K} {fb : FactBase K} {b : Binding K}

namespace FactBase

/-- An atom that is ground under the binding is a tuple of the domain, so it is true when it is stored. -/
theorem exists_stored_iff (hD : D.Covers fb) (hb : D.Inside b.get?) {a : Atom K}
    (ha : D.Knows a.arguments) (x : Bool) :
    (∃ row, (a.substitute b).ground? = some row ∧ (decide (row ∈ fb.rows a.name)) = x)
      ↔ (a.groundAt b.get?).map fb.holds = some x := by
  simp only [Atom.ground?_substitute_eq_some_iff, Option.map_eq_some_iff]
  have hstored : ∀ row, a.groundAt b.get? = some ⟨a.template, row.map .const⟩ →
      fb.holds ⟨a.template, row.map .const⟩ = decide (row ∈ fb.rows a.name) := by
    intro row hrow
    obtain ⟨t, ht, heq⟩ := Atom.groundAt_eq_some_iff.mp hrow
    have hcells : ∀ c ∈ row, c ∈ D := by
      have hmap : row.map Term.const = t.map Term.const := (Atom.mk.inj heq).2
      rw [List.map_injective_iff.mpr (fun _ _ h => Term.const.inj h) hmap]
      exact forall_mem_of_forall₂ ht fun s hs c hc => hb.valueAt ha hs hc
    rw [Bool.eq_iff_iff, hD.holds_iff hcells, decide_eq_true_iff]
    rfl
  constructor
  · rintro ⟨row, hrow, rfl⟩
    exact ⟨_, hrow, hstored row hrow⟩
  · rintro ⟨g, hg, rfl⟩
    obtain ⟨row, -, rfl⟩ := Atom.groundAt_eq_some_iff.mp hg
    exact ⟨row, hg, (hstored row hg).symm⟩

/-- **Satisfied literals are the true ones**, where the constants are told apart by value. -/
theorem satisfies_iff (hD : D.Covers fb) (hb : D.Inside b.get?) {l : Literal K}
    (hl : D.Knows l.terms) :
    fb.Satisfies b l ↔ l.kleene b.get? fb.holds = some true := by
  cases l with
  | positive a => simpa [Satisfies, Literal.kleene] using exists_stored_iff hD hb hl true
  | negative a =>
    have hneg : (a.groundAt b.get?).map (!fb.holds ·) = some true
        ↔ (a.groundAt b.get?).map fb.holds = some false := by
      cases a.groundAt b.get? <;> simp
    rw [Literal.kleene, hneg, ← exists_stored_iff hD hb hl false]
    simp [Satisfies]
  | compare c => exact Comparison.evaluate_eq_true_iff

variable {selectors : List Symbol} {f : Formula K} {rows : Answers K}

/-- **Answers are the satisfying assignments.** Where the constants of facts and formula are told apart
by value, an answered query lists every tuple that the selectors read from a satisfying assignment of
some conjunction of the normal form, nothing else, and nothing twice. -/
theorem ask_eq_assignments (hconst : Constant.TellApart (fb.constants ++ f.constants))
    (h : fb.ask selectors f none = .ok rows) :
    rows.Nodup
      ∧ ∀ t, t ∈ rows ↔ ∃ c ∈ f.toDnf, ∃ b, fb.Assignment (fb.constants ++ f.constants) c b
        ∧ List.Forall₂ (fun s x => b.get? s = some x) selectors t := by
  let D : Domain K := {x | x ∈ fb.constants ++ f.constants}
  have hD : D.Covers fb := {
    cells := fun _ _ hrow _ hc => List.mem_append_left _ (mem_constants hrow hc)
    reflexive := hconst.valued
    discrete := hconst.distinct }
  have hf : D.Knows f.terms := fun _ hc => List.mem_append_right _ (Formula.mem_constants hc)
  obtain ⟨hnodup, hconj, hrows⟩ := collect_eq_ok h
  refine ⟨hnodup, fun t => ⟨fun ht => ?_, ?_⟩⟩
  · obtain ⟨c, hc, bs, hbs, b, hb, hyields⟩ := hrows t ht
    have hknown := knows_of_mem_toDnf hf hc
    obtain ⟨s, rfl, hs⟩ := exists_exact_of_solve hD hknown hbs
    have hin := hs.inside b hb
    refine ⟨c, hc, b, ⟨fun x => ⟨fun hx => ?_, ?_⟩, hin, fun l hl => ?_⟩, yields_plain.mp hyields⟩
    · exact hs.origin x ((hs.bound b hb x).mp hx)
    · rintro ⟨l, hl, hx⟩
      exact Literal.isSome_of_kleene (hs.sound b hb l hl) hx
    · exact (satisfies_iff hD hin (hknown l hl)).mpr (hs.sound b hb l hl)
  · rintro ⟨c, hc, b, hassign, ht⟩
    have hknown := knows_of_mem_toDnf hf hc
    obtain ⟨bs, hbs, hall⟩ := hconj c hc
    obtain ⟨s, rfl, hs⟩ := exists_exact_of_solve hD hknown hbs
    obtain ⟨b', hb', hext⟩ := hs.complete b.get? hassign.values fun l hl =>
      (satisfies_iff hD hassign.values (hknown l hl)).mp (hassign.satisfies l hl)
    obtain ⟨r, hr, hyields⟩ := hall b' hb'
    -- the binding found reads what the assignment reads
    have hcells : List.Forall₂ (fun s x => b.get? s = some x) selectors r :=
      (yields_plain.mp hyields).imp fun s x hx => hext s x hx
    obtain rfl : r = t := List.right_unique_forall₂'
      (fun s x y hx hy => Option.some.inj (hx.symm.trans hy)) hcells ht
    exact hr

/-- Two roads with their lengths, and a closed town. -/
def roads : FactBase Double where
  facts := [("road", [.text "a", .text "b", .real ⟨0x4000000000000000⟩]),
    ("road", [.text "b", .text "c", .real ⟨0x4008000000000000⟩]), ("closed", [.text "b"])]

/-- `road(X, Y, L) & ~closed(X) & Z = Y & L < 3.0 | closed(Y) & X = Y`. -/
def openRoads : Formula Double :=
  .disj [
    .conj [.atom ⟨⟨"road", 3, .boolean, false⟩, [.var ⟨"X"⟩, .var ⟨"Y"⟩, .var ⟨"L"⟩]⟩,
      .neg (.atom ⟨⟨"closed", 1, .boolean, false⟩, [.var ⟨"X"⟩]⟩),
      .compare ⟨.var ⟨"Z"⟩, .eq, .var ⟨"Y"⟩⟩,
      .compare ⟨.var ⟨"L"⟩, .lt, .const (.real ⟨0x4008000000000000⟩)⟩],
    .conj [.atom ⟨⟨"closed", 1, .boolean, false⟩, [.var ⟨"Y"⟩]⟩,
      .compare ⟨.var ⟨"X"⟩, .eq, .var ⟨"Y"⟩⟩]]

/-- The answers are `(a, b)`, from the first conjunction, and `(b, b)`, from the second one, whose
equation binds `X`. Hence some assignment to its variables satisfies one of the conjunctions and is read
as `(b, b)`. -/
theorem ask_eq_assignments_roads :
    Constant.TellApart (roads.constants ++ openRoads.constants)
      ∧ roads.ask [⟨"X"⟩, ⟨"Y"⟩] openRoads none
        = .ok [[.text "a", .text "b"], [.text "b", .text "b"]]
      ∧ ∃ c ∈ openRoads.toDnf, ∃ b,
        roads.Assignment (roads.constants ++ openRoads.constants) c b
          ∧ List.Forall₂ (fun s x => b.get? s = some x) [⟨"X"⟩, ⟨"Y"⟩] [.text "b", .text "b"] := by
  have hconst : Constant.TellApart (roads.constants ++ openRoads.constants) :=
    ⟨by decide +kernel, by decide +kernel⟩
  have hask : roads.ask [⟨"X"⟩, ⟨"Y"⟩] openRoads none
      = .ok [[.text "a", .text "b"], [.text "b", .text "b"]] := by decide +kernel
  have hexact := (ask_eq_assignments hconst hask).2 [.text "b", .text "b"]
  exact ⟨hconst, hask, hexact.mp (by decide)⟩

end FactBase

end RelationalLP
