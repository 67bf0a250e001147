import Mathlib
import RelationalLP.Proofs.Facts.GuardedJoins
import RelationalLP.Proofs.Grounding.BlockSuccess
import RelationalLP.Proofs.Grounding.ResolvedFacts

/-! # Grounding over listed answers

What both ways of grounding give where the answers of a query list a finite set: a sum over the set for
a summand, by keys when it stands under an outer query, and one quantity for each item for a constraint
that is grounded by instances. -/

namespace RelationalLP

open FactBase

variable {fb : FactBase ℚ} {model : Model ℚ} {α : Type} [DecidableEq α] {S : Finset α}
  {row : α → Tuple ℚ} {q : Query ℚ} {s : Summand ℚ} {a : Atom ℚ} {g : α → Atom ℚ}

/-! ### Instances -/

namespace Instances

/-- The bindings of listed answers. -/
theorem exists_bindings_of_lists (h : Lists (fb.answers q.symbols q.formula) S row) :
    ∃ xs : List α, xs.Nodup ∧ xs.toFinset = S ∧ fb.knowledgeBase.bindings (some q)
      = .ok (xs.map fun x => .ofAnswer q.symbols (row x)) := by
  obtain ⟨xs, hnodup, hS, hanswers⟩ := h
  refine ⟨xs, hnodup, hS, exceptT_bind_eq_ok_iff.mpr ⟨_, hanswers, ?_⟩⟩
  rw [List.map_map]
  rfl

/-- **A summand over listed answers** with a decision variable only: the sum of its values over the set. -/
theorem summandGives_of_lists (hq : s.query = some q) (hplain : s.plainFactors = [])
    (ha : s.decision? = some a) (h : Lists (fb.answers q.symbols q.formula) S row)
    (hg : ∀ x ∈ S, a.groundAt (Binding.ofAnswer q.symbols (row x)).get? = some (g x)) :
    SummandGives fb.knowledgeBase s fun y => ∑ x ∈ S, s.coefficient * y (g x) := by
  obtain ⟨xs, hnodup, rfl, hbindings⟩ := exists_bindings_of_lists h
  refine ⟨_, xs.map fun x y => s.coefficient * y (g x), hq ▸ hbindings, ?_, funext fun y => ?_⟩
  · rw [List.forall₂_map_left_iff, List.forall₂_map_right_iff, List.forall₂_same]
    intro x hx
    refine ⟨[], fun y => y (g x), hplain ▸ .nil, ?_, ?_⟩
    · rw [ha]
      exact .some (hg x (List.mem_toFinset.mpr hx))
    · rw [List.prod_nil, mul_one]
  · rw [List.map_map, List.sum_toFinset _ hnodup]
    rfl

/-- **A constraint over listed answers**: one quantity for each item of the set. -/
theorem exists_constraintGives_of_lists (r : Relation ℚ) {F : α → Quantity}
    (h : Lists (fb.answers q.symbols q.formula) S row)
    (hF : ∀ x ∈ S, ExprGives fb.knowledgeBase
      (r.canonical.substitute (.ofAnswer q.symbols (row x))) (F x))
    (hzero : ∀ x ∈ S, r.Tolerates (F x 0)) :
    ∃ xs : List α, xs.toFinset = S
      ∧ ConstraintGives fb.knowledgeBase (.forAll q r) (xs.map F) := by
  obtain ⟨xs, -, rfl, hbindings⟩ := exists_bindings_of_lists h
  refine ⟨xs, rfl, _, hbindings, ?_⟩
  rw [List.forall₂_map_left_iff, List.forall₂_map_right_iff, List.forall₂_same]
  intro x hx
  have hmem := List.mem_toFinset.mpr hx
  exact ⟨hF x hmem, fun _ => hzero x hmem⟩

/-- The instances of a constraint over listed answers are those of the items. -/
theorem declared_of_lists (r : Relation ℚ) (h : Lists (fb.answers q.symbols q.formula) S row)
    (hdeclared : ∀ x ∈ S,
      (r.canonical.substitute (.ofAnswer q.symbols (row x))).Declared model) :
    (Constraint.forAll q r).Declared fb.knowledgeBase model := by
  obtain ⟨xs, -, rfl, hbindings⟩ := exists_bindings_of_lists h
  intro bs hbs b hb
  obtain rfl : _ = bs := Except.ok.inj (hbindings.symm.trans hbs)
  obtain ⟨x, hx, rfl⟩ := List.mem_map.mp hb
  exact hdeclared x (List.mem_toFinset.mpr hx)

end Instances

/-! ### Blocks -/

namespace Blocks

open SplitSummand

variable {outer : Query ℚ} {ts : List (Tuple ℚ)} {next : ℕ} {ctx : GroundingContext ℚ}
  {found : List (Tuple ℚ × ℚ)} {tuple : α → Tuple ℚ}

/-- A summand without plain factors stays as it is. -/
theorem ofSummand_of_plain (hplain : s.plainFactors = []) (next : ℕ) :
    (ofSummand next s).1 = ⟨s.decision?, s.base, s.base, .constant s.coefficient, 0⟩ := by
  rw [ofSummand, hplain]
  rfl

/-- **The bulk query of a summand without plain factors** has its coefficient as the number of each
answer. -/
theorem runs_rows_of_plain (hplain : s.plainFactors = [])
    (hsymbols : (outer.conjoin s.base).symbols = outer.symbols ++ s.bound)
    (h : fb.collect (outer.conjoin s.base).symbols (outer.conjoin s.base).formula
      (fun _ => .ok [.real s.coefficient]) = .ok (found.map answerOf)) :
    GroundM.Runs (rows fb.knowledgeBase outer (ofSummand next s).1) ctx
      (outer.symbols ++ s.bound, found) ctx := by
  rw [ofSummand_of_plain hplain, ← hsymbols]
  refine GroundM.runs_bind.mpr ⟨_, ctx, GroundM.runs_request.mpr ⟨h, rfl⟩,
    GroundM.runs_bind.mpr ⟨found, ctx, GroundM.runs_liftExcept.mpr ⟨?_, rfl⟩, ?_⟩⟩
  · rw [mapM_eq_ok_iff, List.forall₂_map_left_iff, List.forall₂_same]
    exact fun r _ => splitAnswer_answerOf _ r
  · exact GroundM.runs_pure.mpr ⟨rfl, rfl⟩

/-- **The bulk query of a split summand with value atoms** lists the items of a set with their values, where
there are as many answers without the value atoms. -/
theorem exists_runs_rows_of_lists {split : SplitSummand ℚ} {value : α → ℚ} (hcount : 0 < split.valueAtoms)
    (htuple : Set.InjOn tuple S)
    (h : Lists (fb.ask (outer.conjoin split.query).symbols (outer.conjoin split.query).formula
      (some split.coefficient)) S fun x => answerOf (tuple x, value x))
    (hbase : Lists (fb.answers (outer.conjoin split.base).symbols
      (outer.conjoin split.base).formula) S row) :
    ∃ xs : List α, xs.Nodup ∧ xs.toFinset = S
      ∧ ∀ ctx, GroundM.Runs (rows fb.knowledgeBase outer split) ctx
        ((outer.conjoin split.query).symbols, xs.map fun x => (tuple x, value x)) ctx := by
  obtain ⟨xs, hxs, rfl, hanswers⟩ := h
  obtain ⟨ys, hys, heq, hbase⟩ := hbase
  refine ⟨xs, hxs, rfl, fun ctx => (runs_rows_iff hcount).mpr
    ⟨rfl, rfl, ⟨_, hanswers, ?_⟩, ?_, _, hbase, ?_⟩⟩
  · rw [mapM_eq_ok_iff, List.forall₂_map_left_iff, List.forall₂_map_right_iff, List.forall₂_same]
    exact fun x _ => splitAnswer_answerOf _ (tuple x, value x)
  · rw [List.map_map]
    exact hxs.map_on fun x hx y hy h =>
      htuple (List.mem_toFinset.mpr hx) (List.mem_toFinset.mpr hy) h
  · -- both queries list the set once, so they have as many answers
    have hcard := congrArg Finset.card heq
    rw [List.toFinset_card_of_nodup hys, List.toFinset_card_of_nodup hxs] at hcard
    rw [List.length_map, List.length_map, hcard]

/-- What listed answers amount to for each key: the sum over the items of the key. -/
theorem keyedQuantity_map {xs : List α} {value : α → ℚ} {F : α → Quantity} (hxs : xs.Nodup)
    (hF : ∀ x ∈ xs, answerQuantity fb outer s (tuple x, value x) = F x) :
    keyedQuantity fb outer s (xs.map fun x => (tuple x, value x))
      = fun t y => ∑ x ∈ xs.toFinset with (tuple x).take outer.symbols.length = t, F x y := by
  funext t y
  have hset : {x ∈ xs.toFinset | (tuple x).take outer.symbols.length = t}
      = (xs.filter fun x => (tuple x).take outer.symbols.length = t).toFinset := by
    rw [List.toFinset_filter]
    simp only [decide_eq_true_eq]
  rw [keyedQuantity, List.filter_map, List.map_map, hset, List.sum_toFinset _ (hxs.filter _)]
  refine congrArg List.sum (List.map_congr_left fun x hx => ?_)
  exact congrFun (hF x (List.mem_of_mem_filter hx)) y

/-- **A summand that spreads over a finite set** under an outer query: it has a decision variable and no
other factor, the two queries together list the set, and every item makes the decision variable ground. -/
structure SpreadsOver (model : Model ℚ) (fb : FactBase ℚ) (outer : Query ℚ) (s : Summand ℚ)
    (S : Finset α) (tuple : α → Tuple ℚ) (g : α → Atom ℚ) : Prop where
  /-- There are no other factors. -/
  plain : s.plainFactors = []
  /-- The symbols of the queries do not clash. -/
  symbols_eq : (outer.conjoin s.base).symbols = outer.symbols ++ s.bound
  /-- The queries list the set. -/
  lists : Lists (fb.collect (outer.conjoin s.base).symbols (outer.conjoin s.base).formula
    fun _ => .ok [.real s.coefficient]) S fun x => tuple x ++ [.real s.coefficient]
  /-- The decision variable is declared, and ground for every item. -/
  decision : ∃ a, s.decision? = some a ∧ (model.decisionIndex? a.template).isSome
    ∧ ∀ x ∈ S,
      a.groundAt (Valuation.unbound.extend (outer.symbols ++ s.bound) (tuple x)) = some (g x)

namespace SpreadsOver

/-- It delivers the items with its coefficient. -/
theorem exists_delivers (h : SpreadsOver model fb outer s S tuple g) (next : ℕ) :
    ∃ xs : List α, xs.Nodup ∧ xs.toFinset = S
      ∧ Delivers model fb outer s next (xs.map fun x => (tuple x, s.coefficient)) := by
  obtain ⟨xs, hxs, rfl, hanswers⟩ := h.lists
  obtain ⟨a, ha, hdeclared, hg⟩ := h.decision
  have hfound : (xs.map fun x => tuple x ++ [.real s.coefficient])
      = (xs.map fun x => (tuple x, s.coefficient)).map answerOf := by
    rw [List.map_map]
    rfl
  rw [hfound] at hanswers
  refine ⟨xs, hxs, rfl, fun ctx => runs_rows_of_plain h.plain h.symbols_eq hanswers, ?_, ?_⟩
  · intro a' ha'
    obtain rfl : a = a' := Option.some.inj (ha.symm.trans ha')
    exact hdeclared
  · intro a' ha' r hr
    obtain rfl : a = a' := Option.some.inj (ha.symm.trans ha')
    obtain ⟨x, hx, rfl⟩ := List.mem_map.mp hr
    rw [hg x (List.mem_toFinset.mpr hx)]
    rfl

/-- The quantity of an item. -/
theorem answerQuantity_eq (h : SpreadsOver model fb outer s S tuple g) {x : α} (hx : x ∈ S) (c : ℚ) :
    answerQuantity fb outer s (tuple x, c) = fun y => c * y (g x) := by
  obtain ⟨a, ha, -, hg⟩ := h.decision
  exact funext fun y => by rw [answerQuantity, values_decisionDenote ha (hg x hx)]

/-- **In a constraint** it gives each key the sum over the items of the key. -/
theorem summandGives (h : SpreadsOver model fb outer s S tuple g)
    (hs : s.renameApart (outer.symbols ++ outer.formula.vars) = s)
    (hkeys : ∀ x ∈ S, (tuple x).take outer.symbols.length ∈ ts) :
    SummandGives model fb outer ts s fun t y =>
      ∑ x ∈ S with (tuple x).take outer.symbols.length = t, s.coefficient * y (g x) := by
  intro next
  obtain ⟨xs, hxs, rfl, hdelivers⟩ := h.exists_delivers next
  rw [hs]
  refine ⟨_, hdelivers, List.forall_mem_map.mpr fun x hx => hkeys x (List.mem_toFinset.mpr hx),
    (keyedQuantity_map hxs fun x hx => ?_).symm⟩
  exact h.answerQuantity_eq (List.mem_toFinset.mpr hx) s.coefficient

/-- **In the objective** it amounts to the sum over the set. -/
theorem amountsTo (h : SpreadsOver model fb .always s S tuple g) :
    AmountsTo model fb s fun y => ∑ x ∈ S, s.coefficient * y (g x) := by
  intro next
  obtain ⟨xs, hxs, rfl, hdelivers⟩ := h.exists_delivers next
  refine ⟨_, hdelivers, funext fun y => ?_⟩
  rw [List.map_map, List.sum_toFinset _ hxs]
  refine congrArg List.sum (List.map_congr_left fun x hx => ?_)
  exact (congrFun (h.answerQuantity_eq (List.mem_toFinset.mpr hx) s.coefficient) y).symm

end SpreadsOver

omit [DecidableEq α] in
/-- **A constraint over the keys of a finite set**: one quantity for each item, what the summands give to its
key. -/
theorem constraintGives_of_keys {c : Constraint ℚ} {key : α → Tuple ℚ} (hkey : Set.InjOn key S)
    {ss : List (Summand ℚ)} {Hs : List (Tuple ℚ → Quantity)} {F : α → Quantity}
    (hss : c.relation.canonical.summands = .ok ss)
    (hHs : List.Forall₂ (SummandGives model fb c.outer (S.toList.map key)) ss Hs)
    (hF : ∀ x ∈ S, Hs.sum (key x) = F x) (hzero : ∀ x ∈ S, c.relation.Tolerates (F x 0)) :
    ConstraintGives model fb c (S.toList.map F) := by
  refine ⟨S.toList.map key, ss, Hs, hss, S.nodup_toList.map_on fun x hx y hy => ?_, hHs, ?_,
    List.forall_mem_map.mpr fun x hx _ => hzero x (Finset.mem_toList.mp hx)⟩
  · exact hkey (Finset.mem_toList.mp hx) (Finset.mem_toList.mp hy)
  · rw [List.map_map]
    exact (List.map_congr_left fun x hx => hF x (Finset.mem_toList.mp hx)).symm

end Blocks

end RelationalLP
