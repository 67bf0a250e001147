import Mathlib
import RelationalLP.Proofs.Facts.SatisfyingAssignments
import RelationalLP.Proofs.Grounding.AtomRows
import RelationalLP.Proofs.Grounding.BlockRows

/-! # Agreement of the two ways of grounding

Grounding by blocks and grounding by instances give the same program up to the order of rows and columns
and up to columns of zeros. Both give what the model means in the world of all constants of the facts
and of the model: grounding by instances looks up every fact that is needed, and hence grounding by
blocks finds it, too. -/

namespace RelationalLP

/-! ### Admissible models -/

namespace Model

/-- The expressions of a model: the objective, and each constraint as the sum of its instances. -/
def expressions (model : Model ℚ) : List (Expr ℚ) :=
  model.objective.toList ++ model.constraints.map Constraint.summed

/-- The constants in the atoms and comparisons of a model. -/
def constants (model : Model ℚ) : List (Constant ℚ) :=
  (model.expressions.flatMap Expr.terms).filterMap Term.constant?

/-- The world of a model over a fact base: the constants of both, and the facts. -/
def world (model : Model ℚ) (fb : FactBase ℚ) : World :=
  ⟨(fb.constants ++ model.constants).toFinset, fb.holds⟩

/-- **Admissible models** over a fact base: no two constants have the same value, the variables of each
formula are bound around it, and each formula that is reached has a truth value. With bound variables
it has none only where an order of constants that do not compare decides it. -/
structure Admissible (model : Model ℚ) (fb : FactBase ℚ) : Prop where
  /-- Different constants have different values. -/
  tellApart : Constant.TellApart (fb.constants ++ model.constants)
  /-- The variables of each formula are bound around it. -/
  inScope : ∀ e ∈ model.expressions, e.Scoped []
  /-- Every formula that is reached has a truth value. -/
  decided : ∀ e ∈ model.expressions, e.Decided (model.world fb) .unbound

variable {model : Model ℚ} {fb : FactBase ℚ}

theorem Admissible.describes (h : model.Admissible fb) : (model.world fb).Describes fb where
  truthOf_eq := rfl
  covers := {
    cells := fun _ _ hrow _ hc => List.mem_toFinset.mpr
      (List.mem_append_left _ (FactBase.mem_constants hrow hc))
    reflexive := fun x hx => h.tellApart.valued x (List.mem_toFinset.mp hx)
    discrete := fun x hx y hy => h.tellApart.distinct x (List.mem_toFinset.mp hx) y
      (List.mem_toFinset.mp hy) }

/-- A model is admissible where no order of it compares constants that do not compare. -/
theorem admissible_of_comparable (htell : Constant.TellApart (fb.constants ++ model.constants))
    (hscope : ∀ e ∈ model.expressions, e.Scoped [])
    (hcomparable : ∀ e ∈ model.expressions, e.Comparable (model.world fb) .unbound) :
    model.Admissible fb :=
  ⟨htell, hscope, fun e he => Expr.Comparable.decided_of_scoped e (b := .empty) (hcomparable e he)
    (hscope e he) fun _ hx => absurd hx List.not_mem_nil⟩

/-- **Admissible models are groundable.** -/
theorem Admissible.groundable (h : model.Admissible fb) : model.Groundable (model.world fb) := by
  have hall : ∀ e ∈ model.expressions, e.Groundable (model.world fb) := by
    refine fun e he => ⟨fun t ht c hc => ?_, h.inScope e he, h.decided e he⟩
    have hmem : c ∈ model.constants :=
      List.mem_filterMap.mpr ⟨t, List.mem_flatMap.mpr ⟨e, he, ht⟩, by rw [hc]; rfl⟩
    exact List.mem_toFinset.mpr (List.mem_append_right _ hmem)
  refine ⟨fun e he => hall e (List.mem_append_left _ ?_), fun c hc =>
    hall _ (List.mem_append_right _ (List.mem_map_of_mem hc))⟩
  exact Option.mem_toList.mpr he

end Model

/-! ### Contributions -/

/-- The rows of a constraint by atoms: one for each instance whose value varies. -/
noncomputable def Constraint.atomRows (w : World) (fb : FactBase ℚ) (c : Constraint ℚ) :
    Multiset AtomRow := (c.rowQuantities w fb).map AtomRow.ofQuantity

/-- **Contributions** to a program: rows for each constraint, such that the rows of each kind are the
contributions of the constraints of this kind, one constraint after another. -/
structure Grounded.Contributed (g : Grounded ℚ) (cs : List (Constraint ℚ))
    (Rs : List (List AtomRow)) : Prop where
  /-- Every constraint has its contribution. -/
  length_eq : Rs.length = cs.length
  /-- There are no other rows. -/
  atomRows_eq : ∀ e, g.atomRows e
    = (List.zipWith (fun c R => if c.relation.isEquality = e then R else []) cs Rs).flatten

namespace Grounded

variable {w : World} {fb : FactBase ℚ} {model : Model ℚ} {g : Grounded ℚ}

/-- What a program means by atoms. -/
theorem Means.by_atoms (h : g.Means w fb model) : g.Readable
    ∧ (∀ a, g.objectiveCoefficient a = model.sense.factor
      * (objectiveQuantity w fb model.objective (Pi.single a 1)
        - objectiveQuantity w fb model.objective 0))
    ∧ ∃ Rs, g.Contributed model.constraints Rs ∧ List.Forall₂
      (fun (c : Constraint ℚ) (R : List AtomRow) => (R : Multiset AtomRow) = c.atomRows w fb)
      model.constraints Rs := by
  obtain ⟨ctx, Fss, rfl, ⟨hconsistent, rfl, hobjective, hquantities⟩, hFss⟩ := h
  refine ⟨GroundingContext.readable_finish hconsistent, fun a => ?_,
    Fss.map fun Fs => (Fs.filter fun F : Quantity => F.Varies).map AtomRow.ofQuantity,
    ⟨?_, fun e => ?_⟩, ?_⟩
  · rw [GroundingContext.objectiveCoefficient_finish hconsistent, hobjective]
  · rw [List.length_map, hFss.length_eq]
  · rw [GroundingContext.atomRows_finish hconsistent, hquantities, List.map_flatten,
      List.map_zipWith, List.zipWith_map_right]
    congr 2
    funext c Fs
    by_cases hkind : c.relation.isEquality = e
    · simp [hkind]
    · simp [hkind]
  · rw [List.forall₂_map_right_iff]
    refine hFss.imp fun c Fs hFs => ?_
    rw [← Multiset.map_coe, hFs, Constraint.atomRows]

end Grounded

/-- **Blocks and instances agree.** Let both ways of grounding succeed on a model that is admissible over
a fact base. Then both programs can be read by decision atoms, every atom has the same coefficient in
both objectives, and every constraint contributes the same rows up to their order: those of its
instances whose values vary. -/
theorem Blocks.ground_agrees_with_instances (fb : FactBase ℚ) (model : Model ℚ)
    (hm : model.Admissible fb) {gb gi : Grounded ℚ}
    (hb : Blocks.ground fb.knowledgeBase model = .ok gb)
    (hi : Instances.ground fb.knowledgeBase model = .ok gi) :
    gb.Readable ∧ gi.Readable ∧ (∀ a, gb.objectiveCoefficient a = gi.objectiveCoefficient a)
      ∧ ∃ Rs Ss, gb.Contributed model.constraints Rs ∧ gi.Contributed model.constraints Ss
        ∧ List.Forall₂ List.Perm Rs Ss
        ∧ List.Forall₂ (fun (c : Constraint ℚ) (R : List AtomRow) =>
          (R : Multiset AtomRow) = c.atomRows (model.world fb) fb) model.constraints Rs := by
  have hw := hm.describes
  obtain ⟨hmeans, hresolved⟩ := Instances.means_of_ground hw hm.groundable hi
  obtain ⟨hreadable, hobjective, Ss, hSs, hrows⟩ := hmeans.by_atoms
  obtain ⟨hreadable', hobjective', Rs, hRs, hrows'⟩ :=
    (Blocks.means_of_ground hw hm.groundable hresolved hb).by_atoms
  refine ⟨hreadable', hreadable, fun a => (hobjective' a).trans (hobjective a).symm, Rs, Ss, hRs, hSs,
    ?_, hrows'⟩
  exact forall₂_comp hrows'.flip hrows fun R _ c S hR hS => Multiset.coe_eq_coe.mp (hR.trans hS.symm)

/-! ### An order from a stock -/

/-- Two items with prices and weights. -/
def stock : FactBase ℚ where
  facts := [("item", [.text "nut"]), ("item", [.text "gift"]), ("price", [.text "nut", .integer 3]),
    ("price", [.text "gift", .integer 8]), ("weight", [.text "nut", .real 2]),
    ("weight", [.text "gift", .real 1])]

/-- Minimize `{X | item(X)} weight(X) * buy(X) + 7`, where of every item with a price under five at least
its weight is bought, and ten of all items together. -/
def order : Model ℚ :=
  let items : Query ℚ := .ofSymbols [⟨"X"⟩] (.atom ⟨⟨"item", 1, .boolean, false⟩, [.var ⟨"X"⟩]⟩)
  let cheap : Query ℚ := .ofSymbols [⟨"X"⟩, ⟨"C"⟩] (.conj [
    .atom ⟨⟨"price", 2, .boolean, false⟩, [.var ⟨"X"⟩, .var ⟨"C"⟩]⟩,
    .compare ⟨.var ⟨"C"⟩, .lt, .const (.integer 5)⟩])
  let weight : Expr ℚ := .atom ⟨.ofFacts "weight" 1, [.var ⟨"X"⟩]⟩
  let buy : Expr ℚ := .atom ⟨⟨"buy", 1, .numeric, true⟩, [.var ⟨"X"⟩]⟩
  { sense := .minimize
    objective := some (.add [.sum items (.mul [weight, buy]), .constant 7])
    constraints := [.forAll cheap ⟨buy, .ge, weight⟩, .single ⟨.sum items buy, .eq, .constant 10⟩]
    decision := [⟨"buy", 1, .numeric, true⟩] }

/-- A sum is decided where its formula is, for every tuple of constants, and the body always is. -/
theorem Expr.decided_sum {w : World} {q : Query ℚ} {body : Expr ℚ} (hscope : q.Scoped [])
    (hq : ∀ t ∈ w.tuples q.symbols.length,
      q.formula.kleene (Valuation.unbound.extend q.symbols t) w.truthOf ≠ none)
    (hbody : ∀ u, body.Decided w u) (v : Valuation ℚ) : (sum q body).Decided w v := by
  intro u hu
  obtain ⟨t, ht, rfl⟩ := hu.exists_tuple q.nodup
  refine ⟨?_, fun _ => hbody _⟩
  rw [Formula.kleene_congr q.formula fun x hx => Valuation.extend_congr (w := .unbound)
    (World.mem_tuples.mp ht).1 fun hx' => absurd ((hscope x hx).resolve_right List.not_mem_nil) hx']
  exact hq t ht

/-- The texts do not compare with five, but no text is a price. -/
theorem admissible_order : order.Admissible stock := by
  refine ⟨⟨by decide +kernel, by decide +kernel⟩, by decide +kernel, List.forall_mem_cons.mpr ⟨?_,
    List.forall_mem_cons.mpr ⟨?_, List.forall_mem_singleton.mpr ?_⟩⟩⟩
  · refine ⟨Expr.decided_sum (by decide) (by decide +kernel) (fun u => ?_) _, trivial, trivial⟩
    exact ⟨trivial, trivial, trivial⟩
  · refine Expr.decided_sum (by decide) (by decide +kernel) (fun u => ?_) _
    exact ⟨trivial, ⟨trivial, trivial, trivial⟩, trivial⟩
  · refine Expr.decided_sum (by decide) (by decide +kernel) (fun u => ?_) _
    refine ⟨Expr.decided_sum (by decide) (by decide +kernel) (fun _ => ?_) u, ?_⟩
    · exact trivial
    · exact ⟨⟨trivial, trivial, trivial⟩, trivial⟩

/-- The order is admissible, and both ways ground it to one inequality, for the nut, and one equation. Hence
both programs are the same by atoms. -/
theorem Blocks.ground_agrees_with_instances_order : order.Admissible stock
    ∧ ∃ gb gi, Blocks.ground stock.knowledgeBase order = .ok gb
      ∧ Instances.ground stock.knowledgeBase order = .ok gi
      ∧ gb.program.inequalityCount = 1 ∧ gi.program.equationCount = 1
      ∧ (∀ a, gb.objectiveCoefficient a = gi.objectiveCoefficient a)
      ∧ ∃ Rs Ss, gb.Contributed order.constraints Rs ∧ gi.Contributed order.constraints Ss
        ∧ List.Forall₂ List.Perm Rs Ss := by
  have hblocks : (Blocks.ground stock.knowledgeBase order).run.toOption.map
      (fun g => g.program.inequalityCount) = some 1 := by decide +kernel
  have hinstances : (Instances.ground stock.knowledgeBase order).run.toOption.map
      (fun g => g.program.equationCount) = some 1 := by decide +kernel
  obtain ⟨gb, hb, hcount⟩ := exists_eq_ok_of_map_toOption hblocks
  obtain ⟨gi, hi, hcount'⟩ := exists_eq_ok_of_map_toOption hinstances
  obtain ⟨-, -, hobjective, Rs, Ss, hRs, hSs, hperm, -⟩ :=
    Blocks.ground_agrees_with_instances stock order admissible_order hb hi
  exact ⟨admissible_order, gb, gi, hb, hi, hcount, hcount', hobjective, Rs, Ss, hRs, hSs, hperm⟩

end RelationalLP
