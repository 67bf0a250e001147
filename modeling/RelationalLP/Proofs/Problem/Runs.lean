import Mathlib
import RelationalLP.Number.Double
import RelationalLP.Problem.Basic

/-! # Runs of a problem

A problem is used by a sequence of calls, each of which is answered: declarations that may be refused, and
requests to solve that may fail. Status and solution are stored apart, but every call keeps them in step
with the answer to the last request to solve, and the declared predicates stay distinct decision
predicates. -/

namespace RelationalLP

namespace Problem

/-- A call on a problem. Grounding and solving need not go alike twice, so a request to solve comes with
what they do this time. -/
inductive Call (K : Type) [Scalar K] where
  /-- The objective is set. -/
  | setObjective (e : Expr K)
  /-- A constraint is added. -/
  | addConstraint (c : Constraint K)
  /-- A decision predicate is declared. -/
  | addDecision (t : PredicateTemplate)
  /-- The problem is solved. -/
  | solve (grounder : Grounder K) (solver : Solver K)

/-- The answer to a call. -/
inductive Reply where
  /-- A declaration was accepted or refused. -/
  | declared (result : Except ProblemError Unit)
  /-- The problem was solved, or this failed. -/
  | solved (result : Except ProblemError SolveStatus)

/-- The outcome of a request to solve. -/
def Reply.outcome? : Reply → Option (Except ProblemError SolveStatus)
  | declared _ => none
  | solved result => some result

variable {K : Type} [Scalar K]

/-- Makes a call. -/
def call (p : Problem K) : Call K → Problem K × Reply
  | .setObjective e =>
    let (result, p') := p.declareObjective e
    (p', .declared result)
  | .addConstraint c => (p.addConstraint c, .declared (.ok ()))
  | .addDecision t =>
    let (result, p') := p.declareDecision t
    (p', .declared result)
  | .solve grounder solver =>
    let (result, p') := { p with grounder, solver }.solve
    (p', .solved result)

/-- Makes calls one after another. -/
def run (p : Problem K) : List (Call K) → Problem K × List Reply
  | [] => (p, [])
  | c :: calls =>
    let (p', reply) := p.call c
    let (p'', replies) := run p' calls
    (p'', reply :: replies)

/-- The outcome of the last request to solve, if there was one. -/
def lastOutcome? (replies : List Reply) : Option (Except ProblemError SolveStatus) :=
  (replies.filterMap Reply.outcome?).getLast?

/-- The status that the last request to solve leaves. -/
def statusAfter : Option (Except ProblemError SolveStatus) → SolveStatus
  | some (.ok status) => status
  | _ => .unsolved

@[simp] theorem statusAfter_eq_optimal_iff {last : Option (Except ProblemError SolveStatus)} :
    statusAfter last = .optimal ↔ last = some (.ok .optimal) := by
  match last with
  | none => simp [statusAfter]
  | some (.error e) => simp [statusAfter]
  | some (.ok status) => simp [statusAfter]

/-- The last outcome after one more reply in front. -/
theorem lastOutcome?_cons (reply : Reply) (replies : List Reply) :
    lastOutcome? (reply :: replies) = (lastOutcome? replies).or reply.outcome? := by
  unfold lastOutcome?
  cases h : reply.outcome? with
  | none => rw [List.filterMap_cons_none h, Option.or_none]
  | some result =>
    rw [List.filterMap_cons_some h, List.getLast?_cons]
    cases (replies.filterMap Reply.outcome?).getLast? <;> rfl

/-! ### What every call keeps -/

/-- **A consistent problem**, when the last request to solve had the given outcome. -/
structure Consistent (p : Problem K) (last : Option (Except ProblemError SolveStatus)) : Prop where
  /-- No predicate is declared twice. -/
  nodup : p.model.decision.Nodup
  /-- Only decision predicates are declared. -/
  decision : ∀ t ∈ p.model.decision, t.decision = true
  /-- The status is that of the last outcome. -/
  status_eq : p.status = statusAfter last
  /-- A result is stored for an optimal status, and for no other one. -/
  isSome_solved : p.solved.isSome = true ↔ p.status = .optimal

variable {p p' : Problem K} {last : Option (Except ProblemError SolveStatus)}

theorem consistent_declare (name : String) (sense : Sense) (grounder : Grounder K)
    (solver : Solver K) : (declare name sense grounder solver).Consistent none :=
  ⟨List.nodup_nil, nofun, rfl, iff_of_false nofun nofun⟩

/-- A solution is read from the stored result. -/
theorem isSome_solution? (p : Problem K) : p.solution?.isSome = p.solved.isSome := Option.isSome_map

/-- A change of the model that keeps the declared predicates keeps a problem consistent. -/
theorem Consistent.congr (h : p.Consistent last) (hdecision : p'.model.decision = p.model.decision)
    (hstatus : p'.status = p.status) (hsolved : p'.solved = p.solved) : p'.Consistent last :=
  ⟨hdecision ▸ h.nodup, hdecision ▸ h.decision, hstatus ▸ h.status_eq,
    hstatus ▸ hsolved ▸ h.isSome_solved⟩

/-- Declaring the objective changes nothing else. -/
theorem Consistent.declareObjective (h : p.Consistent last) (e : Expr K) :
    (p.declareObjective e).2.Consistent last := by
  unfold Problem.declareObjective
  split
  · exact h
  · exact h.congr rfl rfl rfl

/-- A predicate that is declared is a decision predicate, and a new one. -/
theorem Consistent.declareDecision (h : p.Consistent last) (t : PredicateTemplate) :
    (p.declareDecision t).2.Consistent last := by
  unfold Problem.declareDecision
  split
  · exact h
  · rename_i hdecision
    split
    · exact h
    · rename_i hindex
      have hnew : t ∉ p.model.decision := by
        simpa [Model.decisionIndex?] using hindex
      refine ⟨List.concat_eq_append ▸ h.nodup.concat hnew, fun s hs => ?_, h.status_eq,
        h.isSome_solved⟩
      rcases List.mem_append.mp hs with hs | hs
      · exact h.decision s hs
      · rw [List.mem_singleton.mp hs]
        simpa using hdecision

/-- **What solving leaves**: the same model, the status of its outcome, and a result exactly when it is
optimal. -/
theorem solve_leaves (p : Problem K) :
    p.solve.2.model = p.model ∧ p.solve.2.status = statusAfter (some p.solve.1)
      ∧ (p.solve.2.solved.isSome = true ↔ p.solve.2.status = .optimal) := by
  unfold solve
  split
  · exact ⟨rfl, rfl, iff_of_false nofun nofun⟩
  · split
    · exact ⟨rfl, rfl, iff_of_false nofun nofun⟩
    · exact ⟨rfl, rfl, iff_of_true rfl rfl⟩
    · rename_i outcome houtcome _
      refine ⟨rfl, rfl, iff_of_false nofun ?_⟩
      cases outcome with
      | optimal x objective => exact absurd rfl (houtcome x objective)
      | infeasible => exact nofun
      | unbounded => exact nofun

theorem Consistent.solve (h : p.Consistent last) : p.solve.2.Consistent (some p.solve.1) := by
  obtain ⟨hmodel, hstatus, hsolved⟩ := solve_leaves p
  exact ⟨hmodel ▸ h.nodup, hmodel ▸ h.decision, hstatus, hsolved⟩

/-- **A step**: every call keeps a problem consistent. -/
theorem Consistent.call (h : p.Consistent last) (c : Call K) :
    (p.call c).1.Consistent ((p.call c).2.outcome?.or last) := by
  cases c with
  | setObjective e => exact h.declareObjective e
  | addConstraint c => exact h.congr rfl rfl rfl
  | addDecision t => exact h.declareDecision t
  | solve grounder solver =>
    have hmethods : { p with grounder, solver }.Consistent last := h.congr rfl rfl rfl
    exact hmethods.solve

/-- **A run**: any calls keep a problem consistent. -/
theorem Consistent.run (h : p.Consistent last) (calls : List (Call K)) :
    (p.run calls).1.Consistent ((lastOutcome? (p.run calls).2).or last) := by
  induction calls generalizing p last with
  | nil => exact h
  | cons c calls ih =>
    have hrest := ih (h.call c)
    rw [Problem.run, lastOutcome?_cons, Option.or_assoc]
    exact hrest

/-! ### Single calls -/

/-- A second objective changes nothing. -/
theorem declareObjective_of_error {e : Expr K} {error : ProblemError}
    (h : (p.declareObjective e).1 = .error error) : (p.declareObjective e).2 = p := by
  rw [declareObjective] at h ⊢
  cases hset : p.model.objective with
  | some _ => rfl
  | none =>
    rw [hset] at h
    cases h

/-- A predicate that is refused, for whatever reason, changes nothing. -/
theorem declareDecision_of_error {t : PredicateTemplate} {error : ProblemError}
    (h : (p.declareDecision t).1 = .error error) : (p.declareDecision t).2 = p := by
  rw [declareDecision] at h ⊢
  by_cases hdecision : (!t.decision) = true
  · rw [if_pos hdecision]
  · rw [if_neg hdecision] at h ⊢
    by_cases hknown : (p.model.decisionIndex? t).isSome = true
    · rw [if_pos hknown]
    · rw [if_neg hknown] at h
      cases h

/-- **A refused call changes nothing.** -/
theorem call_of_refused {c : Call K} {e : ProblemError}
    (h : (p.call c).2 = .declared (.error e)) : (p.call c).1 = p := by
  cases c with
  | setObjective expr => exact declareObjective_of_error (Reply.declared.inj h)
  | addConstraint c => cases Reply.declared.inj h
  | addDecision t => exact declareDecision_of_error (Reply.declared.inj h)
  | solve grounder solver => cases h

/-- **A problem stays consistent over every run**, however grounding and solving go. The declared predicates
are distinct decision predicates; there is a solution exactly when the status is optimal, which is when
the last request to solve was answered so; a refused declaration changes nothing; and solving leaves the
model as it was, and after an error neither a status nor a solution. -/
theorem run_consistent (name : String) (sense : Sense) (grounder : Grounder K) (solver : Solver K)
    (calls : List (Call K)) :
    let p := ((declare name sense grounder solver).run calls).1
    let replies := ((declare name sense grounder solver).run calls).2
    (p.model.decision.Nodup ∧ ∀ t ∈ p.model.decision, t.decision = true)
      ∧ (p.solution?.isSome = true ↔ p.status = .optimal)
      ∧ (p.status = .optimal ↔ lastOutcome? replies = some (.ok .optimal))
      ∧ (∀ c e, (p.call c).2 = .declared (.error e) → (p.call c).1 = p)
      ∧ ∀ grounder solver, (p.call (.solve grounder solver)).1.model = p.model
        ∧ ∀ e, (p.call (.solve grounder solver)).2 = .solved (.error e) →
          (p.call (.solve grounder solver)).1.status = .unsolved
            ∧ (p.call (.solve grounder solver)).1.solution? = none := by
  intro p replies
  have h : p.Consistent (lastOutcome? replies) := by
    simpa using (consistent_declare name sense grounder solver).run calls
  refine ⟨⟨h.nodup, h.decision⟩, ?_, ?_, fun c e => call_of_refused, fun ground solve => ⟨?_, ?_⟩⟩
  · rw [isSome_solution?, h.isSome_solved]
  · rw [h.status_eq, statusAfter_eq_optimal_iff]
  · exact (solve_leaves _).1
  · intro e he
    -- an error is the outcome of the call, so the status after it is that of no answer
    have hafter := h.call (.solve ground solve)
    rw [he, Reply.outcome?, Option.some_or] at hafter
    refine ⟨hafter.status_eq, ?_⟩
    rw [← Option.not_isSome_iff_eq_none, isSome_solution?, hafter.isSome_solved, hafter.status_eq]
    exact nofun

/-- The predicate of an amount for each item. -/
def amount : PredicateTemplate := ⟨"amount", 1, .numeric, true⟩

/-- Every model is grounded to the program of one free column. -/
def groundOneColumn : Grounder Double := fun _ =>
  .ok ⟨⟨[0], .zeros 0 1, [], .zeros 0 1, []⟩,
    .ofTemplates [(amount, .ofList [[.text "bread"]])]⟩

/-- Zero is an optimal point. -/
def answerZero : Solver Double := fun _ => .ok (.optimal [0] 0)

/-- No program is accepted. -/
def refuseAll : Solver Double := fun _ => .error (.nonFinite "c")

/-- A predicate is declared, twice, and the problem is solved. -/
def optimalRun : List (Call Double) :=
  [.addDecision amount, .addDecision amount, .solve groundOneColumn answerZero]

/-- After an optimal run the predicate is refused once more, and nothing changes; a request to solve that
fails leaves no solution. -/
theorem run_consistent_refused :
    let p := ((declare "shop" .minimize groundOneColumn answerZero).run optimalRun).1
    p.solution?.isSome = true
      ∧ (p.call (.addDecision amount)).2 = .declared (.error (.duplicateDecision amount.render))
      ∧ (p.call (.addDecision amount)).1 = p
      ∧ (p.call (.solve groundOneColumn refuseAll)).2 = .solved (.error (.solver (.nonFinite "c")))
      ∧ (p.call (.solve groundOneColumn refuseAll)).1.solution? = none := by
  intro p
  have hconsistent := run_consistent "shop" .minimize groundOneColumn answerZero optimalRun
  obtain ⟨-, hsolution, hstatus, hrefused, hsolve⟩ := hconsistent
  have hsome : p.solution?.isSome = true := hsolution.mpr (hstatus.mpr rfl)
  have hagain : (p.call (.addDecision amount)).2
      = .declared (.error (.duplicateDecision amount.render)) := rfl
  have hfails : (p.call (.solve groundOneColumn refuseAll)).2
      = .solved (.error (.solver (.nonFinite "c"))) := rfl
  exact ⟨hsome, hagain, hrefused _ _ hagain, hfails, ((hsolve _ _).2 _ hfails).2⟩

end Problem

end RelationalLP
