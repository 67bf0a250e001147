import Mathlib
import RelationalLP.Proofs.Grounding.Progress

/-! # Calls on a grounding context

Grounding a model makes calls on one context in any order: it asks for columns, adds to the objective and
finishes rows. A session is such a sequence of calls, in which only keys are used that were returned
before. After a session the context holds exactly what the calls have put there. -/

namespace RelationalLP

/-- A successful call on a grounding context with its answer. -/
inductive Call (K : Type) where
  /-- A key was returned for an atom. -/
  | column (a : Atom K) (key : Position)
  /-- A number was added to the objective at a key. -/
  | addObjective (key : Position) (v : K)
  /-- A row was finished, and kept or dropped. -/
  | pushRow (kind : RelationKind) (row : GroundRow K) (kept : Bool)

namespace Call

variable {K : Type}

/-- The keys that were returned. -/
def keys (calls : List (Call K)) : List Position :=
  calls.filterMap fun
    | column _ key => some key
    | _ => none

/-- The numbers that were added to the objective at a key. -/
def costs (key : Position) (calls : List (Call K)) : List K :=
  calls.filterMap fun
    | addObjective k v => if k = key then some v else none
    | _ => none

/-- The rows of a kind that were kept, the equations for true. -/
def keptRows (isEquality : Bool) (calls : List (Call K)) : List (GroundRow K) :=
  calls.filterMap fun
    | pushRow kind row true => if decide (kind = .eq) = isEquality then some row else none
    | _ => none

variable {calls : List (Call K)}

theorem mem_keys {key : Position} : key ∈ keys calls ↔ ∃ a, column a key ∈ calls := by
  unfold keys
  rw [List.mem_filterMap]
  constructor
  · rintro ⟨call, hcall, heq⟩
    cases call with
    | column a k =>
      obtain rfl := Option.some.inj heq
      exact ⟨a, hcall⟩
    | addObjective => cases heq
    | pushRow => cases heq
  · rintro ⟨a, ha⟩
    exact ⟨_, ha, rfl⟩

theorem costs_append (key : Position) (calls : List (Call K)) (call : Call K) :
    costs key (calls ++ [call]) = costs key calls ++ costs key [call] := List.filterMap_append

theorem keptRows_append (e : Bool) (calls : List (Call K)) (call : Call K) :
    keptRows e (calls ++ [call]) = keptRows e calls ++ keptRows e [call] := List.filterMap_append

end Call

namespace GroundingContext

variable {K : Type} [Scalar K]

/-- **Sessions**: calls one after another on the context of a model, whose keys were returned before.
The atoms have as many arguments as their predicates, and a row has no key twice. A call that fails
changes nothing and is left out. -/
inductive Session (model : Model K) : List (Call K) → GroundingContext K → Prop
  /-- No call was made. -/
  | start : Session model [] (.start model)
  /-- A column is asked for. -/
  | column {calls ctx ctx' a key} (h : Session model calls ctx)
      (hfits : a.arguments.length = a.template.arity) (hcall : ctx.column a = .ok (key, ctx')) :
      Session model (calls ++ [.column a key]) ctx'
  /-- A number is added to the objective. -/
  | addObjective {calls ctx key} (v : K) (h : Session model calls ctx) (hkey : key ∈ Call.keys calls) :
      Session model (calls ++ [.addObjective key v]) (ctx.addObjective key v)
  /-- A row is finished. -/
  | pushRow {calls ctx ctx' kind row kept} (constraint : String) (h : Session model calls ctx)
      (hsorted : SortedByPosition row.entries)
      (hkeys : ∀ key ∈ row.entries.map Prod.fst, key ∈ Call.keys calls)
      (hcall : ctx.pushRow kind row constraint = .ok (kept, ctx')) :
      Session model (calls ++ [.pushRow kind row kept]) ctx'

/-- **What a session leaves behind**: the columns are those that were asked for, the objective has at each
key the sum of what was added there, and the rows are those that were kept. -/
structure Holds (ctx : GroundingContext K) (model : Model K) (calls : List (Call K)) : Prop where
  /-- The model stays. -/
  model_eq : ctx.model = model
  /-- Each column has an atom. -/
  valid : ctx.Valid
  /-- A key stands for the atom for which it was returned. -/
  atomAt_iff {key : Position} {a : Atom K} : ctx.atomAt key = some a ↔ .column a key ∈ calls
  /-- The atoms have as many arguments as their predicates. -/
  fits {key : Position} {a : Atom K} :
    ctx.atomAt key = some a → a.arguments.length = a.template.arity
  /-- The keys of the objective are known. -/
  objective : ctx.objective.Known ctx
  /-- The objective has the sums of the costs, from the left. -/
  lookup_objective (key : Position) : ctx.objective.lookup key
    = if Call.costs key calls = [] then none else some ((Call.costs key calls).foldl (· + ·) 0)
  /-- The rows are those that were kept. -/
  rows_eq (e : Bool) : ctx.rows e = Call.keptRows e calls
  /-- The keys of the rows are known. -/
  rows {e : Bool} {r : GroundRow K} : r ∈ ctx.rows e → r.entries.Known ctx
  /-- Each row has decision variables. -/
  hasDecisions {e : Bool} {r : GroundRow K} : r ∈ ctx.rows e → r.hasDecisions = true

variable {model : Model K} {ctx ctx' : GroundingContext K} {calls : List (Call K)}

/-- The sum of the costs at a key. -/
theorem Holds.get_objective (h : ctx.Holds model calls) (key : Position) :
    ctx.objective.get key = (Call.costs key calls).foldl (· + ·) 0 := by
  rw [Tally.get, h.lookup_objective]
  split
  · rename_i hnone
    rw [hnone]
    rfl
  · rfl

/-- A call that adds nothing to the objective leaves its sums. -/
theorem Holds.lookup_objective_append (h : ctx.Holds model calls)
    (hobjective : ctx'.objective = ctx.objective) {call : Call K}
    (hcall : ∀ key, Call.costs key [call] = []) (key : Position) : ctx'.objective.lookup key
      = if Call.costs key (calls ++ [call]) = [] then none
        else some ((Call.costs key (calls ++ [call])).foldl (· + ·) 0) := by
  rw [Call.costs_append, hcall, List.append_nil, hobjective]
  exact h.lookup_objective key

theorem Holds.known_of_keys (h : ctx.Holds model calls) {t : Tally K} (hsorted : SortedByPosition t)
    (hkeys : ∀ key ∈ t.map Prod.fst, key ∈ Call.keys calls) : t.Known ctx := by
  refine ⟨hsorted, fun key hkey => ?_⟩
  obtain ⟨a, ha⟩ := Call.mem_keys.mp (hkeys key hkey)
  rw [h.atomAt_iff.mpr ha]
  rfl

/-- At the start nothing was asked for. -/
theorem holds_start (model : Model K) : (start model).Holds model [] := by
  refine ⟨rfl, valid_start model, fun {key a} => ?_, fun {key a} ha => ?_, Tally.known_nil _,
    fun _ => rfl, fun e => ?_, fun {e r} hr => ?_, fun {e r} hr => ?_⟩
  · rw [atomAt_start]
    exact iff_of_false nofun List.not_mem_nil
  · rw [atomAt_start] at ha
    cases ha
  · cases e <;> rfl
  · cases e <;> exact absurd hr List.not_mem_nil
  · cases e <;> exact absurd hr List.not_mem_nil

/-- **A request for a column** adds its key, and leaves the rest. -/
theorem Holds.column (h : ctx.Holds model calls) {a : Atom K} {key : Position}
    (hfits : a.arguments.length = a.template.arity) (hcall : ctx.column a = .ok (key, ctx')) :
    ctx'.Holds model (calls ++ [.column a key]) := by
  obtain ⟨hwidens, hkey, hothers⟩ := widens_of_column h.valid hcall
  have hrows : ∀ e, ctx'.rows e = ctx.rows e := by
    intro e
    rw [GroundingContext.rows, GroundingContext.rows, hwidens.equalities_eq, hwidens.inequalities_eq]
  refine ⟨hwidens.model_eq.trans h.model_eq, hwidens.valid h.valid, fun {k b} => ?_, fun {k b} hb => ?_,
    ?_, fun k => ?_, fun e => ?_, fun {e r} hr => ?_, fun {e r} hr => ?_⟩
  · -- the only new key is the one that was asked for
    rw [List.mem_append, List.mem_singleton, Call.column.injEq, ← h.atomAt_iff]
    constructor
    · intro hb
      rcases hothers hb with hold | ⟨rfl, rfl⟩
      · exact .inl hold
      · exact .inr ⟨rfl, rfl⟩
    · rintro (hold | ⟨rfl, rfl⟩)
      · exact hwidens.atomAt hold
      · exact hkey
  · -- a key that was known fits as before, and the new one by assumption
    rcases hothers hb with hold | ⟨-, rfl⟩
    · exact h.fits hold
    · exact hfits
  · rw [hwidens.objective_eq]
    exact h.objective.grows hwidens.toGrows
  · exact h.lookup_objective_append hwidens.objective_eq (fun _ => rfl) k
  · rw [hrows, h.rows_eq, Call.keptRows_append]
    exact (List.append_nil _).symm
  · rw [hrows] at hr
    exact (h.rows hr).grows hwidens.toGrows
  · rw [hrows] at hr
    exact h.hasDecisions hr

/-- **An addition to the objective** adds to the sum at its key, and leaves the rest. -/
theorem Holds.addObjective (h : ctx.Holds model calls) {key : Position}
    (hkey : key ∈ Call.keys calls) (v : K) :
    (ctx.addObjective key v).Holds model (calls ++ [.addObjective key v]) := by
  obtain ⟨a, ha⟩ := Call.mem_keys.mp hkey
  have hgrows : ctx.Grows (ctx.addObjective key v) :=
    ⟨rfl, fun _ => List.prefix_refl _, fun hv => ⟨hv.length_eq, hv.named⟩⟩
  have hadded : (ctx.objective.add key v).Known ctx :=
    h.objective.add (by rw [h.atomAt_iff.mpr ha]; rfl) v
  have hatom : ∀ k, (ctx.addObjective key v).atomAt k = ctx.atomAt k := fun _ => rfl
  refine ⟨h.model_eq, hgrows.valid h.valid, fun {k b} => ?_, fun {k b} hb => h.fits hb,
    hadded.grows hgrows, fun k => ?_, fun e => ?_, fun hr => (h.rows hr).grows hgrows,
    fun hr => h.hasDecisions hr⟩
  · rw [hatom, h.atomAt_iff, List.mem_append, List.mem_singleton]
    exact (or_iff_left fun heq => by cases heq).symm
  · -- the sum at the key grows, and the others stay
    show (ctx.objective.add key v).lookup k = _
    rw [Tally.lookup_add h.objective.sorted, Call.costs_append]
    by_cases hk : k = key
    · subst hk
      have hcosts : Call.costs k [.addObjective k v] = [v] := by simp [Call.costs]
      rw [if_pos rfl, h.get_objective, hcosts, if_neg (by simp), List.foldl_append]
      rfl
    · have hcosts : Call.costs k [.addObjective key v] = [] := by simp [Call.costs, Ne.symm hk]
      rw [if_neg hk, hcosts, List.append_nil, h.lookup_objective]
  · rw [Call.keptRows_append]
    exact (h.rows_eq e).trans (List.append_nil _).symm

/-- **A finished row** comes after the others of its kind if it is kept, and leaves the rest. -/
theorem Holds.pushRow (h : ctx.Holds model calls) {kind : RelationKind} {row : GroundRow K}
    {constraint : String} {kept : Bool} (hrow : row.entries.Known ctx)
    (hcall : ctx.pushRow kind row constraint = .ok (kept, ctx')) :
    ctx'.Holds model (calls ++ [.pushRow kind row kept]) := by
  obtain ⟨hgrows, hcolumns, hobjective, hrows, rfl, -⟩ := grows_of_pushRow hcall
  have hatom : ∀ k, ctx'.atomAt k = ctx.atomAt k := by
    intro k
    rw [atomAt, atomAt, hgrows.model_eq, hcolumns]
  -- a row with decision variables is added, and no other
  have hmem : ∀ {e r}, r ∈ ctx'.rows e → r ∈ ctx.rows e ∨ r = row ∧ row.hasDecisions = true := by
    intro e r hr
    rw [hrows, List.mem_append] at hr
    refine hr.imp_right fun hnew => ?_
    split at hnew
    · rename_i hkept
      exact ⟨List.mem_singleton.mp hnew, hkept.2⟩
    · exact absurd hnew List.not_mem_nil
  refine ⟨hgrows.model_eq.trans h.model_eq, hgrows.valid h.valid, fun {k b} => ?_, fun {k b} hb => ?_,
    ?_, fun k => ?_, fun e => ?_, fun {e r} hr => ?_, fun {e r} hr => ?_⟩
  · rw [hatom, h.atomAt_iff, List.mem_append, List.mem_singleton]
    exact (or_iff_left fun heq => by cases heq).symm
  · exact h.fits (hatom k ▸ hb)
  · rw [hobjective]
    exact h.objective.grows hgrows
  · exact h.lookup_objective_append hobjective (fun _ => rfl) k
  · -- both lists of rows grow by the same row, or by none
    rw [hrows, h.rows_eq, Call.keptRows_append]
    congr 1
    by_cases hdecisions : row.hasDecisions = true
    · by_cases hkind : e = decide (kind = .eq)
      · simp [Call.keptRows, hdecisions, hkind]
      · simp [Call.keptRows, hdecisions, hkind, Ne.symm hkind]
    · simp [Call.keptRows, hdecisions]
  · rcases hmem hr with hold | ⟨rfl, -⟩
    · exact (h.rows hold).grows hgrows
    · exact hrow.grows hgrows
  · rcases hmem hr with hold | ⟨rfl, hdecisions⟩
    · exact h.hasDecisions hold
    · exact hdecisions

/-- **After a session** the context holds what its calls have put there. -/
theorem Session.holds (h : Session model calls ctx) : ctx.Holds model calls := by
  induction h with
  | start => exact holds_start model
  | column _ hfits hcall ih => exact ih.column hfits hcall
  | addObjective v _ hkey ih => exact ih.addObjective hkey v
  | pushRow _ _ hsorted hkeys hcall ih => exact ih.pushRow (ih.known_of_keys hsorted hkeys) hcall

end GroundingContext

end RelationalLP
