import RelationalLP.Collections.Distinct
import RelationalLP.Logic.Atom
import RelationalLP.Logic.Comparison

/-! # Formulas

Logical formulas over atoms and comparisons. Functions on formulas come in pairs, one for a formula
and one for a list of formulas. -/

namespace RelationalLP

/-- A logical formula. -/
inductive Formula (K : Type) where
  /-- The formula that always holds. -/
  | truth
  /-- The formula that never holds. -/
  | falsity
  /-- An atom. -/
  | atom (a : Atom K)
  /-- A comparison of two terms. -/
  | compare (c : Comparison K)
  /-- A negation. -/
  | neg (f : Formula K)
  /-- A conjunction. -/
  | conj (fs : List (Formula K))
  /-- A disjunction. -/
  | disj (fs : List (Formula K))
  deriving Inhabited

namespace Formula

variable {K : Type}

/-! ### Identity -/

section Identity

variable [DecidableEq K]

mutual

/-- Decides whether two formulas are the same. -/
def decEq : (f g : Formula K) → Decidable (f = g)
  | truth, g => match g with
    | truth => isTrue rfl
    | falsity | atom _ | compare _ | neg _ | conj _ | disj _ => isFalse nofun
  | falsity, g => match g with
    | falsity => isTrue rfl
    | truth | atom _ | compare _ | neg _ | conj _ | disj _ => isFalse nofun
  | atom a, g => match g with
    | atom b => decidable_of_iff (a = b) (by simp)
    | truth | falsity | compare _ | neg _ | conj _ | disj _ => isFalse nofun
  | compare c, g => match g with
    | compare d => decidable_of_iff (c = d) (by simp)
    | truth | falsity | atom _ | neg _ | conj _ | disj _ => isFalse nofun
  | neg f, g => match g with
    | neg h => match decEq f h with
      | isTrue e => isTrue (by rw [e])
      | isFalse e => isFalse fun he => e (neg.inj he)
    | truth | falsity | atom _ | compare _ | conj _ | disj _ => isFalse nofun
  | conj fs, g => match g with
    | conj gs => match decEqList fs gs with
      | isTrue e => isTrue (by rw [e])
      | isFalse e => isFalse fun he => e (conj.inj he)
    | truth | falsity | atom _ | compare _ | neg _ | disj _ => isFalse nofun
  | disj fs, g => match g with
    | disj gs => match decEqList fs gs with
      | isTrue e => isTrue (by rw [e])
      | isFalse e => isFalse fun he => e (disj.inj he)
    | truth | falsity | atom _ | compare _ | neg _ | conj _ => isFalse nofun

/-- Decides whether two lists of formulas are the same. -/
def decEqList : (fs gs : List (Formula K)) → Decidable (fs = gs)
  | [], gs => match gs with
    | [] => isTrue rfl
    | _ :: _ => isFalse nofun
  | f :: fs, gs => match gs with
    | [] => isFalse nofun
    | g :: gs => match decEq f g, decEqList fs gs with
      | isTrue e, isTrue es => isTrue (by rw [e, es])
      | isFalse e, _ => isFalse fun he => e (List.cons.inj he).1
      | _, isFalse es => isFalse fun he => es (List.cons.inj he).2

end

instance : DecidableEq (Formula K) := decEq

end Identity

/-! ### Substitution -/

mutual

/-- Replaces bound variables by their constants. -/
def substitute (b : Binding K) : Formula K → Formula K
  | truth => truth
  | falsity => falsity
  | atom a => atom (a.substitute b)
  | compare c => compare (c.substitute b)
  | neg f => neg (f.substitute b)
  | conj fs => conj (substituteList b fs)
  | disj fs => disj (substituteList b fs)

/-- Replaces bound variables in each formula of a list. -/
def substituteList (b : Binding K) : List (Formula K) → List (Formula K)
  | [] => []
  | f :: fs => f.substitute b :: substituteList b fs

end

mutual

/-- Renames the variables. -/
def rename (r : Renaming) : Formula K → Formula K
  | truth => truth
  | falsity => falsity
  | atom a => atom (a.rename r)
  | compare c => compare (c.rename r)
  | neg f => neg (f.rename r)
  | conj fs => conj (renameList r fs)
  | disj fs => disj (renameList r fs)

/-- Renames the variables of each formula of a list. -/
def renameList (r : Renaming) : List (Formula K) → List (Formula K)
  | [] => []
  | f :: fs => f.rename r :: renameList r fs

end

/-! ### Variables -/

mutual

/-- The variables in order of their places, with repetitions. -/
def occurrences : Formula K → List Symbol
  | truth => []
  | falsity => []
  | atom a => a.vars
  | compare c => c.vars
  | neg f => f.occurrences
  | conj fs => occurrencesList fs
  | disj fs => occurrencesList fs

/-- The variables of a list of formulas, with repetitions. -/
def occurrencesList : List (Formula K) → List Symbol
  | [] => []
  | f :: fs => f.occurrences ++ occurrencesList fs

end

/-- The distinct variables in order of first appearance. -/
def vars (f : Formula K) : List Symbol := distinct f.occurrences

/-! ### Truth -/

mutual

/-- The truth value under a binding, atoms being decided by `truthOf`; none when an atom or a
comparison anywhere in the formula keeps a variable. -/
def evaluate [Scalar K] (b : Binding K) (truthOf : Atom K → Bool) : Formula K → Option Bool
  | truth => some true
  | falsity => some false
  | atom a =>
    let ground := a.substitute b
    if ground.isGround then some (truthOf ground) else none
  | compare c => c.evaluate b
  | neg f => (f.evaluate b truthOf).map (!·)
  | conj fs => (evaluateList b truthOf fs).map (·.all id)
  | disj fs => (evaluateList b truthOf fs).map (·.any id)

/-- The truth values of a list of formulas; none when one of them has none. -/
def evaluateList [Scalar K] (b : Binding K) (truthOf : Atom K → Bool) :
    List (Formula K) → Option (List Bool)
  | [] => some []
  | f :: fs =>
    match f.evaluate b truthOf, evaluateList b truthOf fs with
    | some v, some vs => some (v :: vs)
    | _, _ => none

end

/-! ### Text -/

/-- Whether the formula is put in parentheses below a connective. -/
def isCompound : Formula K → Bool
  | conj _ | disj _ => true
  | _ => false

mutual

/-- The written form; conjunctions and disjunctions below a connective are in parentheses. -/
def render [Scalar K] : Formula K → String
  | truth => "true"
  | falsity => "false"
  | atom a => a.render
  | compare c => c.render
  | neg f => "~" ++ (if f.isCompound then "(" ++ f.render ++ ")" else f.render)
  | conj fs => " & ".intercalate (renderList fs)
  | disj fs => " | ".intercalate (renderList fs)

/-- The written forms of the parts of a connective. -/
def renderList [Scalar K] : List (Formula K) → List String
  | [] => []
  | f :: fs => (if f.isCompound then "(" ++ f.render ++ ")" else f.render) :: renderList fs

end

end Formula

end RelationalLP
