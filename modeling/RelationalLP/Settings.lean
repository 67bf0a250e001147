import RelationalLP.Number.Numeral

/-! # Settings

What the command line chooses: how to ground, whether to reduce by symmetry, the limits of the solver,
and how much to log. -/

namespace RelationalLP

/-- How a model is grounded. -/
inductive GroundingStrategy where
  /-- One bulk query for each summand. -/
  | block
  /-- One instance for each answer. -/
  | recursive
  deriving DecidableEq

/-- The settings of a run. -/
structure Settings where
  /-- How the model is grounded. -/
  grounder : GroundingStrategy := .block
  /-- Whether the program is reduced by symmetry. -/
  lifted : Bool := false
  /-- The greatest number of pivots. -/
  maxIterations : Nat := 10000
  /-- Numbers up to this magnitude count as zero. -/
  tolerance : Double := 1e-9
  /-- What is logged. -/
  logLevel : String := "info"

namespace Settings

/-- The settings that were given; none where nothing was said. -/
structure Given where
  /-- The strategy. -/
  grounder : Option GroundingStrategy := none
  /-- Whether reduction was asked for. -/
  lifted : Bool := false
  /-- The limit of pivots. -/
  maxIterations : Option Nat := none
  /-- The tolerance. -/
  tolerance : Option Double := none
  /-- The log filter. -/
  logLevel : Option String := none

/-- Fills what was not given with the defaults. -/
def ofGiven (g : Given) : Settings :=
  let standard : Settings := {}
  { grounder := g.grounder.getD standard.grounder
    lifted := g.lifted
    maxIterations := g.maxIterations.getD standard.maxIterations
    tolerance := g.tolerance.getD standard.tolerance
    logLevel := g.logLevel.getD standard.logLevel }

/-- The strategy of a word. -/
def strategy? (word : String) : Option GroundingStrategy :=
  if word = "block" then some .block else if word = "recursive" then some .recursive else none

/-- Whether an argument has the form of an option, and so cannot be the value of the option before. -/
def looksLikeOption (arg : String) : Bool := arg.startsWith "-" && arg ≠ "-"

/-- Whether an option takes a value. -/
def takesValue (name : String) : Bool :=
  name ∈ ["--grounder", "--max-iterations", "--tolerance", "--log-level"]

/-- Gives an option a value; an option cannot be given twice. -/
def assign? (g : Given) (name value : String) : Option Given :=
  match name with
  | "--grounder" =>
    if g.grounder.isSome then none
    else (strategy? value).map fun v => { g with grounder := some v }
  | "--max-iterations" =>
    if g.maxIterations.isSome then none
    else (Numeral.count? value).map fun v => { g with maxIterations := some v }
  | "--tolerance" =>
    if g.tolerance.isSome then none
    else (Numeral.double? value).map fun v => { g with tolerance := some v }
  | "--log-level" =>
    if g.logLevel.isSome then none else some { g with logLevel := some value }
  | _ => none

/-- The name of an option and the value written after an equals sign. -/
def splitOption (arg : String) : String × Option String :=
  let cs := arg.toList
  let name := String.ofList (cs.takeWhile (· ≠ '='))
  match cs.dropWhile (· ≠ '=') with
  | [] => (name, none)
  | _ :: value => (name, some (String.ofList value))

/-- Reads arguments one after another; none when one of them is refused. -/
def readArguments? (g : Given) : List String → Option Given
  | [] => some g
  | arg :: rest =>
    if arg = "--" then if rest.isEmpty then some g else none
    else if arg = "--lifted" || arg = "-L" then
      if g.lifted then none else readArguments? { g with lifted := true } rest
    else
      match splitOption arg with
      | (name, some value) =>
        match assign? g name value with
        | some g => readArguments? g rest
        | none => none
      | (name, none) =>
        if !takesValue name then none
        else
          match rest with
          | [] => none
          | value :: rest =>
            -- a value that begins with a dash has to be written after an equals sign
            if looksLikeOption value then none
            else
              match assign? g name value with
              | some g => readArguments? g rest
              | none => none

/-- The settings of a list of arguments; none when they are refused. -/
def ofArguments? (args : List String) : Option Settings := (readArguments? {} args).map ofGiven

end Settings

end RelationalLP
