import DotLambda.Display
import DotLambda.Program
import DotLambda.Reduction.Normalize

namespace DotLambda

/-!
# Runs of a program

From a program text to its normal form: desugar, read, reduce.

* `Options` — what a user can choose;
* `run` — the whole way, with errors that say which stage failed, and with one that stands for no
  answer at all;
* `Result.display` — the normal form as it is shown.
-/

/-- What a user can choose about a run. -/
structure Options where
  /-- The steps that the program may take. -/
  maxSteps : Int := defaultSteps
  /-- The steps that a parameter may take before it is substituted. -/
  parameterSteps : Int := defaultParameterSteps
  /-- Whether the result is shown over several lines. -/
  overLines : Bool := false
  /-- How deep reductions of parameters inside reductions of parameters are followed.  It is no
      limit of the language: every answer that is given stays the same under a greater one. -/
  nesting : Nat := 1000000

/-- The normal form of a program. -/
structure Result where
  term : Term
  names : Names
  stats : Stats

/-- The normal form as it is shown. -/
def Result.display (r : Result) (overLines : Bool) : String :=
  r.term.display r.names overLines

/-- Why a program has no result. -/
inductive RunError where
  /-- It is no program. -/
  | load (e : LoadError)
  /-- It has no normal form within the steps allowed. -/
  | reduction (e : Divergence)
  /-- There is no answer yet: reductions of parameters nest deeper than they are followed.  This
      says nothing about the program, which may have a result or none under a greater
      `Options.nesting`. -/
  | nested

/-- The wording of a failure, with the stage that failed in front. -/
def RunError.message : RunError → String
  | load (.desugaring e) => "compile: " ++ e.message
  | load (.reading e) => "parse: " ++ e.message
  | reduction e => "reduce: " ++ e.message
  | nested => "reduce: parameters are nested too deeply"

/-- Runs a program and keeps a journal. -/
def runLogged (journal : Journal) (source : List Char) (options : Options) :
    Except RunError Result × Journal :=
  match loadWith journal source with
  | (.error e, journal) => (.error (.load e), journal)
  | (.ok (term, names), journal) =>
    let reducer := (({} : Reducer).withBudget options.parameterSteps).adoptNames names
    match Machine.normalize options.nesting options.maxSteps.toNat term ⟨reducer, journal⟩ with
    | none => (.error .nested, journal)
    | some (.error e, m) => (.error (.reduction e), m.journal)
    | some (.ok term, m) => (.ok ⟨term, m.names, m.stats⟩, m.journal)

/-- Runs a program: desugars, reads and reduces it. -/
def run (source : List Char) (options : Options) : Except RunError Result :=
  (runLogged .off source options).1

end DotLambda
