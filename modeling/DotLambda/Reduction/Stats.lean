namespace DotLambda

/-!
# Reduction — statistics

How often each thing happened since a reducer was made.  The counters are machine words and
wrap around.
-/

/-- The rules that a reducer applies. -/
inductive Rule where
  /-- A redex was fired. -/
  | beta
  /-- A parameter was still reducible when its steps ran out. -/
  | parameterExhausted
  /-- A variable was replaced. -/
  | substituteVar
  /-- The head of an application was replaced. -/
  | substituteApp
deriving DecidableEq

namespace Rule

/-- The word for a rule. -/
def name : Rule → String
  | beta => "beta"
  | parameterExhausted => "argument-exhausted"
  | substituteVar => "substitute-var"
  | substituteApp => "substitute-app"

/-- The rules by their numbers. -/
def ofNumber? : Int → Option Rule
  | 1 => some beta
  | 2 => some parameterExhausted
  | 3 => some substituteVar
  | 4 => some substituteApp
  | _ => none

/-- The word for the rule with a number. -/
def nameOfNumber (n : Int) : String :=
  match ofNumber? n with
  | none => "unknown"
  | some rule => rule.name

end Rule

/-- The counters of a reducer. -/
structure Stats where
  /-- Steps, those of parameters included. -/
  reductions : UInt64 := 0
  /-- Redexes fired. -/
  fired : UInt64 := 0
  /-- Parameters reduced before they were substituted. -/
  parameterRuns : UInt64 := 0
  /-- Parameters that were still reducible then. -/
  parametersExhausted : UInt64 := 0
  /-- Variables replaced. -/
  variableSites : UInt64 := 0
  /-- Heads of applications replaced. -/
  applicationSites : UInt64 := 0
deriving DecidableEq

namespace Stats

/-- Counts a step. -/
def countStep (s : Stats) : Stats :=
  { s with reductions := s.reductions + 1 }

/-- Counts the start of a parameter's reduction. -/
def countParameterRun (s : Stats) : Stats :=
  { s with parameterRuns := s.parameterRuns + 1 }

/-- Counts the application of a rule. -/
def count (s : Stats) : Rule → Stats
  | .beta => { s with fired := s.fired + 1 }
  | .parameterExhausted => { s with parametersExhausted := s.parametersExhausted + 1 }
  | .substituteVar => { s with variableSites := s.variableSites + 1 }
  | .substituteApp => { s with applicationSites := s.applicationSites + 1 }

end Stats

end DotLambda
