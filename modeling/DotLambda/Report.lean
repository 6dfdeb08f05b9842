import DotLambda.Duration
import DotLambda.Reduction.Stats

namespace DotLambda

/-!
# Reports

The statistics of a run as they are shown: the time it took, and each counter with its rate.
-/

/-- How the time that a run took is shown. -/
structure Timing where
  /-- The time itself. -/
  elapsed : String
  /-- The rate of a counter per second, where there is one. -/
  rate? : UInt64 → Option String

/-- The timing of a run that took the time `d`. -/
def Timing.ofDuration (d : Duration) : Timing :=
  ⟨d.write, d.rate?⟩

namespace Stats

/-- A counter with its rate. -/
def counter (timing : Timing) (width : Nat) (n : UInt64) : String :=
  padLeft width (toString n.toNat) ++
    match timing.rate? n with
    | none => ""
    | some rate => " (" ++ rate ++ " ops/sec)"

/-- A line of the breakdown. -/
def reportLine (timing : Timing) (label : String) (n : UInt64) : String :=
  "  " ++ padRight 26 (label ++ ":") ++ " " ++ counter timing 6 n ++ "\n"

/-- The statistics as they are shown.  Parameters that were still reducible are mentioned only if
    there were any. -/
def report (s : Stats) (timing : Timing) : String :=
  "\nStats:\n" ++
  "Time: " ++ timing.elapsed ++ "\n" ++
  "Total Reductions: " ++ counter timing 0 s.reductions ++ "\n" ++
  "\nBreakdown:\n" ++
  reportLine timing "Beta Reductions" s.fired ++
  reportLine timing "Argument Normalizations" s.parameterRuns ++
  reportLine timing "Variable Substitutions" s.variableSites ++
  reportLine timing "Application Substitutions" s.applicationSites ++
  if s.parametersExhausted = 0 then ""
  else reportLine timing "Argument Budget Exhausted" s.parametersExhausted

end Stats

end DotLambda
