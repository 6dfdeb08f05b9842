namespace DotLambda

/-!
# Commands — what they leave

What a command has written and how it has ended.
-/

/-- What was written to standard output and to standard error. -/
structure Transcript where
  out : String := ""
  err : String := ""

/-- What was written first and then. -/
def Transcript.andThen (first second : Transcript) : Transcript :=
  ⟨first.out ++ second.out, first.err ++ second.err⟩

/-- A command that has ended. -/
structure Finish extends Transcript where
  /-- Zero for success. -/
  exit : Nat

namespace Finish

/-- A success. -/
def success (t : Transcript) : Finish :=
  ⟨t, 0⟩

/-- A failure. -/
def failure (t : Transcript) : Finish :=
  ⟨t, 1⟩

end Finish

end DotLambda
