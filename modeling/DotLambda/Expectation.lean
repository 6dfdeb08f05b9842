import DotLambda.Run

namespace DotLambda

/-!
# Expectations

What a program is expected to lead to: a normal form as it is shown on one line, or a failure
of a given kind.
-/

/-- What a program is expected to lead to. -/
inductive Expectation where
  /-- This normal form. -/
  | shown (text : String)
  /-- A failure of this kind. -/
  | failure (kind : String)

namespace Expectation

/-- Reads an expectation.  White space around it carries no meaning, and `error:` asks for a
    failure of the kind behind it. -/
def ofString (text : String) : Expectation :=
  match trim text.toList with
  | 'e' :: 'r' :: 'r' :: 'o' :: 'r' :: ':' :: kind => .failure (String.ofList (trim kind))
  | text => .shown (String.ofList text)

/-- The kind of a failure. -/
def kindOf : RunError → Option String
  | .load (.desugaring _) => some "syntax"
  | .load (.reading (.malformed _)) => some "syntax"
  | .load (.reading (.rebound _)) => some "binding"
  | .reduction _ => some "divergence"
  | .nested => none

/-- Runs `input` under the name `title` and compares; `none` if the expectation is met, and else
    what is wrong. -/
def complaint? (title input : String) (expected : Expectation) : Option String :=
  match expected, run input.toList {} with
  | failure kind, .ok result =>
    some (title ++ ": expected " ++ kind ++ " error, got " ++ result.display false)
  | failure kind, .error e =>
    if kindOf e = some kind then none
    else some (title ++ ": expected " ++ kind ++ " error, got " ++ e.message)
  | shown _, .error e => some (title ++ ": " ++ e.message)
  | shown text, .ok result =>
    let actual := result.display false
    if actual = text then none
    else
      some ("Mismatch in " ++ title ++ ":\nInput: " ++ input ++ "\nExpected: " ++ text ++
        "\nActual:   " ++ actual)

end Expectation

end DotLambda
