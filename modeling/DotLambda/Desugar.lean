import DotLambda.Definition
import DotLambda.Parameters

namespace DotLambda

/-!
# Desugared programs

A program without its abbreviations: definitions bound around the expression, parameter lists
written out, white space removed.
-/

/-- A program without its abbreviations. -/
structure Desugared where
  /-- The number of definitions that the program had. -/
  definitions : Nat
  /-- The expression that is left, without white space. -/
  text : List Char

/-- Takes the abbreviations out of a program. -/
def desugar (text : List Char) : Except SyntaxError Desugared :=
  match peelDefinitions text with
  | .error e => .error e
  | .ok (definitions, expression) =>
    match spellOutParameters (removeBlanks (bindDefinitions definitions expression)) with
    | .error e => .error e
    | .ok core => .ok ⟨definitions.length, core⟩

end DotLambda
