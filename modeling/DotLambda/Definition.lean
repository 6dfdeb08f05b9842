import DotLambda.Fault
import DotLambda.Text.Blank

namespace DotLambda

/-!
# Definitions

A program may start with definitions `let name body;`.

* `Definition` — a name and its body, both without white space;
* `peelDefinitions` — peels the definitions off a program;
* `bindDefinitions` — binds definitions around an expression, which gives them their meaning.
-/

/-- A definition at the start of a program. -/
structure Definition where
  name : String
  body : String
deriving DecidableEq

namespace Definition

/-- A definition as it is written in a program. -/
def source (d : Definition) : String :=
  "let " ++ d.name ++ " " ++ d.body ++ ";"

end Definition

/-- Whether a text starts with a definition: the keyword, and ASCII white space behind it. -/
def startsDefinition : List Char → Bool
  | 'l' :: 'e' :: 't' :: c :: _ => isAsciiBlank c
  | _ => false

/-- Peels the definitions off the start of a text: the definitions in order, and what is left.
    White space inside a body carries no meaning and is dropped. -/
def peelDefinitions (text : List Char) : Except SyntaxError (List Definition × List Char) :=
  let start := trimStart text
  if startsDefinition start then
    match _h : start.dropWhile fun c => c != ';' with
    | [] => .error (.on .openDefinition (start.takeWhile fun c => c != '\n'))
    | _ :: rest =>
      let inside := start.takeWhile fun c => c != ';'
      match words inside with
      -- The first word is the keyword.
      | _ :: name :: first :: more =>
        match peelDefinitions rest with
        | .error e => .error e
        | .ok (definitions, expression) =>
          let body := (first :: more).flatten
          .ok (⟨String.ofList name, String.ofList body⟩ :: definitions, expression)
      | _ => .error (.on .shortDefinition (inside ++ [';']))
  else .ok ([], text)
termination_by text.length
decreasing_by
  have h₁ : start.length ≤ text.length := length_trimStart_le text
  have h₂ := (List.dropWhile_sublist (l := start) fun c => c != ';').length_le
  simp only [_h, List.length_cons] at h₂
  omega

/-- Binds a definition around an expression.  Its body goes into parentheses, so that it stays
    one argument. -/
def Definition.around (d : Definition) (expression : List Char) : List Char :=
  d.name.toList ++ '(' :: expression ++ ").(".toList ++ d.body.toList ++ [')']

/-- Binds definitions around an expression, the first one outermost. -/
def bindDefinitions (definitions : List Definition) (expression : List Char) : List Char :=
  definitions.foldr Definition.around expression

end DotLambda
