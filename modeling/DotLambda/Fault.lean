import DotLambda.Block
import DotLambda.Text.Quoted

namespace DotLambda

/-!
# Faults of a program text

Why a text is not a program, as causes, with one place for their wording.

* `Fault` — what is wrong;
* `SyntaxError` — a fault and the piece of text that shows it;
* `ReadError` — why an expression cannot be read: a syntax error, or a name bound twice.
-/

/-- What can be wrong with a text. -/
inductive Fault where
  /-- The program is empty. -/
  | emptyProgram
  /-- An expression is empty. -/
  | emptyExpression
  /-- The parentheses do not match. -/
  | block (fault : BlockFault)
  /-- A name is empty. -/
  | missingName
  /-- A name holds a character that no name may hold. -/
  | invalidName (name : String)
  /-- A name is called that is not in scope.  `suggestion` is a name in scope that is near. -/
  | unknownFunction (name : String) (suggestion : Option String)
  /-- Something other than a dot follows a block. -/
  | missingDot
  /-- Nothing follows a dot. -/
  | missingArgument
  /-- A definition is not closed by a semicolon. -/
  | openDefinition
  /-- A definition lacks its name or its body. -/
  | shortDefinition
  /-- No block follows a list of parameters. -/
  | unusedParameters
  /-- A list of parameters has an empty entry. -/
  | emptyParameter
deriving DecidableEq

namespace Fault

/-- The wording of a fault. -/
def message : Fault → String
  | emptyProgram => "empty program"
  | emptyExpression => "empty expression"
  | block .unbalanced => "unbalanced ')'"
  | block .unclosed => "missing ')'"
  | missingName => "missing name"
  | invalidName name => "invalid name " ++ quoted name
  | unknownFunction name _ => "unknown function name: " ++ name
  | missingDot => "expected '.' before argument"
  | missingArgument => "missing argument after '.'"
  | openDefinition => "malformed let: expected ';' after definition"
  | shortDefinition => "malformed let: expected 'let <name> <body>;'"
  | unusedParameters => "parameter list must be followed by '('"
  | emptyParameter => "empty parameter"

/-- The name that a fault suggests; empty where it suggests none. -/
def suggestion : Fault → String
  | unknownFunction _ suggestion => suggestion.getD ""
  | _ => ""

end Fault

/-- A fault in a text. -/
structure SyntaxError where
  fault : Fault
  /-- The piece of the program that shows the fault; may be empty. -/
  text : String
deriving DecidableEq

namespace SyntaxError

/-- A fault shown by a piece of text. -/
def on (fault : Fault) (text : List Char) : SyntaxError :=
  ⟨fault, String.ofList text⟩

/-- The wording of a syntax error.  An empty text and an empty suggestion are left out. -/
def message (e : SyntaxError) : String :=
  "syntax error: " ++ e.fault.message ++
    (if e.text.isEmpty then "" else " in " ++ quoted e.text) ++
    (if e.fault.suggestion.isEmpty then ""
     else " (did you mean " ++ quoted e.fault.suggestion ++ "?)")

end SyntaxError

/-- Why an expression cannot be read. -/
inductive ReadError where
  /-- The text is malformed. -/
  | malformed (e : SyntaxError)
  /-- A binder has the name of one that is visible at its place. -/
  | rebound (name : String)
deriving DecidableEq

namespace ReadError

/-- A malformed piece of text. -/
def on (fault : Fault) (text : List Char) : ReadError :=
  .malformed (.on fault text)

/-- The wording of a read error. -/
def message : ReadError → String
  | malformed e => e.message
  | rebound name => "binding error: that name is already defined: " ++ name

end ReadError

end DotLambda
