import DotLambda.Fault

namespace DotLambda

/-!
# Forms of an expression

Which kind of expression a text is, told from the first dot and the first parenthesis in it,
and what a name may be.
-/

/-- The kinds of expression that start with a name. -/
inductive Form where
  /-- A name by itself. -/
  | bare
  /-- A name followed by a block. -/
  | binding
  /-- A name followed by arguments. -/
  | call
deriving DecidableEq

namespace Form

/-- The word for a form. -/
def name : Form → String
  | bare => "Variable"
  | binding => "Abstraction"
  | call => "Application"

/-- The forms by their numbers. -/
def ofNumber? : Int → Option Form
  | 0 => some bare
  | 1 => some binding
  | 2 => some call
  | _ => none

/-- The word for the form with a number. -/
def nameOfNumber (n : Int) : String :=
  match ofNumber? n with
  | none => "Unknown"
  | some form => form.name

/-- The form of an expression that does not start with a parenthesis: a block or an argument,
    whichever comes first, decides. -/
def of (text : List Char) : Form :=
  match text.find? fun c => c == '(' || c == '.' with
  | none => bare
  | some c => if c = '(' then binding else call

end Form

/-- The characters that no name may hold.  A dot cannot occur either, because it ends the
    name. -/
def isReserved (c : Char) : Bool :=
  c == '(' || c == ')' || c == ',' || c == ';'

/-- What is wrong with a name, if anything. -/
def nameFault? (name : List Char) : Option Fault :=
  if name.isEmpty then some .missingName
  else if name.any isReserved then some (.invalidName (String.ofList name))
  else none

end DotLambda
