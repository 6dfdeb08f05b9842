import DotLambda.Names

namespace DotLambda

/-!
# Display

A term written with its source names, in two layouts that differ in white space only:

* `Term.flat` — on one line: `name(body).param` and `name.(arg).(arg)`;
* `Term.indented` — over several lines, one more space to the left for each level of nesting.
-/

namespace Term

/-- What a missing part shows as. -/
def missing : String := "<nil>"

/-! ### On one line -/

mutual

/-- The term on one line. -/
def flat (names : Names) : Term → String
  | absent => missing
  | var id => names.lookup id
  | abs id body absent => names.lookup id ++ "(" ++ flat names body ++ ")"
  | abs id body param => names.lookup id ++ "(" ++ flat names body ++ ")" ++ "." ++ flat names param
  | app id args => names.lookup id ++ flatArgs names args

/-- Arguments on one line, each after a dot and in parentheses. -/
def flatArgs (names : Names) : List Term → String
  | [] => ""
  | arg :: args => ".(" ++ flat names arg ++ ")" ++ flatArgs names args

end

/-! ### Over several lines -/

/-- The start of a line at a level of nesting. -/
def indent (level : Nat) : String :=
  String.ofList (List.replicate level ' ')

mutual

/-- The term over several lines, its first line left where it is and the others indented for
    nesting level `level`. -/
def indentedAt (names : Names) (level : Nat) : Term → String
  | absent => missing
  | var id => names.lookup id
  | abs id body absent =>
    names.lookup id ++ "(\n" ++ (indent (level + 1) ++ indentedAt names (level + 1) body) ++
      ("\n" ++ indent level ++ ")")
  | abs id body param =>
    names.lookup id ++ "(\n" ++ (indent (level + 1) ++ indentedAt names (level + 1) body) ++
      ("\n" ++ indent level ++ ")") ++
      ("\n" ++ indent level ++ ".") ++ indentedAt names (level + 1) param
  | app id args => names.lookup id ++ indentedArgs names level args

/-- Arguments over several lines, each starting one of its own. -/
def indentedArgs (names : Names) (level : Nat) : List Term → String
  | [] => ""
  | arg :: args =>
    ("\n" ++ indent level ++ ".(") ++ indentedAt names (level + 1) arg ++ ")" ++
      indentedArgs names level args

end

/-- The term over several lines. -/
def indented (names : Names) (t : Term) : String :=
  indentedAt names 0 t

/-- The term in the layout asked for. -/
def display (names : Names) (overLines : Bool) (t : Term) : String :=
  if overLines then t.indented names else t.flat names

end Term

end DotLambda
