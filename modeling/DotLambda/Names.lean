import DotLambda.Term

namespace DotLambda

/-!
# Names of identities

The table that gives each identity its source name.  Names are for display only: position
`i` of the table is the name of identity `i`, and an identity outside the table shows as a
placeholder.
-/

/-- The source names of the identities `0, 1, 2, …`. -/
abbrev Names := Array String

namespace Names

/-- What an identity without a name shows as. -/
def placeholder : String := "<unbound>"

/-- The name of `id`, or the placeholder outside the table. -/
def lookup (names : Names) (id : Ident) : String :=
  if id < 0 then placeholder else names[id.toNat]?.getD placeholder

/-- The table filled up with placeholders to at least `size` entries. -/
def padTo (names : Names) (size : Nat) : Names :=
  names ++ Array.replicate (size - names.size) placeholder

/-- Enters `id` under the name that `model` has.  A table that is empty keeps no names and stays
    empty. -/
def enterLike (names : Names) (id model : Ident) : Names :=
  if names.isEmpty then names
  else
    let padded := names.padTo id.toNat
    padded.push (padded.lookup model)

end Names

end DotLambda
