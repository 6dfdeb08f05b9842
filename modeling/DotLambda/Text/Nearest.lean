import DotLambda.Text.Folding

namespace DotLambda

/-!
# Text — the nearest name

When a program calls a name that is not in scope, the message may suggest one that is.

* `editDistance` — insertions, deletions and replacements that lead from one text to another;
* `skipped?` — how many characters of a text a subsequence of it leaves out;
* `suggest` — the candidate to offer for an unknown name.

A candidate is offered first when the unknown name abbreviates it, nearest by edit distance;
failing that, when it abbreviates the unknown name, nearest by the characters left out.
Names are compared by their folded keys in both, and of equally near candidates the earlier
one wins.

The rules for candidates are those of a library of its own for fuzzy search.  What is proved about
programs depends on none of them: a suggestion is only ever part of a message.
-/

/-! ### Distances -/

/-- One row of the edit distance table.  `row` holds the distances from a text to every initial
    part of the target; the result holds those from that text with `c` at its end.  `above` is
    the entry to the upper left and `left` the one just computed. -/
def editRow (c : Char) : (target : List Char) → (row : List Nat) → (above left : Nat) → List Nat
  | d :: target, up :: row, above, left =>
    let entry := min (min (up + 1) (left + 1)) (if c = d then above else above + 1)
    entry :: editRow c target row up entry
  | _, _, _, _ => []

/-- The table row after the one given, the first column included. -/
def nextEditRow (target : List Char) (row : List Nat) (c : Char) : List Nat :=
  match row with
  | [] => []
  | first :: rest => (first + 1) :: editRow c target rest first (first + 1)

/-- The least number of insertions, deletions and replacements of single characters that turn
    `source` into `target`. -/
def editDistance (source target : List Char) : Nat :=
  let start := List.range (target.length + 1)
  (source.foldl (nextEditRow target) start).getLast?.getD 0

/-- The number of characters of the second text that are left over when the characters of the
    first are found in it in order, each as early as possible; `none` if they are not all there. -/
def skipped? : List Char → List Char → Option Nat
  | [], target => some target.length
  | _ :: _, [] => none
  | c :: source, d :: target =>
    if c = d then skipped? source target else (skipped? (c :: source) target).map (· + 1)

/-! ### Suggestions -/

/-- The distance from `name` to a `candidate` that it abbreviates.  A candidate with a key shorter
    in bytes is not considered. -/
def abbreviates? (name candidate : List Char) : Option Nat :=
  let source := folded name
  let target := folded candidate
  if byteLength source ≤ byteLength target ∧ source.isSublist target then
    some (editDistance name candidate)
  else none

/-- The characters that `name` has beyond a `candidate` that abbreviates it.  A name shorter
    in bytes is not considered. -/
def surplus? (candidate name : List Char) : Option Nat :=
  if byteLength name < byteLength candidate then none
  else if byteLength name = byteLength candidate ∧ folded candidate = folded name then some 0
  else skipped? (folded candidate) (folded name)

/-- The candidates for which `distance?` is defined, each with its distance. -/
def ranked (distance? : List Char → Option Nat) (candidates : List String) : List (String × Nat) :=
  candidates.filterMap fun candidate =>
    (distance? candidate.toList).map fun distance => (candidate, distance)

/-- The first of the candidates with the least distance. -/
def nearest? : List (String × Nat) → Option String
  | [] => none
  | first :: rest =>
    some (rest.foldl (fun best next => if next.2 < best.2 then next else best) first).1

/-- The candidate to offer in place of an unknown `name`. -/
def suggest (name : String) (candidates : List String) : Option String :=
  match ranked (abbreviates? name.toList) candidates with
  | [] => nearest? (ranked (surplus? · name.toList) candidates)
  | hits => nearest? hits

end DotLambda
