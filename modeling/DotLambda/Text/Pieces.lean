namespace DotLambda

/-!
# Text — pieces

A text cut at every occurrence of a character.
-/

/-- The pieces of a text between the occurrences of `mark`: one more than there are marks, empty
    ones included. -/
def pieces (mark : Char) : List Char → List (List Char)
  | [] => [[]]
  | c :: rest =>
    if c = mark then [] :: pieces mark rest
    else
      match pieces mark rest with
      | [] => [[c]]
      | piece :: more => (c :: piece) :: more

/-- There is one more piece than there are marks. -/
theorem length_pieces (mark : Char) (text : List Char) :
    (pieces mark text).length = text.count mark + 1 := by
  induction text with
  | nil => rfl
  | cons c rest ih =>
    simp only [pieces, List.count_cons]
    by_cases h : c = mark
    · simp [h, ih]
    · simp only [h, ↓reduceIte, beq_iff_eq, Nat.add_zero]
      cases hp : pieces mark rest with
      | nil => simp [hp] at ih
      | cons piece more => simpa [hp] using ih

end DotLambda
