namespace DotLambda

/-!
# Text — white space

Programs are read as lists of characters: texts and names are valid Unicode, and a text that is not
does not come this far.  This module fixes which characters are white space and gives the ways in
which the rest of the library takes it out:

* `isBlank` — the white space property of Unicode;
* `removeBlanks` — all of it, for program text, where it carries no meaning;
* `trim` — at both ends, for entries and answers;
* `words` — the runs between it, for definitions.
-/

/-! ### The property -/

/-- White space: the controls from tab to carriage return, the next-line control, and
    the space characters and line separators of every script.  Zero-width characters
    and the information separators are not white space. -/
def isBlank (c : Char) : Bool :=
  let n := c.toNat
  (0x09 ≤ n && n ≤ 0x0D) || n == 0x20 || n == 0x85 || n == 0xA0 || n == 0x1680 ||
    (0x2000 ≤ n && n ≤ 0x200A) || n == 0x2028 || n == 0x2029 || n == 0x202F ||
    n == 0x205F || n == 0x3000

/-- White space of the ASCII range: the characters that may follow a keyword. -/
def isAsciiBlank (c : Char) : Bool :=
  let n := c.toNat
  (0x09 ≤ n && n ≤ 0x0D) || n == 0x20

/-- ASCII white space is white space. -/
theorem isBlank_of_isAsciiBlank {c : Char} (h : isAsciiBlank c = true) : isBlank c = true := by
  simp only [isAsciiBlank, Bool.or_eq_true] at h
  rcases h with h | h <;> simp [isBlank, h]

/-! ### Taking it out -/

/-- The text without its white space. -/
def removeBlanks (text : List Char) : List Char :=
  text.filter fun c => !isBlank c

@[simp] theorem removeBlanks_nil : removeBlanks [] = [] := rfl

@[simp] theorem removeBlanks_append (s t : List Char) :
    removeBlanks (s ++ t) = removeBlanks s ++ removeBlanks t := by
  simp [removeBlanks]

/-- Removing white space twice removes nothing more. -/
@[simp] theorem removeBlanks_removeBlanks (text : List Char) :
    removeBlanks (removeBlanks text) = removeBlanks text := by
  simp [removeBlanks]

/-- A text that holds no white space stays as it is. -/
theorem removeBlanks_eq_self {text : List Char} (h : ∀ c ∈ text, isBlank c = false) :
    removeBlanks text = text :=
  List.filter_eq_self.mpr fun c hc => by rw [h c hc]; rfl

/-- The text from its first character that is not white space on. -/
def trimStart (text : List Char) : List Char :=
  text.dropWhile isBlank

/-- The text without the white space at its ends. -/
def trim (text : List Char) : List Char :=
  (trimStart (trimStart text).reverse).reverse

/-- Trimming does not make a text longer. -/
theorem length_trimStart_le (text : List Char) : (trimStart text).length ≤ text.length :=
  (List.dropWhile_sublist _).length_le

/-- `trim` on strings. -/
def trimmed (text : String) : String :=
  String.ofList (trim text.toList)

/-! ### Words -/

/-- The maximal runs of characters that are not white space, in order. -/
def words (text : List Char) : List (List Char) :=
  match _h : trimStart text with
  | [] => []
  | c :: rest =>
    (c :: rest.takeWhile fun d => !isBlank d) :: words (rest.dropWhile fun d => !isBlank d)
termination_by text.length
decreasing_by
  have h₁ := length_trimStart_le text
  have h₂ := (List.dropWhile_sublist (l := rest) fun d => !isBlank d).length_le
  simp only [_h, List.length_cons] at h₁
  omega

end DotLambda
