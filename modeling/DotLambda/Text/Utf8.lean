namespace DotLambda

/-!
# Text — sizes in bytes

Positions in a text are counted in characters inside the library and in bytes of UTF-8 outside
of it.
-/

/-- The bytes that the text takes in UTF-8. -/
def byteLength (text : List Char) : Nat :=
  text.foldr (fun c size => c.utf8Size + size) 0

@[simp] theorem byteLength_nil : byteLength [] = 0 := rfl

@[simp] theorem byteLength_cons (c : Char) (text : List Char) :
    byteLength (c :: text) = c.utf8Size + byteLength text := rfl

@[simp] theorem byteLength_append (s t : List Char) :
    byteLength (s ++ t) = byteLength s + byteLength t := by
  induction s with
  | nil => rw [List.nil_append, byteLength_nil, Nat.zero_add]
  | cons c s ih => rw [List.cons_append, byteLength_cons, byteLength_cons, ih, Nat.add_assoc]

/-- The longest initial part of a text that takes at most `size` bytes. -/
def takeBytes (size : Nat) : List Char → List Char
  | [] => []
  | c :: text =>
    if c.utf8Size ≤ size then c :: takeBytes (size - c.utf8Size) text else []

theorem takeBytes_isPrefix (size : Nat) (text : List Char) : takeBytes size text <+: text := by
  induction text generalizing size with
  | nil => exact List.nil_prefix
  | cons c text ih =>
    rw [takeBytes]
    split
    · exact List.cons_prefix_cons.2 ⟨rfl, ih _⟩
    · exact List.nil_prefix

end DotLambda
