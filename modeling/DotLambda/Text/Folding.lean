import DotLambda.Text.LowerCase
import DotLambda.Text.Utf8

namespace DotLambda

/-!
# Text — names folded for comparison

Names are compared under a key that does not tell upper from lower case.  The key of a short
name is the name in lower case.  Long names are folded in blocks, through a buffer of limited
size, and the key shows it:

* a text is read in blocks of `blockSize` bytes, and blocks at its start that are in lower case
  already pass as they are;
* a character that a block cuts is lost, and each of its bytes shows as `replacement`;
* a character that finds no room in the buffer is left out, and reading goes on behind it with
  a new block.  The buffer grows only where a block begins without room.

How keys are folded is the way of a library of its own, down to what its buffer does to long names.
What is proved about programs does not depend on it.

The declarations are

* `Unread` — what is still to be read of a text;
* `foldBlock` — folds one block;
* `foldRest`, `folded` — fold the rest of a text, and a text from its start;
* `folded_eq_lower` — the key of a short text.
-/

/-- The bytes that are read at a time, and the room that there is at first. -/
def blockSize : Nat := 128

/-- What stands in for a byte of a character that was cut. -/
def replacement : Char := '\ufffd'

/-! ### Reading -/

/-- What is still to be read of a text. -/
structure Unread where
  /-- The bytes that remain of a character that was cut. -/
  strays : Nat := 0
  /-- The characters behind them. -/
  chars : List Char
deriving DecidableEq

namespace Unread

/-- The number of bytes. -/
def size (u : Unread) : Nat :=
  u.strays + byteLength u.chars

/-- What is read next while `window` bytes of the block are left: the character to write, the
    bytes that were read for it, and what remains. -/
def next? (window : Nat) : Unread → Option (Char × Nat × Unread)
  | ⟨strays + 1, chars⟩ => some (replacement, 1, ⟨strays, chars⟩)
  | ⟨0, c :: chars⟩ =>
    if c.utf8Size ≤ window then some (lowerChar c, c.utf8Size, ⟨0, chars⟩)
    else some (replacement, 1, ⟨c.utf8Size - 1, chars⟩)
  | ⟨0, []⟩ => none

/-- Taking a character leaves less to read. -/
theorem size_lt_of_next? {window : Nat} {u v : Unread} {c : Char} {width : Nat}
    (h : u.next? window = some (c, width, v)) : v.size < u.size := by
  unfold next? at h
  split at h
  · simp only [Option.some.injEq, Prod.mk.injEq] at h
    obtain ⟨_, _, rfl⟩ := h
    simp only [size]
    omega
  · rename_i d chars
    have := d.utf8Size_pos
    split at h <;> simp only [Option.some.injEq, Prod.mk.injEq] at h <;>
      obtain ⟨_, _, rfl⟩ := h <;> simp only [size, byteLength_cons] <;> omega
  · contradiction

/-- There is a next character unless all has been read. -/
theorem next?_eq_none_iff {window : Nat} {u : Unread} :
    u.next? window = none ↔ u = ⟨0, []⟩ := by
  unfold next?
  split <;> simp
  split <;> simp

end Unread

/-! ### Folding -/

/-- What folding a block has led to. -/
structure Folded where
  /-- What was written. -/
  text : List Char
  unread : Unread
  /-- Whether the block ended at a character that found no room. -/
  short : Bool

/-- Folds what is left of a block, `window` bytes, into a buffer that has `room` bytes left. -/
def foldBlock (window room : Nat) (u : Unread) : Folded :=
  if window = 0 then ⟨[], u, false⟩
  else
    match _h : u.next? window with
    | none => ⟨[], u, false⟩
    | some (c, width, v) =>
      if c.utf8Size ≤ room then
        let done := foldBlock (window - width) (room - c.utf8Size) v
        { done with text := c :: done.text }
      else ⟨[], v, true⟩
termination_by u.size
decreasing_by exact Unread.size_lt_of_next? _h

/-- Folding a block leaves no more to read. -/
theorem size_foldBlock_le (window room : Nat) (u : Unread) :
    (foldBlock window room u).unread.size ≤ u.size := by
  fun_induction foldBlock window room u with
  | case1 => exact Nat.le_refl _
  | case2 => exact Nat.le_refl _
  | case3 _ _ _ _ _ _ _ h _ _ ih =>
    exact Nat.le_trans ih (Nat.le_of_lt (Unread.size_lt_of_next? h))
  | case4 _ _ _ _ _ _ _ h => exact Nat.le_of_lt (Unread.size_lt_of_next? h)

/-- A block is never empty: folding one reads something as long as there is something. -/
theorem size_foldBlock_lt {window : Nat} (hw : window ≠ 0) (room : Nat) {u : Unread}
    (hu : u ≠ ⟨0, []⟩) : (foldBlock window room u).unread.size < u.size := by
  rw [foldBlock, if_neg hw]
  split
  · next h => exact absurd (Unread.next?_eq_none_iff.1 h) hu
  · next h =>
    have hlt := Unread.size_lt_of_next? h
    split
    · exact Nat.lt_of_le_of_lt (size_foldBlock_le _ _ _) hlt
    · exact hlt

/-- The size of a buffer that has grown. -/
def grown (capacity : Nat) : Nat :=
  if capacity ≤ 2 * blockSize then 2 * capacity else capacity + capacity / 2

/-- Folds the rest of a text, block by block, into a buffer of `capacity` bytes of which
    `written` are taken. -/
def foldRest (capacity written : Nat) (u : Unread) : List Char :=
  if _h : u = ⟨0, []⟩ then []
  else
    let done := foldBlock blockSize (capacity - written) u
    let capacity := if done.short && done.text.isEmpty then grown capacity else capacity
    done.text ++ foldRest capacity (written + byteLength done.text) done.unread
termination_by u.size
decreasing_by exact size_foldBlock_lt (by decide) _ _h

/-- Folds a text behind `passed` bytes that needed no change.  From the first block that does,
    the buffer holds what was passed and as much as there is to read. -/
def foldFrom (passed : Nat) (text : List Char) : List Char :=
  if _h : text = [] then []
  else
    let done := foldBlock blockSize blockSize ⟨0, text⟩
    if done.unread.strays = 0 ∧ text = done.text ++ done.unread.chars then
      done.text ++ foldFrom (passed + byteLength done.text) done.unread.chars
    else
      let written := passed + byteLength done.text
      let capacity := if passed = 0 then blockSize else written + done.unread.size
      done.text ++ foldRest capacity written done.unread
termination_by byteLength text
decreasing_by
  have hblock : blockSize ≠ 0 := by decide
  have hlt := size_foldBlock_lt hblock blockSize (u := ⟨0, text⟩) (by simpa using _h)
  simp only [Unread.size] at hlt
  omega

/-- The key of a name. -/
def folded (text : List Char) : List Char :=
  foldFrom 0 text

/-! ### Short texts -/

/-- A text that fits the block and the buffer is lower-cased. -/
theorem foldBlock_of_fits {window room : Nat} {text : List Char}
    (hw : byteLength text ≤ window) (hr : byteLength (lower text) ≤ room) :
    foldBlock window room ⟨0, text⟩ = ⟨lower text, ⟨0, []⟩, false⟩ := by
  induction text generalizing window room with
  | nil =>
    rw [foldBlock]
    split
    · rfl
    · simp [Unread.next?, lower]
  | cons c text ih =>
    simp only [lower, List.map_cons, byteLength_cons] at hw hr
    have hc := c.utf8Size_pos
    have hfits : c.utf8Size ≤ window := by omega
    rw [foldBlock, if_neg (by omega)]
    split
    · next h => simp [Unread.next?, hfits] at h
    · next h =>
      simp only [Unread.next?, if_pos hfits, Option.some.injEq, Prod.mk.injEq] at h
      obtain ⟨rfl, rfl, rfl⟩ := h
      rw [if_pos (by omega), ih (by omega) (by simp only [lower]; omega)]
      rfl

/-- The key of a text that takes one block, in lower case as well, is that text in lower
    case. -/
theorem folded_eq_lower {text : List Char} (ht : byteLength text ≤ blockSize)
    (hl : byteLength (lower text) ≤ blockSize) : folded text = lower text := by
  rw [folded, foldFrom]
  split
  · next h => subst h; rfl
  · simp only [foldBlock_of_fits ht hl]
    split
    · rw [foldFrom]; simp
    · rw [foldRest]; simp

end DotLambda
