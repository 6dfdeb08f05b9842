import DotLambda.Text.Utf8

namespace DotLambda

/-!
# Blocks

The first parenthesised block of a text, from the first opening parenthesis to the closing
one that matches it.

* `blockEnd`, `blockOffset` — where the block ends, in characters and in bytes;
* `Block.cut` — the text cut into what stands before, in and after the block.

A cut loses nothing but the two parentheses (`Block.text_eq_of_cut`), so the texts that it
leaves are shorter than the text cut, which is why reading them ends.
-/

/-- Why a text has no block. -/
inductive BlockFault where
  /-- A closing parenthesis comes before any opening one. -/
  | unbalanced
  /-- The block is not closed, or never opened. -/
  | unclosed
deriving DecidableEq

/-- Looks for the end of the block in the rest of a text, `pos` characters of which have been
    passed and `depth` parentheses of which are open. -/
def closeFrom (depth pos : Nat) : List Char → Except BlockFault Nat
  | [] => .error .unclosed
  | c :: rest =>
    if c = '(' then closeFrom (depth + 1) (pos + 1) rest
    else if c = ')' then
      match depth with
      | 0 => .error .unbalanced
      | 1 => .ok pos
      | depth + 2 => closeFrom (depth + 1) (pos + 1) rest
    else closeFrom depth (pos + 1) rest

/-- The number of characters before the parenthesis that closes the first block. -/
def blockEnd (text : List Char) : Except BlockFault Nat :=
  closeFrom 0 0 text

/-- The number of bytes before the parenthesis that closes the first block. -/
def blockOffset (text : List Char) : Except BlockFault Nat :=
  (blockEnd text).map fun n => byteLength (text.take n)

/-- The end of a block lies within the text. -/
theorem closeFrom_lt {text : List Char} {depth pos n : Nat}
    (h : closeFrom depth pos text = .ok n) : n < pos + text.length := by
  induction text generalizing depth pos with
  | nil => simp [closeFrom] at h
  | cons c rest ih =>
    simp only [closeFrom] at h
    simp only [List.length_cons]
    split at h
    · have := ih h
      omega
    · split at h
      · split at h
        · cases h
        · cases h
          omega
        · have := ih h
          omega
      · have := ih h
        omega

/-- The end of a block is a place in the text. -/
theorem blockEnd_lt {text : List Char} {n : Nat} (h : blockEnd text = .ok n) :
    n < text.length := by
  have := closeFrom_lt h
  omega

/-- A character opens a block, closes one or does neither. -/
@[elab_as_elim]
theorem paren_cases {motive : Char → Prop} (opening : motive '(') (closing : motive ')')
    (other : ∀ c, c ≠ '(' → c ≠ ')' → motive c) (c : Char) : motive c := by
  by_cases hopen : c = '('
  · rwa [hopen]
  · by_cases hclose : c = ')'
    · rwa [hclose]
    · exact other c hopen hclose

/-- An opening parenthesis takes the search one block deeper. -/
theorem closeFrom_open (depth pos : Nat) (rest : List Char) :
    closeFrom depth pos ('(' :: rest) = closeFrom (depth + 1) (pos + 1) rest := by
  simp only [closeFrom, if_true]

/-- In the outermost block, a closing parenthesis ends the search. -/
theorem closeFrom_close (pos : Nat) (rest : List Char) :
    closeFrom 1 pos (')' :: rest) = .ok pos := by
  simp [closeFrom]

/-- In an inner block, it takes the search one block up. -/
theorem closeFrom_close_inner (depth pos : Nat) (rest : List Char) :
    closeFrom (depth + 2) pos (')' :: rest) = closeFrom (depth + 1) (pos + 1) rest := by
  simp [closeFrom]

/-- Every other character is passed by. -/
theorem closeFrom_other {c : Char} (hopen : c ≠ '(') (hclose : c ≠ ')') (depth pos : Nat)
    (rest : List Char) : closeFrom depth pos (c :: rest) = closeFrom depth (pos + 1) rest := by
  simp only [closeFrom, hopen, hclose, if_false]

/-- What stands up to the end of a block, and what after it.  Where no parenthesis was open, the
    first part opens one.  What comes after the end plays no part in finding it. -/
theorem closeFrom_split {text : List Char} {depth pos n : Nat}
    (h : closeFrom depth pos text = .ok n) :
    ∃ before after, text = before ++ ')' :: after ∧ n = pos + before.length ∧
      (depth = 0 → '(' ∈ before) ∧ ∀ rest, closeFrom depth pos (before ++ ')' :: rest) = .ok n := by
  induction text generalizing depth pos with
  | nil => simp [closeFrom] at h
  | cons c text ih =>
    -- A character that does not end the block is put in front of what the rest gives.
    have step {d : Nat}
        (hstep : ∀ rest, closeFrom depth pos (c :: rest) = closeFrom d (pos + 1) rest)
        (hd : depth = 0 → d = 0 ∨ c = '(') :
        ∃ before after, c :: text = before ++ ')' :: after ∧ n = pos + before.length ∧
          (depth = 0 → '(' ∈ before) ∧
          ∀ rest, closeFrom depth pos (before ++ ')' :: rest) = .ok n := by
      rw [hstep] at h
      obtain ⟨before, after, rfl, hn, hopen, hstop⟩ := ih h
      have hpos : n = pos + (c :: before).length := by
        rw [List.length_cons]
        omega
      refine ⟨c :: before, after, rfl, hpos, fun h0 => ?_, fun rest => ?_⟩
      · rcases hd h0 with hd | rfl
        · exact List.mem_cons_of_mem _ (hopen hd)
        · exact List.mem_cons_self
      · rw [List.cons_append, hstep]
        exact hstop rest
    cases c using paren_cases with
    | opening => exact step (closeFrom_open depth pos) fun _ => .inr rfl
    | closing =>
      match depth with
      | 0 => simp [closeFrom] at h
      | 1 =>
        rw [closeFrom_close, Except.ok.injEq] at h
        refine ⟨[], text, rfl, h.symm, fun h0 => absurd h0 (by decide), fun rest => ?_⟩
        rw [← h]
        exact closeFrom_close pos rest
      | depth + 2 =>
        exact step (closeFrom_close_inner depth pos) fun h0 => absurd h0 (by omega)
    | other c hopen hclose => exact step (closeFrom_other hopen hclose depth pos) .inl

/-- A text cut at its first block. -/
structure Block where
  /-- What stands before the opening parenthesis. -/
  head : List Char
  /-- What stands between the parentheses. -/
  inner : List Char
  /-- What stands after the closing parenthesis. -/
  tail : List Char

namespace Block

/-- Cuts a text at its first block. -/
def cut (text : List Char) : Except BlockFault Block :=
  match blockEnd text with
  | .error fault => .error fault
  | .ok n =>
    let head := text.takeWhile fun c => c != '('
    .ok ⟨head, (text.take n).drop (head.length + 1), text.drop (n + 1)⟩

/-- A cut loses nothing but the two parentheses of the block. -/
theorem text_eq_of_cut {text : List Char} {b : Block} (h : cut text = .ok b) :
    text = b.head ++ '(' :: (b.inner ++ ')' :: b.tail) := by
  unfold cut at h
  split at h
  · cases h
  · rename_i n hn
    obtain ⟨before, after, rfl, rfl, hopen, -⟩ := closeFrom_split hn
    have htake : (before ++ ')' :: after).take (0 + before.length) = before := by simp
    have hdrop : (before ++ ')' :: after).drop (0 + before.length + 1) = after := by
      rw [← List.drop_drop]
      simp
    obtain ⟨head, inner, hbefore, hhead⟩ := List.eq_append_cons_of_mem (hopen rfl)
    have hstop : (before ++ ')' :: after).takeWhile (fun c => c != '(') = head := by
      rw [hbefore, List.append_assoc, List.takeWhile_append_of_pos]
      · simp
      · intro c hc
        simpa using fun h : c = '(' => hhead (h ▸ hc)
    simp only [htake, hdrop, hstop, Except.ok.injEq] at h
    subst h
    simp [hbefore]

/-- What is inside a block is shorter than the text. -/
theorem length_inner_lt {text : List Char} {b : Block} (h : cut text = .ok b) :
    b.inner.length < text.length := by
  have := congrArg List.length (text_eq_of_cut h)
  simp only [List.length_append, List.length_cons] at this
  omega

/-- What is behind a block is shorter than the text. -/
theorem length_tail_lt {text : List Char} {b : Block} (h : cut text = .ok b) :
    b.tail.length < text.length := by
  have := congrArg List.length (text_eq_of_cut h)
  simp only [List.length_append, List.length_cons] at this
  omega

end Block

end DotLambda
