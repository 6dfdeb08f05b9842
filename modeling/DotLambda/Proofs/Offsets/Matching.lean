import DotLambda.Fault
import DotLambda.Proofs.Offsets.Slices

namespace DotLambda

/-!
# Offsets — matching parentheses

Which parenthesis closes the first block of a text, said by counting bytes.  A parenthesis is one
byte, and no other character holds that byte, so it does not matter that an initial part of the
bytes may end inside a character.

* `Matched` — bytes whose parentheses match;
* `Encloses` — a parenthesis closes the first one;
* `encloses_iff` — nothing but matching parentheses stands between the two;
* `blockOffset_finds_match` — the search for the end of a block finds it, or says why there is none.
-/

/-- An opening parenthesis is one byte. -/
theorem isAscii_open : '('.toNat < 128 := by decide

/-- A closing parenthesis is one byte. -/
theorem isAscii_close : ')'.toNat < 128 := by decide

/-- Parentheses match in a sequence of bytes: no initial part closes more of them than it opens, and
    the whole closes as many as it opens. -/
structure Matched (bytes : List UInt8) : Prop where
  parts : ∀ s, s <+: bytes → s.count ')'.toUInt8 ≤ s.count '('.toUInt8
  whole : bytes.count '('.toUInt8 = bytes.count ')'.toUInt8

/-- A text is balanced if its bytes are. -/
theorem balanced_iff_matched {text : List Char} : Balanced text ↔ Matched (utf8 text) := by
  rw [balanced_iff_count, ← count_utf8 isAscii_open, ← count_utf8 isAscii_close]
  constructor
  · rintro ⟨hparts, hwhole⟩
    refine ⟨fun s hs => ?_, hwhole⟩
    -- `s` may end inside a character; the whole characters in it count the same.
    rw [List.prefix_iff_eq_take.mp hs, count_take_utf8 isAscii_open, count_take_utf8 isAscii_close]
    exact hparts _ (takeBytes_isPrefix ..)
  · rintro ⟨hparts, hwhole⟩
    refine ⟨?_, hwhole⟩
    rintro s ⟨t, rfl⟩
    rw [← count_utf8 isAscii_open, ← count_utf8 isAscii_close]
    refine hparts _ ?_
    rw [utf8_append]
    exact List.prefix_append ..

/-! ### The first block of a sequence of bytes -/

/-- The first parenthesis of a sequence of bytes opens at `p`, and the one at `i` closes it: there
    as many are closed as opened, and up to there fewer. -/
structure Encloses (bytes : List UInt8) (p i : Nat) : Prop where
  opening : bytes[p]? = some '('.toUInt8
  clear : ∀ j < p, bytes[j]? ≠ some '('.toUInt8 ∧ bytes[j]? ≠ some ')'.toUInt8
  closing : bytes[i]? = some ')'.toUInt8
  level : (bytes.take (i + 1)).count '('.toUInt8 = (bytes.take (i + 1)).count ')'.toUInt8
  inside : ∀ n, p < n → n ≤ i →
    (bytes.take n).count ')'.toUInt8 < (bytes.take n).count '('.toUInt8

/-- A closing parenthesis comes before any opening one. -/
def ClosesEarly (bytes : List UInt8) : Prop :=
  ∃ j : Nat, bytes[j]? = some ')'.toUInt8 ∧ ∀ k < j, bytes[k]? ≠ some '('.toUInt8

/-- A byte at an offset splits the bytes there. -/
theorem exists_append_of_getElem? {bytes : List UInt8} {n : Nat} {b : UInt8}
    (h : bytes[n]? = some b) : ∃ s t, bytes = s ++ b :: t ∧ s.length = n := by
  obtain ⟨hn, rfl⟩ := List.getElem?_eq_some_iff.mp h
  exact ⟨bytes.take n, bytes.drop (n + 1), by simp, by simp [Nat.le_of_lt hn]⟩

/-- Offsets behind a byte are offsets into what is behind it. -/
theorem getElem?_behind (head rest : List UInt8) (b : UInt8) (n : Nat) :
    (head ++ b :: rest)[head.length + 1 + n]? = rest[n]? := by
  rw [Nat.add_assoc, List.getElem?_append_right (Nat.le_add_right ..), Nat.add_sub_cancel_left,
    Nat.add_comm, List.getElem?_cons_succ]

/-- No offset into the first part holds a byte that is not in it. -/
theorem forall_getElem?_ne_iff {head : List UInt8} (rest : List UInt8) {b : UInt8} :
    (∀ j < head.length, (head ++ rest)[j]? ≠ some b) ↔ b ∉ head := by
  rw [List.mem_iff_getElem?, not_exists]
  constructor
  · intro h j hat
    obtain ⟨hj, -⟩ := List.getElem?_eq_some_iff.mp hat
    exact h j hj (by rw [List.getElem?_append_left hj, hat])
  · intro h j hj
    rw [List.getElem?_append_left hj]
    exact h j

/-- Said by splitting the bytes at the closing parenthesis. -/
theorem closesEarly_iff {bytes : List UInt8} :
    ClosesEarly bytes ↔ ∃ head tail, bytes = head ++ ')'.toUInt8 :: tail ∧ '('.toUInt8 ∉ head := by
  constructor
  · rintro ⟨j, hj, hbefore⟩
    obtain ⟨head, tail, rfl, rfl⟩ := exists_append_of_getElem? hj
    exact ⟨head, tail, rfl, (forall_getElem?_ne_iff _).mp hbefore⟩
  · rintro ⟨head, tail, rfl, hhead⟩
    exact ⟨head.length, by simp, (forall_getElem?_ne_iff _).mpr hhead⟩

section

variable {head : List UInt8} (hopen : '('.toUInt8 ∉ head) (hclose : ')'.toUInt8 ∉ head)
include hopen hclose

/-- From the first parenthesis on, it is open besides what is opened behind it. -/
theorem count_take_opened (rest : List UInt8) (n : Nat) :
    ((head ++ '('.toUInt8 :: rest).take (head.length + 1 + n)).count '('.toUInt8
        = (rest.take n).count '('.toUInt8 + 1 ∧
      ((head ++ '('.toUInt8 :: rest).take (head.length + 1 + n)).count ')'.toUInt8
        = (rest.take n).count ')'.toUInt8 := by
  have htake : (head ++ '('.toUInt8 :: rest).take (head.length + 1 + n)
      = head ++ '('.toUInt8 :: rest.take n := by
    rw [Nat.add_assoc, List.take_length_add_append, Nat.add_comm, List.take_succ_cons]
  rw [htake, List.count_append, List.count_append, List.count_eq_zero.mpr hopen,
    List.count_eq_zero.mpr hclose, List.count_cons_self, List.count_cons_of_ne (by decide),
    Nat.zero_add, Nat.zero_add]
  exact ⟨rfl, rfl⟩

variable {bytes inner tail : List UInt8}
  (hbytes : bytes = head ++ '('.toUInt8 :: (inner ++ ')'.toUInt8 :: tail))
include hbytes

/-- A block stays open as long as what stands in it closes nothing but what it opened. -/
theorem count_inside_iff {n : Nat} (hn : n ≤ inner.length) :
    (bytes.take (head.length + 1 + n)).count ')'.toUInt8
        < (bytes.take (head.length + 1 + n)).count '('.toUInt8 ↔
      (inner.take n).count ')'.toUInt8 ≤ (inner.take n).count '('.toUInt8 := by
  obtain ⟨hopened, hclosed⟩ := count_take_opened hopen hclose (inner ++ ')'.toUInt8 :: tail) n
  rw [hbytes, hopened, hclosed, List.take_append_of_le_length hn, Nat.lt_succ_iff]

/-- A block is closed behind it if what stands in it closes as many as it opens. -/
theorem count_closed_iff :
    (bytes.take (head.length + 1 + inner.length + 1)).count '('.toUInt8
        = (bytes.take (head.length + 1 + inner.length + 1)).count ')'.toUInt8 ↔
      inner.count '('.toUInt8 = inner.count ')'.toUInt8 := by
  obtain ⟨hopened, hclosed⟩ :=
    count_take_opened hopen hclose (inner ++ ')'.toUInt8 :: tail) (inner.length + 1)
  rw [hbytes, Nat.add_assoc _ _ 1, hopened, hclosed, List.take_length_add_append,
    List.count_append, List.count_append, List.take_succ_cons, List.take_zero,
    List.count_singleton_self, List.count_cons_of_ne (by decide), List.count_nil, Nat.add_zero,
    Nat.add_right_cancel_iff]

end

/-- **Blocks in bytes.** A parenthesis closes the first one if no parentheses but matching ones
    stand between the two. -/
theorem encloses_iff {bytes : List UInt8} {p i : Nat} :
    Encloses bytes p i ↔ ∃ head inner tail,
      bytes = head ++ '('.toUInt8 :: (inner ++ ')'.toUInt8 :: tail) ∧
        '('.toUInt8 ∉ head ∧ ')'.toUInt8 ∉ head ∧ Matched inner ∧
        head.length = p ∧ head.length + 1 + inner.length = i := by
  constructor
  · intro h
    obtain ⟨head, rest, hbytes, rfl⟩ := exists_append_of_getElem? h.opening
    have hclear := hbytes ▸ h.clear
    have hopen := (forall_getElem?_ne_iff _).mp fun j hj => (hclear j hj).1
    have hclose := (forall_getElem?_ne_iff _).mp fun j hj => (hclear j hj).2
    -- No closing parenthesis stands before the first one, and that one opens.
    have hlt : head.length < i := by
      rcases Nat.lt_trichotomy i head.length with hbefore | rfl | hbehind
      · exact absurd h.closing (h.clear i hbefore).2
      · have hsame := h.opening.symm.trans h.closing
        exact absurd (Option.some.inj hsame) (by decide)
      · exact hbehind
    obtain ⟨m, rfl⟩ := Nat.exists_eq_add_of_le hlt
    have hend := h.closing
    rw [hbytes, getElem?_behind] at hend
    obtain ⟨inner, tail, rfl, rfl⟩ := exists_append_of_getElem? hend
    refine ⟨head, inner, tail, hbytes, hopen, hclose, ⟨fun s hs => ?_, ?_⟩, rfl, rfl⟩
    · have hle := hs.length_le
      rw [List.prefix_iff_eq_take.mp hs]
      exact (count_inside_iff hopen hclose hbytes hle).mp
        (h.inside (head.length + 1 + s.length) (by omega) (by omega))
    · exact (count_closed_iff hopen hclose hbytes).mp h.level
  · rintro ⟨head, inner, tail, hbytes, hopen, hclose, hinner, rfl, rfl⟩
    refine ⟨by simp [hbytes], fun j hj => ⟨?_, ?_⟩, ?_, ?_, fun n hn hle => ?_⟩
    · rw [hbytes]
      exact (forall_getElem?_ne_iff _).mpr hopen j hj
    · rw [hbytes]
      exact (forall_getElem?_ne_iff _).mpr hclose j hj
    · rw [hbytes, getElem?_behind]
      simp
    · exact (count_closed_iff hopen hclose hbytes).mpr hinner.whole
    · -- Positions in the block are counted from behind its opening parenthesis.
      obtain ⟨k, rfl⟩ := Nat.exists_eq_add_of_le hn
      exact (count_inside_iff hopen hclose hbytes (by omega)).mpr
        (hinner.parts _ (List.take_prefix ..))

/-- What stands between two parentheses of which one closes the other is balanced. -/
theorem Encloses.matched {bytes : List UInt8} {p i : Nat} (h : Encloses bytes p i) :
    p < i ∧ Matched ((bytes.take i).drop (p + 1)) := by
  obtain ⟨head, inner, tail, rfl, -, -, hinner, rfl, rfl⟩ := encloses_iff.mp h
  refine ⟨by omega, ?_⟩
  have hbetween : ((head ++ '('.toUInt8 :: (inner ++ ')'.toUInt8 :: tail)).take
      (head.length + 1 + inner.length)).drop (head.length + 1) = inner := by
    rw [List.drop_take, Nat.add_sub_cancel_left, ← List.drop_drop, List.drop_left]
    simp
  rwa [hbetween]

/-! ### The search -/

/-- The end of a block that is found closes it. -/
theorem encloses_of_blockOffset {text : List Char} {i : Nat} (h : blockOffset text = .ok i) :
    ∃ p, Encloses (utf8 text) p i := by
  cases hcut : Block.cut text with
  | error fault =>
    rw [blockOffset_of_uncut hcut] at h
    cases h
  | ok b =>
    rw [blockOffset_of_cut hcut, Except.ok.injEq] at h
    have hbytes : utf8 text
        = utf8 b.head ++ '('.toUInt8 :: (utf8 b.inner ++ ')'.toUInt8 :: utf8 b.tail) := by
      conv_lhs => rw [Block.text_eq_of_cut hcut]
      simp [utf8EncodeChar_ascii isAscii_open, utf8EncodeChar_ascii isAscii_close]
    have hhead := Block.not_paren_of_cut hcut
    refine ⟨byteLength b.head, encloses_iff.mpr ⟨_, _, _, hbytes, ?_, ?_,
      balanced_iff_matched.mp (Block.balanced_of_cut hcut), length_utf8 _, ?_⟩⟩
    · rw [mem_utf8_iff isAscii_open]
      exact fun hmem => (hhead _ hmem).1 rfl
    · rw [mem_utf8_iff isAscii_close]
      exact fun hmem => (hhead _ hmem).2 rfl
    · rw [← h, length_utf8, length_utf8, byteLength_append, byteLength_cons, Nat.add_assoc]
      rfl

/-- A parenthesis that closes the first block is found. -/
theorem blockOffset_of_encloses {text : List Char} {p i : Nat} (h : Encloses (utf8 text) p i) :
    blockOffset text = .ok i := by
  obtain ⟨_, _, _, hbytes, hopen, hclose, hinner, -, rfl⟩ := encloses_iff.mp h
  -- The bytes fall into three parts; both cuts are at parentheses, so the parts are texts.
  obtain ⟨head, rest, rfl, rfl, hrest⟩ := cut_of_utf8 isAscii_open hbytes
  obtain ⟨inner, tail, rfl, rfl, -⟩ := cut_of_utf8 isAscii_close hrest
  rw [mem_utf8_iff isAscii_open] at hopen
  rw [mem_utf8_iff isAscii_close] at hclose
  have hhead : ∀ c ∈ head, c ≠ '(' ∧ c ≠ ')' := fun c hc =>
    ⟨fun heq => hopen (heq ▸ hc), fun heq => hclose (heq ▸ hc)⟩
  rw [blockOffset_of_cut (Block.cut_of_balanced hhead (balanced_iff_matched.mpr hinner) tail),
    length_utf8, length_utf8, byteLength_append, byteLength_cons, Nat.add_assoc]
  rfl

/-- A text is refused as unbalanced exactly if it closes before it opens. -/
theorem blockOffset_eq_unbalanced_iff {text : List Char} :
    blockOffset text = .error .unbalanced ↔ ClosesEarly (utf8 text) := by
  have hsearch : blockOffset text = .error .unbalanced ↔
      closeFrom 0 0 text = .error .unbalanced := by
    rw [blockOffset, blockEnd]
    cases closeFrom 0 0 text <;> simp [Except.map]
  rw [hsearch, closeFrom_eq_unbalanced_iff, closesEarly_iff]
  constructor
  · rintro ⟨before, after, rfl, hbefore⟩
    refine ⟨utf8 before, utf8 after, ?_, (mem_utf8_iff isAscii_open).not.mpr hbefore⟩
    rw [utf8_append, utf8_cons, utf8EncodeChar_ascii isAscii_close, List.singleton_append]
  · rintro ⟨_, _, hbytes, hhead⟩
    obtain ⟨before, after, rfl, rfl, -⟩ := cut_of_utf8 isAscii_close hbytes
    exact ⟨before, after, rfl, (mem_utf8_iff isAscii_open).not.mp hhead⟩

/-- It is refused as unclosed exactly if it does not, and yet no block is closed. -/
theorem blockOffset_eq_unclosed_iff {text : List Char} :
    blockOffset text = .error .unclosed ↔
      ¬ ClosesEarly (utf8 text) ∧ ∀ p i, ¬ Encloses (utf8 text) p i := by
  constructor
  · intro h
    refine ⟨fun hearly => ?_, fun p i hblock => ?_⟩
    · rw [blockOffset_eq_unbalanced_iff.mpr hearly] at h
      cases h
    · rw [blockOffset_of_encloses hblock] at h
      cases h
  · rintro ⟨hearly, hblock⟩
    cases hsearch : blockOffset text with
    | ok i =>
      obtain ⟨p, hp⟩ := encloses_of_blockOffset hsearch
      exact absurd hp (hblock p i)
    | error fault =>
      cases fault with
      | unbalanced => exact absurd (blockOffset_eq_unbalanced_iff.mp hsearch) hearly
      | unclosed => rfl

/-- The search for the end of a block fails with a message. -/
def BlockFails (text : List Char) (message : String) : Prop :=
  ∃ fault, blockOffset text = .error fault ∧ (Fault.block fault).message = message

/-- The message tells the faults apart. -/
theorem blockFails_iff {text : List Char} (fault : BlockFault) :
    BlockFails text (Fault.block fault).message ↔ blockOffset text = .error fault := by
  constructor
  · rintro ⟨other, hother, hmessage⟩
    have hsame : other = fault := by
      cases other with
      | unbalanced =>
        cases fault with
        | unbalanced => rfl
        | unclosed => exact absurd hmessage (by decide)
      | unclosed =>
        cases fault with
        | unbalanced => exact absurd hmessage (by decide)
        | unclosed => rfl
    rw [hother, hsame]
  · intro h
    exact ⟨fault, h, rfl⟩

/-- **Matching parentheses.** The search gives the offset of the byte that closes the first block of
    a text, if there is one.  Otherwise it says that a parenthesis is closed before any is opened,
    or else that one is missing.  What stands in a block that is found is balanced. -/
theorem blockOffset_finds_match (text : List Char) :
    (∀ i, blockOffset text = .ok i ↔ ∃ p, Encloses (utf8 text) p i) ∧
      (BlockFails text "unbalanced ')'" ↔ ClosesEarly (utf8 text)) ∧
      (BlockFails text "missing ')'" ↔
        ¬ ClosesEarly (utf8 text) ∧ ∀ p i, ¬ Encloses (utf8 text) p i) ∧
      ∀ i, blockOffset text = .ok i →
        ∃ p, Encloses (utf8 text) p i ∧ p < i ∧ Matched (((utf8 text).take i).drop (p + 1)) := by
  refine ⟨fun i => ⟨encloses_of_blockOffset, ?_⟩, ?_, ?_, fun i h => ?_⟩
  · rintro ⟨p, hp⟩
    exact blockOffset_of_encloses hp
  · exact (blockFails_iff .unbalanced).trans blockOffset_eq_unbalanced_iff
  · exact (blockFails_iff .unclosed).trans blockOffset_eq_unclosed_iff
  · obtain ⟨p, hp⟩ := encloses_of_blockOffset h
    exact ⟨p, hp, hp.matched⟩

/-- The block of `λ(b(é).d).e` ends at its second closing parenthesis, ten bytes into the text. -/
theorem blockOffset_finds_match_nested :
    blockOffset ['λ', '(', 'b', '(', 'é', ')', '.', 'd', ')', '.', 'e'] = .ok 10 ∧
      ∃ p, Encloses (utf8 ['λ', '(', 'b', '(', 'é', ')', '.', 'd', ')', '.', 'e']) p 10 ∧ p < 10 ∧
        Matched (((utf8 ['λ', '(', 'b', '(', 'é', ')', '.', 'd', ')', '.', 'e']).take 10).drop
          (p + 1)) :=
  ⟨by decide, (blockOffset_finds_match _).2.2.2 10 (by decide)⟩

end DotLambda
