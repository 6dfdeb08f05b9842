import DotLambda.Proofs.Reading.Blocks
import DotLambda.Text.Blank

namespace DotLambda

/-!
# Offsets — parts of a text

A text is bytes, its parts are found by offsets in bytes, and an offset may lie outside of the
text.  Here an access by offsets gives nothing unless all of them are in range and in order.

* `utf8`, `byteAt?` — the bytes of a text, and the one at an offset;
* `byteAt?_eq_iff`, `count_take_utf8` — ASCII characters are found and counted by their bytes;
* `Slice`, `slice?` — the part of a text between two offsets, which lie between characters;
* `offset?`, `lastOffset?` — where a character stands, first and last;
* `slice?_isSome_iff` — which accesses are refused;
* `slice?_eq`, `byteAt?_append`, `offset?_append`, `lastOffset?_append` — what they give for a text
  that is put together.
-/

/-! ### Bytes -/

/-- The bytes of a text in UTF-8. -/
def utf8 (text : List Char) : List UInt8 :=
  text.flatMap String.utf8EncodeChar

/-- The byte at an offset. -/
def byteAt? (text : List Char) (n : Nat) : Option UInt8 :=
  (utf8 text)[n]?

/-- The first byte of a character. -/
def leadByte (c : Char) : UInt8 :=
  (String.utf8EncodeChar c).head String.utf8EncodeChar_ne_nil

@[simp] theorem utf8_cons (c : Char) (text : List Char) :
    utf8 (c :: text) = String.utf8EncodeChar c ++ utf8 text := rfl

@[simp] theorem utf8_append (s t : List Char) : utf8 (s ++ t) = utf8 s ++ utf8 t :=
  List.flatMap_append

/-- A text has as many bytes as its length in bytes says. -/
theorem length_utf8 (text : List Char) : (utf8 text).length = byteLength text := by
  induction text with
  | nil => rfl
  | cons c text ih =>
    rw [utf8_cons, List.length_append, String.length_utf8EncodeChar, ih, byteLength_cons]

/-- Where a character begins, its first byte stands. -/
theorem byteAt?_append (s : List Char) (c : Char) (t : List Char) :
    byteAt? (s ++ c :: t) (byteLength s) = some (leadByte c) := by
  have hhead : String.utf8EncodeChar c = leadByte c :: (String.utf8EncodeChar c).tail :=
    (List.cons_head_tail _).symm
  rw [byteAt?, utf8_append, utf8_cons, ← length_utf8 s, List.getElem?_append_right (Nat.le_refl _),
    Nat.sub_self, hhead]
  rfl

/-- The first byte of a character tells whether it is an ASCII character, and which. -/
theorem leadByte_cases (c : Char) :
    c.toNat < 128 ∧ (leadByte c).toNat = c.toNat ∨ 128 ≤ c.toNat ∧ 192 ≤ (leadByte c).toNat := by
  have hvalue : c.val.toNat = c.toNat := rfl
  unfold leadByte
  simp only [String.utf8EncodeChar, hvalue]
  split
  · left
    simp
    omega
  · right
    split
    · simp
      omega
    · split
      · simp
        omega
      · simp
        omega

/-- The first byte of a character tells whether it is a given ASCII character. -/
theorem leadByte_eq_iff {c d : Char} (hd : d.toNat < 128) : leadByte c = d.toUInt8 ↔ c = d := by
  have hbyte : d.toUInt8.toNat = d.toNat := by
    show d.val.toNat % 256 = d.val.toNat
    have : d.val.toNat < 128 := hd
    omega
  rw [← UInt8.toNat_inj, hbyte]
  rcases leadByte_cases c with ⟨-, hc⟩ | ⟨hc, hlead⟩
  · rw [hc]
    exact Char.toNat_inj
  · constructor
    · intro h
      omega
    · rintro rfl
      omega

/-- The byte behind a keyword, taken for a character, is white space if it is ASCII white space, and
    only then: no character begins with the byte of another one. -/
theorem isBlank_leadByte (c : Char) :
    isBlank (Char.ofNat (leadByte c).toNat) = isAsciiBlank c := by
  rcases leadByte_cases c with ⟨hascii, hc⟩ | ⟨hother, hlead⟩
  · rw [hc, Char.ofNat_toNat]
    unfold isBlank isAsciiBlank
    grind
  · have hle : (leadByte c).toNat < 256 := (leadByte c).toNat_lt
    have hvalue : (Char.ofNat (leadByte c).toNat).toNat = (leadByte c).toNat := by
      have hvalid : (leadByte c).toNat.isValidChar := .inl (by omega)
      rw [Char.ofNat, dif_pos hvalid]
      rfl
    unfold isBlank isAsciiBlank
    rw [hvalue]
    grind

/-! ### ASCII characters -/

section

variable {d : Char} (hd : d.toNat < 128)
include hd

/-- An ASCII character is one byte long. -/
theorem utf8Size_ascii : d.utf8Size = 1 :=
  Char.utf8Size_eq_one_iff.mpr (UInt32.le_iff_toNat_le.mpr (Nat.le_of_lt_succ hd))

/-- It is encoded as this byte. -/
theorem utf8EncodeChar_ascii : String.utf8EncodeChar d = [d.toUInt8] :=
  String.utf8EncodeChar_eq_singleton (utf8Size_ascii hd)

/-- The byte of an ASCII character is part of no other character. -/
theorem mem_utf8EncodeChar_iff {c : Char} : d.toUInt8 ∈ String.utf8EncodeChar c ↔ c = d := by
  constructor
  · intro h
    obtain ⟨n, hn, hbyte⟩ := List.mem_iff_getElem.mp h
    -- A character is more than one byte only if all but the first continue it.
    have hfirst : n = 0 := by
      refine (@UInt8.isUTF8FirstByte_getElem_utf8EncodeChar c n hn).mp ?_
      have hlead := @UInt8.isUTF8FirstByte_getElem_zero_utf8EncodeChar d
      simp only [utf8EncodeChar_ascii hd, List.getElem_cons_zero] at hlead
      rwa [hbyte]
    subst hfirst
    rw [← leadByte_eq_iff hd, leadByte, List.head_eq_getElem, hbyte]
  · rintro rfl
    rw [utf8EncodeChar_ascii hd]
    exact List.mem_singleton_self _

/-- The byte of an ASCII character is in a text exactly where the character is. -/
theorem mem_utf8_iff {text : List Char} : d.toUInt8 ∈ utf8 text ↔ d ∈ text := by
  simp [utf8, mem_utf8EncodeChar_iff hd]

/-- An ASCII character stands where its byte does. -/
theorem byteAt?_eq_iff {text : List Char} {n : Nat} :
    byteAt? text n = some d.toUInt8 ↔ ∃ s t, text = s ++ d :: t ∧ byteLength s = n := by
  constructor
  · intro h
    induction text generalizing n with
    | nil => cases h
    | cons c text ih =>
      rw [byteAt?, utf8_cons, List.getElem?_append, String.length_utf8EncodeChar] at h
      split at h
      · rename_i hin
        obtain rfl := (mem_utf8EncodeChar_iff hd).mp (List.mem_of_getElem? h)
        rw [utf8Size_ascii hd, Nat.lt_one_iff] at hin
        exact ⟨[], text, rfl, hin.symm⟩
      · rename_i hbehind
        obtain ⟨s, t, rfl, hs⟩ := ih h
        refine ⟨c :: s, t, rfl, ?_⟩
        rw [byteLength_cons]
        omega
  · rintro ⟨s, t, rfl, rfl⟩
    rw [byteAt?_append, (leadByte_eq_iff hd).mpr rfl]

/-- Where the byte of an ASCII character stands, the text can be cut. -/
theorem cut_of_utf8 {text : List Char} {s t : List UInt8}
    (h : utf8 text = s ++ d.toUInt8 :: t) :
    ∃ before after, text = before ++ d :: after ∧ utf8 before = s ∧ utf8 after = t := by
  have hbyte : byteAt? text s.length = some d.toUInt8 := by
    rw [byteAt?, h, List.getElem?_append_right (Nat.le_refl _), Nat.sub_self]
    rfl
  obtain ⟨before, after, rfl, hlength⟩ := (byteAt?_eq_iff hd).mp hbyte
  rw [utf8_append, utf8_cons, utf8EncodeChar_ascii hd] at h
  obtain ⟨hs, ht⟩ := List.append_inj h ((length_utf8 before).trans hlength)
  exact ⟨before, after, rfl, hs, (List.cons.inj ht).2⟩

/-- It is not part of any other character. -/
theorem count_utf8EncodeChar (c : Char) :
    (String.utf8EncodeChar c).count d.toUInt8 = [c].count d := by
  by_cases hc : c = d
  · rw [hc, utf8EncodeChar_ascii hd, List.count_singleton_self, List.count_singleton_self]
  · rw [List.count_eq_zero.mpr fun h => hc ((mem_utf8EncodeChar_iff hd).mp h),
      List.count_cons_of_ne hc, List.count_nil]

/-- So it is as often among the bytes as the character is in the text. -/
theorem count_utf8 (text : List Char) : (utf8 text).count d.toUInt8 = text.count d := by
  induction text with
  | nil => rfl
  | cons c text ih =>
    rw [utf8_cons, List.count_append, ih, count_utf8EncodeChar hd, ← List.count_append,
      List.singleton_append]

/-- The first bytes of a text hold an ASCII character as often as the characters do that they make
    up.  They may cut the character behind these, but then no byte of it is ASCII. -/
theorem count_take_utf8 (text : List Char) (n : Nat) :
    ((utf8 text).take n).count d.toUInt8 = (takeBytes n text).count d := by
  induction text generalizing n with
  | nil => simp [utf8, takeBytes]
  | cons c text ih =>
    rw [utf8_cons, List.take_append, List.count_append, String.length_utf8EncodeChar, takeBytes]
    split
    · rename_i hfit
      rw [List.take_of_length_le (String.length_utf8EncodeChar c ▸ hfit), ih,
        count_utf8EncodeChar hd, ← List.count_append, List.singleton_append]
    · rename_i hcut
      have hnone : d.toUInt8 ∉ (String.utf8EncodeChar c).take n := by
        intro h
        obtain rfl := (mem_utf8EncodeChar_iff hd).mp (List.mem_of_mem_take h)
        rw [utf8Size_ascii hd, Nat.not_le, Nat.lt_one_iff] at hcut
        rw [hcut, List.take_zero] at h
        exact List.not_mem_nil h
      have hrest : n - c.utf8Size = 0 := by omega
      rw [List.count_eq_zero.mpr hnone, hrest, List.take_zero]
      rfl

end

/-! ### Slices -/

/-- A text cut at an offset that lies between two characters. -/
structure Cut (text : List Char) (n : Nat) where
  front : List Char
  back : List Char
  text_eq : text = front ++ back
  size : byteLength front = n

section

variable {text : List Char} {i j : Nat} (p : Cut text j) (q : Cut p.front i)

/-- A text with its first part cut again is in three parts. -/
theorem Cut.text_eq_of_front : text = q.front ++ (q.back ++ p.back) :=
  calc text = p.front ++ p.back := p.text_eq
    _ = q.front ++ q.back ++ p.back := congrArg (· ++ p.back) q.text_eq
    _ = _ := List.append_assoc ..

/-- The lengths of the first two add up. -/
theorem Cut.size_of_front : i + byteLength q.back = j :=
  calc i + byteLength q.back = byteLength q.front + byteLength q.back := by rw [q.size]
    _ = byteLength p.front := (byteLength_append ..).symm.trans (congrArg byteLength q.text_eq.symm)
    _ = j := p.size

end

/-- Cuts a text at an offset, if the text reaches as far. -/
def cut? : (text : List Char) → (n : Nat) → Option (Cut text n)
  | text, 0 => some ⟨[], text, rfl, rfl⟩
  | [], _ + 1 => none
  | c :: text, n + 1 =>
    if h : c.utf8Size ≤ n + 1 then
      (cut? text (n + 1 - c.utf8Size)).map fun p =>
        ⟨c :: p.front, p.back, congrArg (c :: ·) p.text_eq, by
          rw [byteLength_cons, p.size]
          omega⟩
    else none

/-- The part of a text between two offsets. -/
structure Slice (text : List Char) (i j : Nat) where
  before : List Char
  chars : List Char
  after : List Char
  text_eq : text = before ++ (chars ++ after)
  start : byteLength before = i
  stop : i + byteLength chars = j

/-- The part of a text between two offsets, if these are in order and the text reaches as far. -/
def slice? (text : List Char) (i j : Nat) : Option (Slice text i j) := do
  let p ← cut? text j
  let q ← cut? p.front i
  return ⟨q.front, q.back, p.back, p.text_eq_of_front q, q.size, p.size_of_front q⟩

namespace Slice

variable {text : List Char} {i j : Nat}

/-- The offsets of a slice are in order. -/
theorem start_le_stop (s : Slice text i j) : i ≤ j := by
  have := s.stop
  omega

/-- A slice ends within the text. -/
theorem stop_le (s : Slice text i j) : j ≤ byteLength text := by
  have hsize := congrArg byteLength s.text_eq
  rw [byteLength_append, byteLength_append, s.start] at hsize
  have := s.stop
  omega

/-- A slice is as long as its offsets are apart. -/
theorem size (s : Slice text i j) : byteLength s.chars = j - i := by
  have := s.stop
  omega

end Slice

/-- A text is cut between two of its characters. -/
theorem cut?_eq {text s t : List Char} {n : Nat} (htext : text = s ++ t) (hn : byteLength s = n) :
    cut? text n = some ⟨s, t, htext, hn⟩ := by
  induction s generalizing text n with
  | nil =>
    obtain rfl : text = t := htext
    obtain rfl : 0 = n := hn
    cases text <;> rfl
  | cons c s ih =>
    obtain ⟨m, rfl⟩ : ∃ m, n = m + 1 := by
      refine Nat.exists_eq_succ_of_ne_zero fun hzero => ?_
      have hpos := c.utf8Size_pos
      rw [byteLength_cons] at hn
      omega
    subst htext
    have hle : c.utf8Size ≤ m + 1 := by
      rw [byteLength_cons] at hn
      omega
    have hrest : byteLength s = m + 1 - c.utf8Size := by
      rw [byteLength_cons] at hn
      omega
    show cut? (c :: (s ++ t)) (m + 1) = _
    rw [cut?, dif_pos hle, ih rfl hrest]
    rfl

/-- A part of a text is what stands between its offsets. -/
theorem slice?_eq {text a s b : List Char} {i j : Nat} (htext : text = a ++ (s ++ b))
    (hi : byteLength a = i) (hj : i + byteLength s = j) :
    slice? text i j = some ⟨a, s, b, htext, hi, hj⟩ := by
  have hfront : byteLength (a ++ s) = j := by rw [byteLength_append, hi, hj]
  rw [slice?, cut?_eq (htext.trans (List.append_assoc ..).symm) hfront]
  show (cut? (a ++ s) i).bind _ = _
  rw [cut?_eq rfl hi]
  rfl

/-- An access is refused unless its offsets are in order, between characters and inside the text. -/
theorem slice?_isSome_iff {text : List Char} {i j : Nat} :
    (slice? text i j).isSome = true ↔
      ∃ a s b, text = a ++ (s ++ b) ∧ byteLength a = i ∧ i + byteLength s = j := by
  constructor
  · intro h
    obtain ⟨p, -⟩ := Option.isSome_iff_exists.mp h
    exact ⟨p.before, p.chars, p.after, p.text_eq, p.start, p.stop⟩
  · rintro ⟨a, s, b, htext, hi, hj⟩
    rw [slice?_eq htext hi hj]
    rfl

example : (slice? ['a', 'λ', 'b'] 1 3).map Slice.chars = some ['λ'] := by decide
example : (slice? ['a', 'λ', 'b'] 2 3).map Slice.chars = none := by decide
example : (slice? ['a', 'λ', 'b'] 3 1).map Slice.chars = none := by decide

/-- Only the empty text has no bytes. -/
theorem byteLength_pos {text : List Char} : 0 < byteLength text ↔ text ≠ [] := by
  cases text with
  | nil => simp
  | cons c text =>
    have := c.utf8Size_pos
    simp only [byteLength_cons, ne_eq, reduceCtorEq, not_false_eq_true, iff_true]
    omega

/-- What stands behind something. -/
theorem slice?_back {text s t : List Char} (htext : text = s ++ t) {n : Nat}
    (hn : byteLength s = n) :
    ∃ p : Slice text n (byteLength text),
      slice? text n (byteLength text) = some p ∧ p.chars = t := by
  have hback : text = s ++ (t ++ []) := by rw [List.append_nil, htext]
  have hstop : n + byteLength t = byteLength text := by rw [htext, byteLength_append, hn]
  exact ⟨_, slice?_eq hback hn hstop, rfl⟩

/-- What stands in front of something. -/
theorem slice?_front {text s t : List Char} (htext : text = s ++ t) {n : Nat}
    (hn : byteLength s = n) :
    ∃ p : Slice text 0 n, slice? text 0 n = some p ∧ p.chars = s := by
  have hfront : text = [] ++ (s ++ t) := htext
  exact ⟨_, slice?_eq hfront byteLength_nil ((Nat.zero_add _).trans hn), rfl⟩

/-! ### Characters -/

/-- The offset of the first character with a property. -/
def offset? (p : Char → Bool) : List Char → Option Nat
  | [] => none
  | c :: text => if p c then some 0 else (offset? p text).map (c.utf8Size + ·)

/-- The offset of the last character with a property. -/
def lastOffset? (p : Char → Bool) : List Char → Option Nat
  | [] => none
  | c :: text =>
    match lastOffset? p text with
    | some n => some (c.utf8Size + n)
    | none => if p c then some 0 else none

section

variable {p : Char → Bool} {s : List Char} {c : Char}

/-- Where no such character stands in front, all is further back by what stands there. -/
theorem offset?_behind (h : ∀ c ∈ s, p c = false) (t : List Char) :
    offset? p (s ++ t) = (offset? p t).map (byteLength s + ·) := by
  induction s with
  | nil => simp
  | cons c s ih =>
    rw [List.forall_mem_cons] at h
    rw [List.cons_append, offset?, if_neg (Bool.not_eq_true _ ▸ h.1), ih h.2, Option.map_map]
    congr 1
    funext n
    simp [Nat.add_assoc]

/-- The first character with a property is found behind those without it. -/
theorem offset?_append (h : ∀ c ∈ s, p c = false) (hc : p c = true) (t : List Char) :
    offset? p (s ++ c :: t) = some (byteLength s) := by
  rw [offset?_behind h, offset?, if_pos hc]
  rfl

/-- Nothing is found where no character has the property. -/
theorem offset?_none (h : ∀ c ∈ s, p c = false) : offset? p s = none := by
  have hnil := offset?_behind h []
  rwa [List.append_nil] at hnil

/-- What does not occur does not stop a text. -/
theorem takeWhile_of_not_mem {d : Char} {text : List Char} (h : d ∉ text) :
    text.takeWhile (fun c => c != d) = text := by
  rw [List.takeWhile_eq_self_iff]
  intro c hc
  rw [bne_iff_ne]
  rintro rfl
  exact h hc

/-- The first occurrence of a character is where the text without it ends. -/
theorem offset?_char (d : Char) (text : List Char) :
    offset? (· == d) text = if d ∈ text then some (byteLength (text.takeWhile fun c => c != d))
      else none := by
  by_cases hmem : d ∈ text
  · obtain ⟨s, t, rfl, hs⟩ := List.eq_append_cons_of_mem hmem
    have hother : ∀ c ∈ s, (c == d) = false := by
      intro c hc
      rw [beq_eq_false_iff_ne]
      rintro rfl
      exact hs hc
    have hkeep : ∀ c ∈ s, (c != d) = true := fun c hc => by rw [bne, hother c hc]; rfl
    rw [if_pos hmem, offset?_append hother (beq_self_eq_true d), List.takeWhile_append_of_pos hkeep,
      List.takeWhile_cons_of_neg (by simp), List.append_nil]
  · rw [if_neg hmem]
    refine offset?_none fun c hc => ?_
    rw [beq_eq_false_iff_ne]
    rintro rfl
    exact hmem hc

/-- Nothing is found where no character has the property. -/
theorem lastOffset?_none (h : ∀ c ∈ s, p c = false) : lastOffset? p s = none := by
  induction s with
  | nil => rfl
  | cons c s ih =>
    rw [List.forall_mem_cons] at h
    rw [lastOffset?, ih h.2, h.1]
    rfl

/-- The last character with a property is found in front of those without it. -/
theorem lastOffset?_append {t : List Char} (h : ∀ c ∈ t, p c = false) (hc : p c = true)
    (s : List Char) : lastOffset? p (s ++ c :: t) = some (byteLength s) := by
  induction s with
  | nil =>
    rw [List.nil_append, lastOffset?, lastOffset?_none h]
    exact if_pos hc
  | cons d s ih => rw [List.cons_append, lastOffset?, ih, byteLength_cons]

end

/-! ### Elements -/

/-- The elements of a list from a position on, if the list reaches as far. -/
def behind? {α : Type} (xs : List α) (n : Nat) : Option (List α) :=
  if n ≤ xs.length then some (xs.drop n) else none

/-! ### Ends of blocks -/

/-- The end of a block lies between what stands in it and what stands behind it. -/
theorem blockOffset_of_blockEnd {text : List Char} {n : Nat} (h : blockEnd text = .ok n) :
    ∃ before after, text = before ++ ')' :: after ∧ n = before.length ∧
      blockOffset text = .ok (byteLength before) := by
  obtain ⟨before, after, htext, hn, -⟩ := closeFrom_split h
  rw [Nat.zero_add] at hn
  refine ⟨before, after, htext, hn, ?_⟩
  rw [blockOffset, h, Except.map, hn, htext, List.take_left]

/-- Where a block can be cut out, its end is found. -/
theorem blockOffset_of_cut {text : List Char} {b : Block} (h : Block.cut text = .ok b) :
    blockOffset text = .ok (byteLength (b.head ++ '(' :: b.inner)) := by
  have hlength : b.head.length + 1 + b.inner.length = (b.head ++ '(' :: b.inner).length := by
    simp only [List.length_append, List.length_cons]
    omega
  have htext : text = (b.head ++ '(' :: b.inner) ++ ')' :: b.tail := by
    rw [List.append_assoc, List.cons_append]
    exact Block.text_eq_of_cut h
  rw [blockOffset, Block.end_of_cut h, Except.map, hlength]
  rw [htext, List.take_left]

/-- The parts of a text that is cut at a block lie between the offsets of its parentheses. -/
theorem slices_of_cut {text : List Char} {b : Block} (h : Block.cut text = .ok b) {i : Nat}
    (hi : byteLength b.head + 1 = i) :
    ∃ n, blockOffset text = .ok n ∧ (n + 1 < byteLength text ↔ b.tail ≠ []) ∧
      (∃ p : Slice text i n, slice? text i n = some p ∧ p.chars = b.inner) ∧
      ∃ p : Slice text (n + 1) (byteLength text),
        slice? text (n + 1) (byteLength text) = some p ∧ p.chars = b.tail := by
  have hopen : byteLength (b.head ++ ['(']) = i := (byteLength_append ..).trans hi
  have hinner : text = (b.head ++ ['(']) ++ (b.inner ++ ')' :: b.tail) := by
    rw [List.append_assoc, List.singleton_append]
    exact Block.text_eq_of_cut h
  have htail : text = (b.head ++ '(' :: b.inner ++ [')']) ++ b.tail := by
    simp only [List.append_assoc, List.cons_append, List.nil_append]
    exact Block.text_eq_of_cut h
  have hclose : byteLength (b.head ++ '(' :: b.inner ++ [')'])
      = byteLength (b.head ++ '(' :: b.inner) + 1 := byteLength_append ..
  have hsize : byteLength text = byteLength (b.head ++ '(' :: b.inner) + 1 + byteLength b.tail := by
    rw [← hclose, ← byteLength_append, ← htail]
  have hend : i + byteLength b.inner = byteLength (b.head ++ '(' :: b.inner) := by
    rw [← hi, byteLength_append, byteLength_cons, Nat.add_assoc]
    rfl
  refine ⟨_, blockOffset_of_cut h, ?_, ⟨_, slice?_eq hinner hopen hend, rfl⟩,
    slice?_back htail hclose⟩
  rw [hsize, ← byteLength_pos]
  omega

/-- The same for a block that begins at an offset of a text. -/
theorem slices_behind {text front beyond : List Char} {b : Block} (htext : text = front ++ beyond)
    (hcut : Block.cut beyond = .ok b) (hhead : b.head = []) :
    ∃ n, blockOffset beyond = .ok n ∧
      (∃ p : Slice text (byteLength front + 1) (byteLength front + n),
        slice? text (byteLength front + 1) (byteLength front + n) = some p ∧
          p.chars = b.inner) ∧
      ∃ p : Slice text (byteLength front + n + 1) (byteLength text),
        slice? text (byteLength front + n + 1) (byteLength text) = some p ∧ p.chars = b.tail := by
  have hblock := Block.text_eq_of_cut hcut
  have hoffset := blockOffset_of_cut hcut
  rw [hhead, List.nil_append] at hblock hoffset
  have hinner : text = (front ++ ['(']) ++ (b.inner ++ ')' :: b.tail) := by
    rw [htext, hblock, List.append_assoc, List.singleton_append]
  have htail : text = (front ++ '(' :: b.inner ++ [')']) ++ b.tail := by
    rw [htext, hblock]
    simp
  have hstart : byteLength (front ++ ['(']) = byteLength front + 1 := byteLength_append ..
  have hclose : byteLength front + 1 + byteLength b.inner
      = byteLength front + byteLength ('(' :: b.inner) := Nat.add_assoc ..
  have hend : byteLength (front ++ '(' :: b.inner ++ [')'])
      = byteLength front + byteLength ('(' :: b.inner) + 1 := by
    rw [byteLength_append, byteLength_append front]
    rfl
  exact ⟨_, hoffset, ⟨_, slice?_eq hinner hstart hclose, rfl⟩, slice?_back htail hend⟩

/-- Where none can be, none is found, for the same reason. -/
theorem blockOffset_of_uncut {text : List Char} {fault : BlockFault}
    (h : Block.cut text = .error fault) : blockOffset text = .error fault := by
  unfold Block.cut at h
  split at h
  · rename_i fault' hend
    cases h
    rw [blockOffset, hend]
    rfl
  · cases h

end DotLambda
