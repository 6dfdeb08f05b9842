import DotLambda.Block
import Mathlib.Data.List.Induction
import Mathlib.Data.List.TakeWhile

namespace DotLambda

/-!
# Reading — blocks

Where the first block of a text ends.

* `Balanced` — texts whose parentheses match;
* `depthBehind`, `balanced_iff` — the same by the parentheses that are open;
* `balanced_iff_count` — and by the parentheses that the parts of a text hold;
* `Block.cut_of_balanced` — a text is cut at the block that its parentheses show;
* `Block.balanced_of_cut` — and what is cut out is balanced;
* `closeFrom_eq_unbalanced_iff` — which texts close what they did not open.
-/

/-- The search for the end of a block passes over the text. -/
def Balanced (text : List Char) : Prop :=
  ∀ depth pos rest,
    closeFrom (depth + 1) pos (text ++ rest) = closeFrom (depth + 1) (pos + text.length) rest

/-- A text without parentheses is passed over, inside a block and outside. -/
theorem closeFrom_append {text : List Char} (h : ∀ c ∈ text, c ≠ '(' ∧ c ≠ ')')
    (depth pos : Nat) (rest : List Char) :
    closeFrom depth pos (text ++ rest) = closeFrom depth (pos + text.length) rest := by
  induction text generalizing pos with
  | nil => rfl
  | cons c text ih =>
    rw [List.forall_mem_cons] at h
    rw [List.cons_append, closeFrom_other h.1.1 h.1.2, ih h.2, List.length_cons, Nat.add_assoc,
      Nat.add_comm 1]

/-- A text without parentheses is balanced. -/
theorem balanced_of_not_paren {text : List Char} (h : ∀ c ∈ text, c ≠ '(' ∧ c ≠ ')') :
    Balanced text :=
  fun depth => closeFrom_append h (depth + 1)

/-- Balanced texts one behind the other are balanced. -/
theorem Balanced.append {s t : List Char} (hs : Balanced s) (ht : Balanced t) :
    Balanced (s ++ t) := by
  intro depth pos rest
  rw [List.append_assoc, hs, ht, List.length_append, Nat.add_assoc]

/-- A block is passed over if what stands in it is. -/
theorem Balanced.block {inner : List Char} (h : Balanced inner) :
    Balanced ('(' :: (inner ++ [')'])) := by
  intro depth pos rest
  have hlength : ('(' :: (inner ++ [')'])).length = 1 + inner.length + 1 := by
    simp only [List.length_cons, List.length_append, List.length_nil]
    omega
  rw [List.cons_append, List.append_assoc, List.singleton_append, closeFrom_open, h,
    closeFrom_close_inner, hlength]
  congr 1
  omega

/-- The first block of a text ends behind what is balanced. -/
theorem blockEnd_of_balanced {head inner : List Char} (hhead : ∀ c ∈ head, c ≠ '(' ∧ c ≠ ')')
    (hinner : Balanced inner) (tail : List Char) :
    blockEnd (head ++ '(' :: (inner ++ ')' :: tail)) = .ok (head.length + 1 + inner.length) := by
  rw [blockEnd, closeFrom_append hhead, closeFrom_open, hinner, closeFrom_close, Nat.zero_add]

/-- **Blocks.** A text is cut at the block that its parentheses show. -/
theorem Block.cut_of_balanced {head inner : List Char} (hhead : ∀ c ∈ head, c ≠ '(' ∧ c ≠ ')')
    (hinner : Balanced inner) (tail : List Char) :
    Block.cut (head ++ '(' :: (inner ++ ')' :: tail)) = .ok ⟨head, inner, tail⟩ := by
  have hstop : (head ++ '(' :: (inner ++ ')' :: tail)).takeWhile (fun c => c != '(') = head := by
    rw [List.takeWhile_append_of_pos (fun c hc => by simpa using (hhead c hc).1)]
    simp
  have hinside :
      ((head ++ '(' :: (inner ++ ')' :: tail)).take (head.length + 1 + inner.length)).drop
        (head.length + 1) = inner := by
    rw [List.drop_take, Nat.add_sub_cancel_left, ← List.drop_drop, List.drop_left]
    simp
  have hbehind : (head ++ '(' :: (inner ++ ')' :: tail)).drop (head.length + 1 + inner.length + 1)
      = tail := by
    rw [Nat.add_assoc, Nat.add_assoc, ← List.drop_drop, List.drop_left, Nat.add_comm,
      List.drop_succ_cons, ← List.drop_drop, List.drop_left]
    rfl
  rw [Block.cut, blockEnd_of_balanced hhead hinner]
  simp only [hstop, hinside, hbehind]

/-- What stands in a block and behind it is told apart by its parentheses. -/
theorem Block.cut_opened {inner : List Char} (h : Balanced inner) (tail : List Char) :
    Block.cut ('(' :: (inner ++ ')' :: tail)) = .ok ⟨[], inner, tail⟩ :=
  Block.cut_of_balanced (fun _ hc => absurd hc List.not_mem_nil) h tail

/-- The head of a block is what stands in front of the first opening parenthesis. -/
theorem Block.head_of_cut {text : List Char} {b : Block} (h : Block.cut text = .ok b) :
    b.head = text.takeWhile fun c => c != '(' := by
  unfold Block.cut at h
  split at h
  · cases h
  · cases h
    rfl

/-! ### Counting parentheses -/

/-- The number of parentheses that are open behind a text, if `depth` are before it; nothing if the
    text closes more than are open. -/
def depthBehind (depth : Nat) : List Char → Option Nat
  | [] => some depth
  | c :: rest =>
    if c = '(' then depthBehind (depth + 1) rest
    else if c = ')' then
      match depth with
      | 0 => none
      | depth + 1 => depthBehind depth rest
    else depthBehind depth rest

/-- An opening parenthesis leads one block deeper. -/
theorem depthBehind_open (depth : Nat) (rest : List Char) :
    depthBehind depth ('(' :: rest) = depthBehind (depth + 1) rest := by
  simp only [depthBehind, if_true]

/-- A closing one leads one block up. -/
theorem depthBehind_close (depth : Nat) (rest : List Char) :
    depthBehind (depth + 1) (')' :: rest) = depthBehind depth rest := by
  simp [depthBehind]

/-- Outside of all blocks, there is nothing to close. -/
theorem depthBehind_close_zero (rest : List Char) : depthBehind 0 (')' :: rest) = none := by
  simp [depthBehind]

/-- Other characters change nothing. -/
theorem depthBehind_other {c : Char} (hopen : c ≠ '(') (hclose : c ≠ ')') (depth : Nat)
    (rest : List Char) : depthBehind depth (c :: rest) = depthBehind depth rest := by
  simp only [depthBehind, hopen, hclose, if_false]

/-- The search for the end of a block counts the parentheses that are open. -/
theorem closeFrom_of_depthBehind {text : List Char} {depth depth' : Nat}
    (h : depthBehind depth text = some depth') (outside pos : Nat) (rest : List Char) :
    closeFrom (depth + outside + 1) pos (text ++ rest)
      = closeFrom (depth' + outside + 1) (pos + text.length) rest := by
  induction text generalizing depth pos with
  | nil =>
    cases h
    rfl
  | cons c text ih =>
    have hlength : pos + (c :: text).length = pos + 1 + text.length := by
      rw [List.length_cons]
      omega
    rw [List.cons_append, hlength]
    cases c using paren_cases with
    | opening =>
      rw [depthBehind_open] at h
      rw [closeFrom_open, ← ih h]
      congr 1
      omega
    | closing =>
      cases depth with
      | zero =>
        rw [depthBehind_close_zero] at h
        cases h
      | succ depth =>
        rw [depthBehind_close] at h
        have hdepth : depth + 1 + outside + 1 = depth + outside + 2 := by omega
        rw [hdepth, closeFrom_close_inner, ih h]
    | other c hopen hclose =>
      rw [depthBehind_other hopen hclose] at h
      rw [closeFrom_other hopen hclose, ih h]

/-- Where a block ends, as many parentheses are closed as were open in it. -/
theorem depthBehind_of_closeFrom {before after : List Char} {depth pos : Nat}
    (h : closeFrom (depth + 1) pos (before ++ ')' :: after) = .ok (pos + before.length)) :
    depthBehind depth before = some 0 := by
  induction before generalizing depth pos with
  | nil =>
    cases depth with
    | zero => rfl
    | succ depth =>
      rw [List.nil_append, closeFrom_close_inner] at h
      -- An inner block is closed here, so that the end would be further on.
      obtain ⟨text, -, -, hend, -⟩ := closeFrom_split h
      rw [List.length_nil] at hend
      omega
  | cons c before ih =>
    have hlength : pos + (c :: before).length = pos + 1 + before.length := by
      rw [List.length_cons]
      omega
    rw [List.cons_append, hlength] at h
    cases c using paren_cases with
    | opening =>
      rw [closeFrom_open] at h
      rw [depthBehind_open]
      exact ih h
    | closing =>
      cases depth with
      | zero =>
        rw [closeFrom_close, Except.ok.injEq] at h
        omega
      | succ depth =>
        rw [closeFrom_close_inner] at h
        rw [depthBehind_close]
        exact ih h
    | other c hopen hclose =>
      rw [closeFrom_other hopen hclose] at h
      rw [depthBehind_other hopen hclose]
      exact ih h

/-- Parentheses match if none is closed that was not opened, and none stays open. -/
theorem balanced_iff {text : List Char} : Balanced text ↔ depthBehind 0 text = some 0 := by
  constructor
  · intro h
    have hend : closeFrom (0 + 1) 0 (text ++ [')']) = .ok (0 + text.length) := by
      rw [h, closeFrom_close]
    exact depthBehind_of_closeFrom hend
  · intro h depth pos rest
    have hpass := closeFrom_of_depthBehind h depth pos rest
    rw [Nat.zero_add] at hpass
    exact hpass

/-- The depth behind two texts is reached through the depth behind the first. -/
theorem depthBehind_append (depth : Nat) (s t : List Char) :
    depthBehind depth (s ++ t) = (depthBehind depth s).bind (depthBehind · t) := by
  induction s generalizing depth with
  | nil => rfl
  | cons c s ih =>
    rw [List.cons_append]
    cases c using paren_cases with
    | opening => rw [depthBehind_open, depthBehind_open, ih]
    | closing =>
      cases depth with
      | zero => simp [depthBehind_close_zero]
      | succ depth => rw [depthBehind_close, depthBehind_close, ih]
    | other c hopen hclose =>
      rw [depthBehind_other hopen hclose, depthBehind_other hopen hclose, ih]

/-- A balanced text leaves the number of open parentheses as it is. -/
theorem Balanced.depthBehind_append {text : List Char} (h : Balanced text) (depth : Nat)
    (rest : List Char) :
    depthBehind depth (text ++ rest) = depthBehind depth rest := by
  -- More blocks around a text that closes its own do not matter to it.
  have hmore : ∀ {text : List Char} {d d' : Nat}, depthBehind d text = some d' → ∀ more,
      depthBehind (d + more) text = some (d' + more) := by
    intro text
    induction text with
    | nil =>
      rintro d d' ⟨⟩ more
      rfl
    | cons c text ih =>
      intro d d' h more
      cases c using paren_cases with
      | opening =>
        rw [depthBehind_open] at h ⊢
        rw [Nat.add_right_comm]
        exact ih h more
      | closing =>
        cases d with
        | zero =>
          rw [depthBehind_close_zero] at h
          cases h
        | succ d =>
          rw [depthBehind_close] at h
          rw [Nat.add_right_comm, depthBehind_close]
          exact ih h more
      | other c hopen hclose =>
        rw [depthBehind_other hopen hclose] at h ⊢
        exact ih h more
  have htext := hmore (balanced_iff.mp h) depth
  rw [Nat.zero_add] at htext
  rw [DotLambda.depthBehind_append, htext]
  rfl

/-- What is open behind a text, and what it closes, make up what was open and what it opens. -/
theorem count_of_depthBehind {text : List Char} {depth depth' : Nat}
    (h : depthBehind depth text = some depth') :
    depth + text.count '(' = depth' + text.count ')' := by
  induction text generalizing depth with
  | nil =>
    cases h
    rfl
  | cons c text ih =>
    cases c using paren_cases with
    | opening =>
      rw [depthBehind_open] at h
      have hrest := ih h
      rw [List.count_cons_self, List.count_cons_of_ne (by decide)]
      omega
    | closing =>
      cases depth with
      | zero =>
        rw [depthBehind_close_zero] at h
        cases h
      | succ depth =>
        rw [depthBehind_close] at h
        have hrest := ih h
        rw [List.count_cons_of_ne (by decide), List.count_cons_self]
        omega
    | other c hopen hclose =>
      rw [depthBehind_other hopen hclose] at h
      rw [List.count_cons_of_ne hopen, List.count_cons_of_ne hclose]
      exact ih h

/-- A balanced text closes as many parentheses as it opens. -/
theorem Balanced.count_eq {text : List Char} (h : Balanced text) :
    text.count '(' = text.count ')' := by
  have hcount := count_of_depthBehind (balanced_iff.mp h)
  rwa [Nat.zero_add, Nat.zero_add] at hcount

/-- A text can be counted through if no initial part of it closes more than are open. -/
theorem depthBehind_of_count {text : List Char} {depth : Nat}
    (h : ∀ s, s <+: text → s.count ')' ≤ depth + s.count '(') :
    ∃ depth', depthBehind depth text = some depth' := by
  -- From the end: all before the last character is an initial part too.
  induction text using List.reverseRecOn with
  | nil => exact ⟨depth, rfl⟩
  | append_singleton text c ih =>
    obtain ⟨d, hd⟩ := ih fun s hs => h s (hs.trans (List.prefix_append ..))
    rw [depthBehind_append, hd, Option.bind_some]
    cases c using paren_cases with
    | opening => exact ⟨d + 1, depthBehind_open d []⟩
    | closing =>
      cases d with
      | zero =>
        have hwhole := h _ (List.prefix_refl _)
        have hcount := count_of_depthBehind hd
        rw [List.count_append, List.count_append, List.count_singleton_self,
          List.count_cons_of_ne (by decide), List.count_nil] at hwhole
        omega
      | succ d => exact ⟨d, depthBehind_close d []⟩
    | other c hopen hclose => exact ⟨d, depthBehind_other hopen hclose d []⟩

/-- Parentheses match if no initial part of a text closes more than it opens, and the whole closes
    as many. -/
theorem balanced_iff_count {text : List Char} :
    Balanced text ↔
      (∀ s, s <+: text → s.count ')' ≤ s.count '(') ∧ text.count '(' = text.count ')' := by
  constructor
  · intro h
    refine ⟨?_, h.count_eq⟩
    rintro s ⟨t, rfl⟩
    have hend := balanced_iff.mp h
    rw [depthBehind_append] at hend
    obtain ⟨d, hd, -⟩ := Option.bind_eq_some_iff.mp hend
    have hcount := count_of_depthBehind hd
    omega
  · rintro ⟨hparts, hwhole⟩
    have hopen : ∀ s, s <+: text → s.count ')' ≤ 0 + s.count '(' := by
      simpa only [Nat.zero_add] using hparts
    obtain ⟨d, hd⟩ := depthBehind_of_count hopen
    have hcount := count_of_depthBehind hd
    obtain rfl : d = 0 := by omega
    exact balanced_iff.mpr hd

/-- A parenthesis that is closed in the end has its block closed. -/
theorem cut_of_depthBehind {rest : List Char} {depth : Nat}
    (h : depthBehind depth ('(' :: rest) = some 0) :
    ∃ inner tail, rest = inner ++ ')' :: tail ∧ Balanced inner := by
  -- With `inside` blocks open behind the first, that one has still to be closed.
  have hclose : ∀ (rest : List Char) (inside pos : Nat),
      depthBehind (depth + inside + 1) rest = some 0 →
        ∃ n, closeFrom (inside + 1) pos rest = .ok n := by
    intro rest
    induction rest with
    | nil =>
      intro inside pos h
      cases h
    | cons c rest ih =>
      intro inside pos h
      cases c using paren_cases with
      | opening =>
        rw [depthBehind_open] at h
        rw [closeFrom_open]
        exact ih (inside + 1) _ h
      | closing =>
        rw [depthBehind_close] at h
        cases inside with
        | zero => exact ⟨pos, closeFrom_close pos rest⟩
        | succ inside =>
          rw [closeFrom_close_inner]
          exact ih inside _ h
      | other c hopen hclose =>
        rw [depthBehind_other hopen hclose] at h
        rw [closeFrom_other hopen hclose]
        exact ih inside _ h
  rw [depthBehind_open] at h
  obtain ⟨n, hn⟩ := hclose rest 0 0 h
  obtain ⟨inner, tail, rfl, rfl, -⟩ := closeFrom_split hn
  exact ⟨inner, tail, rfl, balanced_iff.mpr (depthBehind_of_closeFrom hn)⟩

/-- The end of a block stands behind its text. -/
theorem Block.end_of_cut {text : List Char} {b : Block} (h : Block.cut text = .ok b) :
    blockEnd text = .ok (b.head.length + 1 + b.inner.length) := by
  have hlength := congrArg List.length (Block.text_eq_of_cut h)
  simp only [List.length_append, List.length_cons] at hlength
  unfold Block.cut at h
  split at h
  · cases h
  · rename_i n hn
    have hlt := blockEnd_lt hn
    have htail : b.tail.length = text.length - (n + 1) := by
      cases h
      exact List.length_drop
    rw [hn, Except.ok.injEq]
    omega

/-- No parenthesis stands before a block. -/
theorem Block.not_paren_of_cut {text : List Char} {b : Block} (h : Block.cut text = .ok b) :
    ∀ c ∈ b.head, c ≠ '(' ∧ c ≠ ')' := by
  have hopen : ∀ c ∈ b.head, c ≠ '(' := by
    rw [Block.head_of_cut h]
    intro c hc
    simpa using List.mem_takeWhile_imp hc
  refine fun c hc => ⟨hopen c hc, ?_⟩
  rintro rfl
  -- The first closing parenthesis would be one too many.
  obtain ⟨before, after, hsplit, hbefore⟩ := List.eq_append_cons_of_mem hc
  have hpass : ∀ c ∈ before, c ≠ '(' ∧ c ≠ ')' := fun c hc =>
    ⟨hopen c (hsplit ▸ List.mem_append_left _ hc), fun heq => hbefore (heq ▸ hc)⟩
  have hend := Block.end_of_cut h
  rw [Block.text_eq_of_cut h, hsplit, blockEnd, List.append_assoc, closeFrom_append hpass,
    List.cons_append] at hend
  simp [closeFrom] at hend

/-- What is cut out as a block is balanced. -/
theorem Block.balanced_of_cut {text : List Char} {b : Block} (h : Block.cut text = .ok b) :
    Balanced b.inner := by
  have hend := Block.end_of_cut h
  rw [Block.text_eq_of_cut h, blockEnd, closeFrom_append (Block.not_paren_of_cut h),
    closeFrom_open, Nat.zero_add b.head.length] at hend
  exact balanced_iff.mpr (depthBehind_of_closeFrom hend)

/-! ### Texts that close too much -/

/-- Inside a block, a closing parenthesis closes something. -/
theorem closeFrom_ne_unbalanced (text : List Char) (depth pos : Nat) :
    closeFrom (depth + 1) pos text ≠ .error .unbalanced := by
  induction text generalizing depth pos with
  | nil => rintro ⟨⟩
  | cons c text ih =>
    cases c using paren_cases with
    | opening =>
      rw [closeFrom_open]
      exact ih (depth + 1) _
    | closing =>
      cases depth with
      | zero =>
        rw [closeFrom_close]
        rintro ⟨⟩
      | succ depth =>
        rw [closeFrom_close_inner]
        exact ih depth _
    | other c hopen hclose =>
      rw [closeFrom_other hopen hclose]
      exact ih depth _

/-- A closing parenthesis is one too many if it comes before any opening one, and only then. -/
theorem closeFrom_eq_unbalanced_iff {text : List Char} {pos : Nat} :
    closeFrom 0 pos text = .error .unbalanced ↔
      ∃ before after, text = before ++ ')' :: after ∧ '(' ∉ before := by
  induction text generalizing pos with
  | nil => simp [closeFrom]
  | cons c text ih =>
    cases c using paren_cases with
    | opening =>
      rw [closeFrom_open]
      refine iff_of_false (closeFrom_ne_unbalanced text 0 _) ?_
      rintro ⟨before, after, htext, hbefore⟩
      cases before with
      | nil => cases htext
      | cons c before =>
        obtain ⟨rfl, -⟩ := List.cons.inj htext
        exact hbefore List.mem_cons_self
    | closing => exact iff_of_true rfl ⟨[], text, rfl, List.not_mem_nil⟩
    | other c hopen hclose =>
      rw [closeFrom_other hopen hclose, ih]
      constructor
      · rintro ⟨before, after, rfl, hbefore⟩
        exact ⟨c :: before, after, rfl, List.not_mem_cons_of_ne_of_not_mem hopen.symm hbefore⟩
      · rintro ⟨before, after, htext, hbefore⟩
        cases before with
        | nil => exact absurd (List.cons.inj htext).1 hclose
        | cons d before =>
          obtain ⟨-, rfl⟩ := List.cons.inj htext
          exact ⟨before, after, rfl, List.not_mem_of_not_mem_cons hbefore⟩

end DotLambda
