import DotLambda.Proofs.Reading.Scopes
import DotLambda.Proofs.Reading.Trees
import Mathlib

namespace DotLambda

/-!
# Reading — the grammar

Which texts are programs.  A tree is well scoped if no binder has the name of a binder around it,
and if names that are called are bound.  The readers cut texts at dots and parentheses and look at
names late; what they accept are the texts of well-scoped trees, and nothing else.

* `Atom.Scoped`, `Expr.Scoped` — the grammar, by the names that are bound around a tree;
* `Derives`, `DerivesArgs` — the texts of well-scoped trees, and how they fall apart where the
  readers cut them;
* `Place` — where in a text one is: the blocks that are open, and the name that stands last;
* `Judged` — what an outcome has to do with the grammar;
* `parse_accepts_grammar` — programs are the texts of trees that are well scoped on their own.
-/

/-! ### Well-scoped trees -/

mutual

/-- Arguments where the names `Γ` are bound. -/
inductive Atom.Scoped : (Γ : List String) → Atom → Prop where
  | name (Γ : List String) (n : Name) : Atom.Scoped Γ (.name n)
  | binder {Γ : List String} {n : Name} {body : Expr} (hnew : n.word ∉ Γ)
      (hbody : Expr.Scoped (n.word :: Γ) body) : Atom.Scoped Γ (.binder n body)
  | group {Γ : List String} {body : Expr} (hbody : Expr.Scoped Γ body) :
      Atom.Scoped Γ (.group body)

/-- Expressions where the names `Γ` are bound.  Any name may stand by itself, but only a bound one
    may be called. -/
inductive Expr.Scoped : (Γ : List String) → Expr → Prop where
  | name (Γ : List String) (n : Name) : Expr.Scoped Γ (.mk (.name n) [])
  | binder {Γ : List String} {n : Name} {body : Expr} {args : List Atom} (hnew : n.word ∉ Γ)
      (hbody : Expr.Scoped (n.word :: Γ) body) (hargs : ∀ a ∈ args, Atom.Scoped Γ a) :
      Expr.Scoped Γ (.mk (.binder n body) args)
  | call {Γ : List String} {n : Name} {args : List Atom} (hbound : n.word ∈ Γ) (hne : args ≠ [])
      (hargs : ∀ a ∈ args, Atom.Scoped Γ a) : Expr.Scoped Γ (.mk (.name n) args)
  | group {Γ : List String} {body : Expr} {args : List Atom} (hbody : Expr.Scoped Γ body)
      (hargs : ∀ a ∈ args, Atom.Scoped Γ a) : Expr.Scoped Γ (.mk (.group body) args)

end

/-- An atom is an argument where it is an expression. -/
theorem Expr.scoped_atom {Γ : List String} {a : Atom} : (Expr.mk a []).Scoped Γ ↔ a.Scoped Γ := by
  have hnone : ∀ b ∈ ([] : List Atom), b.Scoped Γ := fun b hb => absurd hb List.not_mem_nil
  constructor
  · intro h
    cases h with
    | name _ n => exact .name Γ n
    | binder hnew hbody _ => exact .binder hnew hbody
    | call _ hne _ => exact absurd rfl hne
    | group hbody _ => exact .group hbody
  · intro h
    cases h with
    | name _ n => exact .name Γ n
    | binder hnew hbody => exact .binder hnew hbody hnone
    | group hbody => exact .group hbody hnone

/-- The text is that of an expression where the names `Γ` are bound. -/
def Derives (Γ : List String) (text : List Char) : Prop :=
  ∃ e : Expr, e.Scoped Γ ∧ e.text = text

/-- The text is that of arguments where the names `Γ` are bound. -/
def DerivesArgs (Γ : List String) (text : List Char) : Prop :=
  ∃ args : List Atom, (∀ a ∈ args, a.Scoped Γ) ∧ argsText args = text

/-! ### How texts fall apart -/

/-- There is nothing wrong with the characters of a name. -/
theorem Name.no_fault (n : Name) : nameFault? n.chars = none := by
  have hany : n.chars.any isReserved = false := by
    rw [List.any_eq_false]
    intro c hc
    have hlegal := n.legal c hc
    simp only [List.mem_cons, List.not_mem_nil, not_or, or_false] at hlegal
    simp [isReserved, hlegal]
  have hne : n.chars.isEmpty = false := by
    rw [List.isEmpty_eq_false_iff]
    exact n.nonempty
  simp [nameFault?, hany, hne]

/-- An atom is not written as nothing. -/
theorem Atom.text_ne_nil (a : Atom) : a.text ≠ [] := by
  cases a with
  | name n => exact n.nonempty
  | binder n body => simp [Atom.text]
  | group body => simp [Atom.text]

/-! The form of a text tells what its tree begins with. -/

namespace Expr

variable {e : Expr}

/-- The form of a text can be told from the tree that it is written for. -/
theorem form_text (head : Atom) (args : List Atom) :
    Form.of (mk head args).text =
      match head, args with
      | .name _, [] => .bare
      | .name _, _ :: _ => .call
      | _, _ => .binding := by
  cases head with
  | name n =>
    cases args with
    | nil =>
      rw [text_atom]
      exact n.form_bare
    | cons a args => exact n.form_call _
  | binder n body => exact (cut_binder n body args).1
  | group body => exact (cut_group body args).1

/-- What has the form of a name is one. -/
theorem eq_name_of_form (h : Form.of e.text = .bare) : ∃ n, e = mk (.name n) [] := by
  obtain ⟨head, args⟩ := e
  rw [form_text] at h
  cases head with
  | name n =>
    cases args with
    | nil => exact ⟨n, rfl⟩
    | cons a args => cases h
  | binder n body => cases h
  | group body => cases h

/-- What has the form of a call is one, with at least one argument. -/
theorem eq_call_of_form (h : Form.of e.text = .call) :
    ∃ n a args, e = mk (.name n) (a :: args) := by
  obtain ⟨head, args⟩ := e
  rw [form_text] at h
  cases head with
  | name n =>
    cases args with
    | nil => cases h
    | cons a args => exact ⟨n, a, args, rfl⟩
  | binder n body => cases h
  | group body => cases h

/-- With a name in front of it, a block is that of a binder; without one it is a group. -/
theorem eq_block_of_form (h : Form.of e.text = .binding) :
    (e.text.head? ≠ some '(' ∧ ∃ n body args, e = mk (.binder n body) args) ∨
      (e.text.head? = some '(' ∧ ∃ body args, e = mk (.group body) args) := by
  obtain ⟨head, args⟩ := e
  rw [form_text] at h
  cases head with
  | name n => cases args <;> cases h
  | binder n body =>
    refine .inl ⟨fun hopen => ?_, n, body, args, rfl⟩
    obtain ⟨c, chars, hchars⟩ := List.exists_cons_of_ne_nil n.nonempty
    have hc := n.not_paren c (hchars ▸ List.mem_cons_self)
    rw [text, Atom.text, hchars] at hopen
    exact hc.1 (Option.some.inj hopen)
  | group body => exact .inr ⟨rfl, body, args, rfl⟩

end Expr

section

variable {Γ : List String} {text : List Char} {block : Block}

/-- An expression begins with an atom, which is not empty. -/
theorem not_derives_nil : ¬ Derives Γ [] := by
  rintro ⟨⟨head, args⟩, -, htext⟩
  rw [Expr.text, List.append_eq_nil_iff] at htext
  exact head.text_ne_nil htext.1

/-- The first block of an expression with the form of a binder is closed. -/
theorem cut_of_derives (hform : Form.of text = .binding) (h : Derives Γ text) :
    ∃ block, Block.cut text = .ok block := by
  obtain ⟨e, -, rfl⟩ := h
  rcases Expr.eq_block_of_form hform with ⟨-, n, body, args, rfl⟩ | ⟨-, body, args, rfl⟩
  · exact ⟨_, (Expr.cut_binder n body args).2⟩
  · exact ⟨_, (Expr.cut_group body args).2⟩

/-- A bare text can be derived exactly if it is a proper name. -/
theorem derives_bare (hform : Reader.HasForm text .bare) :
    Derives Γ text ↔ nameFault? text = none := by
  constructor
  · rintro ⟨e, -, rfl⟩
    obtain ⟨n, rfl⟩ := Expr.eq_name_of_form hform.2.2
    rw [Expr.text_atom]
    exact n.no_fault
  · intro hname
    refine ⟨.mk (.name (.ofChars text hname (Form.not_dot_of_bare hform.2.2))) [], .name _ _, ?_⟩
    rw [Expr.text_atom]
    rfl

/-- A binder: its name is legal and new, its arguments stand outside its scope and its body
    inside. -/
theorem derives_binding (hform : Reader.HasForm text .binding)
    (hcut : Block.cut text = .ok block) :
    Derives Γ text ↔ nameFault? block.head = none ∧ String.ofList block.head ∉ Γ ∧
      DerivesArgs Γ block.tail ∧ Derives (String.ofList block.head :: Γ) block.inner := by
  constructor
  · rintro ⟨e, hscoped, rfl⟩
    obtain ⟨-, n, body, args, rfl⟩ :=
      (Expr.eq_block_of_form hform.2.2).resolve_right fun h => hform.2.1 h.1
    rw [(Expr.cut_binder n body args).2, Except.ok.injEq] at hcut
    subst hcut
    cases hscoped with
    | binder hnew hbody hargs =>
      exact ⟨n.no_fault, hnew, ⟨args, hargs, rfl⟩, ⟨body, hbody, rfl⟩⟩
  · rintro ⟨hname, hnew, ⟨args, hargs, htail⟩, ⟨body, hbody, hinner⟩⟩
    have hdot := Expr.not_dot_of_cut hcut hform.2.2
    exact ⟨.mk (.binder (.ofChars block.head hname hdot) body) args, .binder hnew hbody hargs,
      Expr.text_binder_of_cut hcut hname hdot hinner htail⟩

/-- A block: what stands in it is an expression, and arguments follow. -/
theorem derives_group {rest : List Char} (hcut : Block.cut ('(' :: rest) = .ok block) :
    Derives Γ ('(' :: rest) ↔ DerivesArgs Γ block.tail ∧ Derives Γ block.inner := by
  constructor
  · rintro ⟨e, hscoped, htext⟩
    have hform : Form.of e.text = .binding := htext ▸ rfl
    have hopen : e.text.head? = some '(' := htext ▸ rfl
    obtain ⟨-, body, args, rfl⟩ := (Expr.eq_block_of_form hform).resolve_left fun h => h.1 hopen
    rw [← htext, (Expr.cut_group body args).2, Except.ok.injEq] at hcut
    subst hcut
    cases hscoped with
    | group hbody hargs => exact ⟨⟨args, hargs, rfl⟩, ⟨body, hbody, rfl⟩⟩
  · rintro ⟨⟨args, hargs, htail⟩, ⟨body, hbody, hinner⟩⟩
    exact ⟨.mk (.group body) args, .group hbody hargs, Expr.text_group_of_cut hcut hinner htail⟩

/-- A call: its name is legal and bound, and arguments follow. -/
theorem derives_call (hform : Reader.HasForm text .call) :
    Derives Γ text ↔ nameFault? (Reader.calledName text) = none ∧
      String.ofList (Reader.calledName text) ∈ Γ ∧
      DerivesArgs Γ (text.dropWhile fun c => c != '.') := by
  constructor
  · rintro ⟨e, hscoped, rfl⟩
    obtain ⟨n, a, args, rfl⟩ := Expr.eq_call_of_form hform.2.2
    have hspan := n.span_dot (argsText_cases (a :: args))
    rw [Reader.calledName, Expr.text, Atom.text, hspan.1, hspan.2]
    cases hscoped with
    | call hbound _ hargs => exact ⟨n.no_fault, hbound, ⟨a :: args, hargs, rfl⟩⟩
  · rintro ⟨hname, hbound, ⟨args, hargs, htail⟩⟩
    have htext := Expr.text_call_of_cut hname htail
    have hcall := hform.2.2
    rw [← htext] at hcall
    exact ⟨_, .call (n := .ofChars _ hname (Expr.not_dot_called text)) hbound
      (Expr.args_ne_nil_of_form hcall) hargs, htext⟩

/-- Nothing is derived as no arguments. -/
theorem derivesArgs_nil (Γ : List String) : DerivesArgs Γ [] :=
  ⟨[], fun _ h => absurd h List.not_mem_nil, rfl⟩

/-- Arguments that are not none are an argument behind a dot, and others behind it. -/
theorem DerivesArgs.eq_cons (h : DerivesArgs Γ text) (hne : text ≠ []) :
    ∃ (a : Atom) (args : List Atom), a.Scoped Γ ∧ (∀ b ∈ args, b.Scoped Γ) ∧
      text = '.' :: (a.text ++ argsText args) := by
  obtain ⟨args, hargs, rfl⟩ := h
  cases args with
  | nil => exact absurd rfl hne
  | cons a args =>
    rw [List.forall_mem_cons] at hargs
    exact ⟨a, args, hargs.1, hargs.2, rfl⟩

/-- Arguments are derived one by one. -/
theorem derivesArgs_cons {rest arg after : List Char}
    (hcut : Reader.cutArgument rest = .ok (arg, after)) :
    DerivesArgs Γ ('.' :: rest) ↔ Derives Γ arg ∧ DerivesArgs Γ after := by
  constructor
  · intro h
    obtain ⟨a, args, ha, hargs, htext⟩ := h.eq_cons (List.cons_ne_nil _ _)
    rw [List.cons.injEq] at htext
    rw [htext.2, cutArgument_text a (argsText_cases args), Except.ok.injEq, Prod.mk.injEq] at hcut
    obtain ⟨rfl, rfl⟩ := hcut
    exact ⟨⟨.mk a [], Expr.scoped_atom.mpr ha, Expr.text_atom a⟩, ⟨args, hargs, rfl⟩⟩
  · rintro ⟨⟨e, hscoped, rfl⟩, ⟨args, hargs, rfl⟩⟩
    obtain ⟨a, rfl⟩ := Expr.atom_of_cut hcut
    refine ⟨a :: args, List.forall_mem_cons.mpr ⟨Expr.scoped_atom.mp hscoped, hargs⟩, ?_⟩
    rw [append_of_cutArgument hcut, Expr.text_atom, argsText]

end

/-! ### Names that are bound -/

namespace Scope

variable {s s' : Scope} {name : String}

/-- A name is bound if a binder in sight has it. -/
theorem binds_iff : s.binds name = true ↔ name ∈ s.boundNames := by
  simp [binds, boundNames]

/-- A name is not found if no binder in sight has it. -/
theorem find?_eq_none_iff : s.find? name = none ↔ name ∉ s.boundNames := by
  simp [find?, boundNames]

/-- Reading leaves the names of the visible binders as they were. -/
theorem Grows.boundNames (hg : s.Grows s') (hs : s.Sound) : s'.boundNames = s.boundNames := by
  unfold Scope.boundNames
  rw [hg.stack]
  exact List.map_congr_left fun k hk => hg.nameOf k (hs.stack_lt k hk)

/-- A new binder adds its name to those that are bound. -/
theorem Sound.boundNames_bind {id : Nat} (hs : s.Sound) (h : s.bind name = (id, s')) :
    s'.boundNames = name :: s.boundNames := by
  obtain ⟨-, rfl⟩ := bind_cases h
  unfold Scope.boundNames
  rw [List.map_cons, nameOf_push_self]
  congr 1
  exact List.map_congr_left fun k hk => nameOf_push (hs.stack_lt k hk) name _ _

end Scope

/-! ### Places in a text -/

/-- A place in a text: what stands in front of the blocks that are open there, the innermost first,
    and the name that was begun last. -/
structure Place where
  blocks : List String := []
  word : List Char := []

namespace Place

/-- The place behind one more character. -/
def pass (p : Place) (c : Char) : Place :=
  if c = '(' then ⟨String.ofList p.word :: p.blocks, []⟩
  else if c = ')' then ⟨p.blocks.tail, []⟩
  else if c = '.' then ⟨p.blocks, []⟩
  else ⟨p.blocks, p.word ++ [c]⟩

/-- The place behind a text. -/
def behind (p : Place) (text : List Char) : Place :=
  text.foldl pass p

/-- The place behind two texts is reached through the place behind the first. -/
theorem behind_append (p : Place) (s t : List Char) : p.behind (s ++ t) = (p.behind s).behind t :=
  List.foldl_append

/-- Behind more of a name stands more of a name. -/
theorem behind_name {text : List Char} (h : ∀ c ∈ text, c ≠ '(' ∧ c ≠ ')' ∧ c ≠ '.') (p : Place) :
    p.behind text = ⟨p.blocks, p.word ++ text⟩ := by
  induction text generalizing p with
  | nil => simp [behind]
  | cons c text ih =>
    rw [List.forall_mem_cons] at h
    have hpass : p.pass c = ⟨p.blocks, p.word ++ [c]⟩ := by
      simp [pass, h.1]
    show (p.pass c).behind text = _
    rw [ih h.2, hpass, List.append_assoc, List.singleton_append]

/-- A text that is a legal name is more of a name. -/
theorem behind_ofChars {text : List Char} (hname : nameFault? text = none) (hdot : '.' ∉ text)
    (p : Place) : p.behind text = ⟨p.blocks, p.word ++ text⟩ := by
  have hlegal := (Name.ofChars text hname hdot).not_paren
  exact behind_name (fun c hc =>
    ⟨(hlegal c hc).1, (hlegal c hc).2, fun heq => hdot (heq ▸ hc)⟩) p

/-- The blocks that a text opens and closes again leave those around it as they are. -/
theorem behind_of_depthBehind {text : List Char} {depth : Nat} (inside Γ : List String)
    (word : List Char) (h : depthBehind inside.length text = some depth) :
    ∃ inside' word', inside'.length = depth ∧
      (⟨inside ++ Γ, word⟩ : Place).behind text = ⟨inside' ++ Γ, word'⟩ := by
  -- The blocks around are at the bottom of the stack, and the text closes only its own.
  induction text generalizing inside word with
  | nil =>
    cases h
    exact ⟨inside, word, rfl, rfl⟩
  | cons c text ih =>
    show ∃ inside' word', _ ∧ ((⟨inside ++ Γ, word⟩ : Place).pass c).behind text = _
    cases c using paren_cases with
    | opening =>
      rw [depthBehind_open] at h
      exact ih (String.ofList word :: inside) [] h
    | closing =>
      cases inside with
      | nil =>
        rw [List.length_nil, depthBehind_close_zero] at h
        cases h
      | cons name inside =>
        rw [List.length_cons, depthBehind_close] at h
        exact ih inside [] h
    | other c hopen hclose =>
      rw [depthBehind_other hopen hclose] at h
      by_cases hdot : c = '.'
      · subst hdot
        exact ih inside [] h
      · have hpass : (⟨inside ++ Γ, word⟩ : Place).pass c = ⟨inside ++ Γ, word ++ [c]⟩ := by
          simp [pass, hopen, hclose, hdot]
        rw [hpass]
        exact ih inside _ h

/-- Behind a balanced text, the same blocks are open as in front of it. -/
theorem behind_of_balanced {text : List Char} (h : Balanced text) (Γ : List String)
    (word : List Char) : ∃ word', (⟨Γ, word⟩ : Place).behind text = ⟨Γ, word'⟩ := by
  obtain ⟨inside, word', hlength, hbehind⟩ :=
    behind_of_depthBehind [] Γ word (balanced_iff.mp h)
  rw [List.length_eq_zero_iff] at hlength
  subst hlength
  exact ⟨word', hbehind⟩

/-- Behind the parenthesis that opens a block. -/
theorem behind_opening {block : Block} {text : List Char} (hcut : Block.cut text = .ok block)
    (hdot : '.' ∉ block.head) (Γ : List String) :
    (⟨Γ, []⟩ : Place).behind (block.head ++ ['(']) = ⟨String.ofList block.head :: Γ, []⟩ := by
  have hhead : ∀ c ∈ block.head, c ≠ '(' ∧ c ≠ ')' ∧ c ≠ '.' := fun c hc =>
    ⟨(Block.not_paren_of_cut hcut c hc).1, (Block.not_paren_of_cut hcut c hc).2,
      fun heq => hdot (heq ▸ hc)⟩
  rw [behind_append, behind_name hhead]
  rfl

/-- Behind the parenthesis that closes a block. -/
theorem behind_closing {block : Block} {text : List Char} (hcut : Block.cut text = .ok block)
    (hdot : '.' ∉ block.head) (Γ : List String) :
    (⟨Γ, []⟩ : Place).behind (block.head ++ '(' :: (block.inner ++ [')'])) = ⟨Γ, []⟩ := by
  obtain ⟨word, hinner⟩ :=
    behind_of_balanced (Block.balanced_of_cut hcut) (String.ofList block.head :: Γ) []
  have hsplit : block.head ++ '(' :: (block.inner ++ [')'])
      = (block.head ++ ['(']) ++ (block.inner ++ [')']) := by
    simp
  rw [hsplit, behind_append, behind_opening hcut hdot, behind_append, hinner]
  rfl

end Place

/-- Somewhere in the text, from the place `p` on, the name `n` stands in front of a block while a
    block of that name is open. -/
def Rebinds (p : Place) (text : List Char) (n : Name) : Prop :=
  ∃ before after, text = before ++ '(' :: after ∧
    (p.behind before).word = n.chars ∧ n.word ∈ (p.behind before).blocks

namespace Rebinds

variable {p : Place} {text : List Char} {n : Name}

/-- A name that is bound again in a part is so in the whole, read from further in front. -/
theorem append_left (start : List Char) (h : Rebinds (p.behind start) text n) :
    Rebinds p (start ++ text) n := by
  obtain ⟨before, after, rfl, hword, hblocks⟩ := h
  rw [← Place.behind_append] at hword hblocks
  exact ⟨start ++ before, after, (List.append_assoc _ _ _).symm, hword, hblocks⟩

/-- What follows makes no difference. -/
theorem append_right (h : Rebinds p text n) (rest : List Char) : Rebinds p (text ++ rest) n := by
  obtain ⟨before, after, rfl, hword, hblocks⟩ := h
  exact ⟨before, after ++ rest, by simp, hword, hblocks⟩

variable {block : Block} {Γ : List String}

/-- What is bound twice in a block is bound twice in the text. -/
theorem of_inner (hcut : Block.cut text = .ok block) (hdot : '.' ∉ block.head)
    (h : Rebinds ⟨String.ofList block.head :: Γ, []⟩ block.inner n) : Rebinds ⟨Γ, []⟩ text n := by
  rw [← Place.behind_opening hcut hdot] at h
  have htext : text = (block.head ++ ['(']) ++ block.inner ++ ')' :: block.tail := by
    rw [Block.text_eq_of_cut hcut]
    simp
  rw [htext]
  exact (h.append_left _).append_right _

/-- What is bound twice behind a block is bound twice in the text. -/
theorem of_tail (hcut : Block.cut text = .ok block) (hdot : '.' ∉ block.head)
    (h : Rebinds ⟨Γ, []⟩ block.tail n) : Rebinds ⟨Γ, []⟩ text n := by
  rw [← Place.behind_closing hcut hdot] at h
  have htext : text = (block.head ++ '(' :: (block.inner ++ [')'])) ++ block.tail := by
    rw [Block.text_eq_of_cut hcut]
    simp
  rw [htext]
  exact h.append_left _

end Rebinds

/-! ### Outcomes -/

/-- What an outcome has to do with the grammar: there is a result if the text is `derived`, and only
    then; and an error about a name that is bound twice is right about it. -/
structure Judged {α : Type} (s : Scope) (derived : Prop) (rebinds : Name → Prop)
    (outcome : Except ReadError α) (s' : Scope) : Prop where
  sound : s'.Sound
  grows : s.Grows s'
  accepts : (∃ a, outcome = .ok a) ↔ derived
  rebound : ∀ name, outcome = .error (.rebound name) → ∃ n : Name, n.word = name ∧ rebinds n

/-- The judgement of an expression, at any place where the visible binders have their blocks open.
    Blocks without a name may be open there too. -/
abbrev JudgedExpr (text : List Char) (s : Scope) (outcome : Except ReadError Term) (s' : Scope) :
    Prop :=
  Judged s (Derives s.boundNames text)
    (fun n => ∀ blocks, s.boundNames ⊆ blocks → Rebinds ⟨blocks, []⟩ text n) outcome s'

/-- The judgement of arguments, whatever stands in front of their first dot. -/
abbrev JudgedArgs (text : List Char) (s : Scope) (outcome : Except ReadError (List Term))
    (s' : Scope) : Prop :=
  Judged s (DerivesArgs s.boundNames text)
    (fun n => ∀ blocks word, s.boundNames ⊆ blocks → Rebinds ⟨blocks, word⟩ text n) outcome s'

namespace Judged

variable {α : Type} {s s' : Scope} {derived derived' : Prop} {rebinds rebinds' : Name → Prop}

/-- A result, where the text is derived. -/
theorem accept {a : α} (hs : s'.Sound) (hg : s.Grows s') (h : derived) :
    Judged s derived rebinds (.ok a) s' :=
  ⟨hs, hg, ⟨fun _ => h, fun _ => ⟨a, rfl⟩⟩, nofun⟩

/-- A syntax error, where it is not. -/
theorem refuse {fault : Fault} {text : List Char} (hs : s'.Sound) (hg : s.Grows s')
    (h : ¬ derived) : Judged s derived rebinds (.error (.on fault text) : Except ReadError α) s' :=
  ⟨hs, hg, ⟨nofun, fun hd => absurd hd h⟩, nofun⟩

/-- The error of a part is the error of the text. -/
theorem fail {β : Type} {e : ReadError}
    (h : Judged s derived rebinds (.error e : Except ReadError β) s') (hd : derived' → derived)
    (hr : ∀ n, rebinds n → rebinds' n) :
    Judged s derived' rebinds' (.error e : Except ReadError α) s' where
  sound := h.sound
  grows := h.grows
  accepts := by
    refine ⟨nofun, fun hderived => ?_⟩
    obtain ⟨b, hb⟩ := h.accepts.mpr (hd hderived)
    cases hb
  rebound := by
    intro name hname
    cases hname
    obtain ⟨n, hword, hn⟩ := h.rebound name rfl
    exact ⟨n, hword, hr n hn⟩

end Judged

section

variable {text rest : List Char} {block : Block} {s s₁ s₂ s₃ : Scope} {e : ReadError}

/-- Texts that are refused for themselves are not derived. -/
theorem JudgedExpr.refused (h : Reader.Refused text s e) (hs : s.Sound) :
    JudgedExpr text s (.error e) s := by
  -- A text with the form of a binder falls apart at its block, if it is derived at all.
  have hbinding {text : List Char} (hform : Reader.HasForm text .binding)
      (hd : Derives s.boundNames text) :
      nameFault? (Reader.binderName text) = none ∧
        String.ofList (Reader.binderName text) ∉ s.boundNames := by
    obtain ⟨block, hcut⟩ := cut_of_derives hform.2.2 hd
    obtain ⟨hname, hnew, -⟩ := (derives_binding hform hcut).mp hd
    rw [Block.head_of_cut hcut] at hname hnew
    exact ⟨hname, hnew⟩
  cases h with
  | empty => exact .refuse hs (.refl s) not_derives_nil
  | group _ hcut =>
    refine .refuse hs (.refl s) fun hd => ?_
    obtain ⟨block, hblock⟩ := cut_of_derives rfl hd
    rw [hcut] at hblock
    cases hblock
  | bare _ hform hname =>
    refine .refuse hs (.refl s) fun hd => ?_
    rw [(derives_bare hform).mp hd] at hname
    cases hname
  | binder _ hform hname =>
    refine .refuse hs (.refl s) fun hd => ?_
    rw [(hbinding hform hd).1] at hname
    cases hname
  | rebound hform hname hbound =>
    rw [Scope.binds_iff] at hbound
    refine ⟨hs, .refl s, ⟨nofun, fun hd => absurd hbound (hbinding hform hd).2⟩, fun _ h => ?_⟩
    cases h
    have hdot := Form.not_dot_of_binding hform.2.2
    have hplace (blocks : List String) :
        (⟨blocks, []⟩ : Place).behind (Reader.binderName text)
          = ⟨blocks, Reader.binderName text⟩ := Place.behind_ofChars hname hdot _
    obtain ⟨head, tail, htext, hhead⟩ := Form.of_eq_binding.mp hform.2.2
    have hstop : Reader.binderName text = head := by
      rw [Reader.binderName, htext,
        List.takeWhile_append_of_pos fun c hc => by simpa using (hhead c hc).1]
      simp
    refine ⟨.ofChars _ hname hdot, rfl, fun blocks hblocks =>
      ⟨Reader.binderName text, tail, ?_, ?_, ?_⟩⟩
    · rw [hstop]
      exact htext
    · rw [hplace]
      rfl
    · rw [hplace]
      exact hblocks hbound
  | block hform hname hnew hcut =>
    refine .refuse hs (.refl s) fun hd => ?_
    obtain ⟨block, hblock⟩ := cut_of_derives hform.2.2 hd
    rw [hcut] at hblock
    cases hblock
  | call _ hform hname =>
    refine .refuse hs (.refl s) fun hd => ?_
    rw [((derives_call hform).mp hd).1] at hname
    cases hname

/-- Arguments that are refused cannot be derived. -/
theorem JudgedArgs.refused {whole : List Char} (h : Reader.RefusedList whole text e)
    (hs : s.Sound) : JudgedArgs text s (.error e) s := by
  cases h with
  | missing =>
    refine .refuse hs (.refl s) fun hd => ?_
    obtain ⟨a, args, -, -, htext⟩ := hd.eq_cons (List.cons_ne_nil _ _)
    rw [List.cons.injEq] at htext
    exact a.text_ne_nil (List.append_eq_nil_iff.mp htext.2.symm).1
  | block hcut =>
    refine .refuse hs (.refl s) fun hd => ?_
    obtain ⟨a, args, -, -, htext⟩ := hd.eq_cons (List.cons_ne_nil _ _)
    rw [List.cons.injEq] at htext
    rw [htext.2, cutArgument_text a (argsText_cases args)] at hcut
    cases hcut
  | dot hne hstart =>
    refine .refuse hs (.refl s) fun hd => ?_
    obtain ⟨a, args, -, -, rfl⟩ := hd.eq_cons hne
    exact hstart rfl

/-- A binder with arguments that are read is judged by its body. -/
theorem JudgedExpr.binding {args : List Term} {id : Nat} {body : Except ReadError Term}
    (hform : Reader.HasForm text .binding) (hcut : Block.cut text = .ok block)
    (hname : nameFault? block.head = none) (hnew : s.binds (String.ofList block.head) = false)
    (hs : s.Sound) (hargs : JudgedArgs block.tail s (.ok args) s₁)
    (hid : s₁.bind (String.ofList block.head) = (id, s₂))
    (hbody : JudgedExpr block.inner s₂ body s₃) (f : Term → Term) :
    JudgedExpr text s (body.map f) s₃.leave := by
  -- In the body the binder is bound beside what was bound before the arguments.
  have hbound : s₂.boundNames = String.ofList block.head :: s.boundNames := by
    rw [hargs.sound.boundNames_bind hid, hargs.grows.boundNames hs]
  have hnew : String.ofList block.head ∉ s.boundNames := by
    rw [← Scope.binds_iff, hnew]
    exact Bool.false_ne_true
  have hdot := Expr.not_dot_of_cut hcut hform.2.2
  have haccepts := hbody.accepts
  have hrebound := hbody.rebound
  rw [hbound] at haccepts hrebound
  refine ⟨hbody.sound.leave, hargs.grows.trans (.leave hid hbody.grows), ?_, ?_⟩
  · rw [derives_binding hform hcut, ← haccepts]
    constructor
    · rintro ⟨t, ht⟩
      cases body with
      | error e => cases ht
      | ok b => exact ⟨hname, hnew, hargs.accepts.mp ⟨args, rfl⟩, b, rfl⟩
    · rintro ⟨-, -, -, b, rfl⟩
      exact ⟨f b, rfl⟩
  · intro name h
    cases body with
    | ok b => cases h
    | error e =>
      cases h
      obtain ⟨n, hword, hn⟩ := hrebound name rfl
      exact ⟨n, hword, fun blocks hblocks =>
        (hn _ (List.cons_subset_cons _ hblocks)).of_inner hcut hdot⟩

/-- A block with arguments that are read is judged by what stands in it. -/
theorem JudgedExpr.group {args : List Term} {inner : Except ReadError Term}
    (hcut : Block.cut ('(' :: rest) = .ok block) (hs : s.Sound)
    (hargs : JudgedArgs block.tail s (.ok args) s₁) (hinner : JudgedExpr block.inner s₁ inner s₂) :
    JudgedExpr ('(' :: rest) s inner s₂ := by
  have hhead : block.head = [] := Block.head_of_cut hcut
  have haccepts := hinner.accepts
  have hrebound := hinner.rebound
  rw [hargs.grows.boundNames hs] at haccepts hrebound
  refine ⟨hinner.sound, hargs.grows.trans hinner.grows, ?_, ?_⟩
  · rw [derives_group hcut, haccepts]
    exact ⟨fun h => ⟨hargs.accepts.mp ⟨args, rfl⟩, h⟩, fun h => h.2⟩
  · intro name h
    obtain ⟨n, hword, hn⟩ := hrebound name h
    refine ⟨n, hword, fun blocks hblocks => ?_⟩
    exact (hn _ (List.subset_cons_of_subset _ hblocks)).of_inner hcut (hhead ▸ List.not_mem_nil)

/-- Arguments are judged one after the other. -/
theorem JudgedArgs.cons {arg after : List Char} {t : Term} {ts : Except ReadError (List Term)}
    (hcut : Reader.cutArgument rest = .ok (arg, after)) (hs : s.Sound)
    (harg : JudgedExpr arg s (.ok t) s₁) (hafter : JudgedArgs after s₁ ts s₂) :
    JudgedArgs ('.' :: rest) s (ts.map (t :: ·)) s₂ := by
  have hderives := harg.accepts.mp ⟨t, rfl⟩
  have haccepts := hafter.accepts
  have hrebound := hafter.rebound
  rw [harg.grows.boundNames hs] at haccepts hrebound
  refine ⟨hafter.sound, harg.grows.trans hafter.grows, ?_, ?_⟩
  · rw [derivesArgs_cons hcut, ← haccepts]
    constructor
    · rintro ⟨us, hus⟩
      cases ts with
      | error e => cases hus
      | ok ts => exact ⟨hderives, ts, rfl⟩
    · rintro ⟨-, ts, rfl⟩
      exact ⟨t :: ts, rfl⟩
  · intro name h
    cases ts with
    | ok ts => cases h
    | error e =>
      cases h
      obtain ⟨n, hword, hn⟩ := hrebound name rfl
      refine ⟨n, hword, fun blocks word hblocks => ?_⟩
      -- The argument that was read has closed all the blocks that it opened.
      obtain ⟨tree, -, rfl⟩ := hderives
      obtain ⟨word', hplace⟩ := Place.behind_of_balanced tree.balanced blocks []
      have hlater := hn blocks word' hblocks
      rw [← hplace] at hlater
      rw [append_of_cutArgument hcut]
      exact Rebinds.append_left ['.'] (hlater.append_left _)

end

/-- **Outcomes.** All that is read, and all that is refused, is judged by the grammar. -/
theorem judged_covers : Reader.Covers
    (fun text s _ outcome s' => s.Sound → JudgedExpr text s outcome s')
    (fun _ text s outcome s' => s.Sound → JudgedArgs text s outcome s') where
  refused _ h := .refused h
  bare hform hname hid := by
    intro hs
    obtain ⟨hsound, hgrows, -⟩ := hs.resolve hid
    exact .accept hsound hgrows ((derives_bare hform).mpr hname)
  binding hform hcut hname hnew hargs hid hbody := by
    intro hs
    have hjudged := hargs hs
    exact .binding hform hcut hname hnew hs hjudged hid (hbody (hjudged.sound.bind hid)) _
  bindingArgs _ hform hcut _ _ hargs := by
    intro hs
    have hdot := Expr.not_dot_of_cut hcut hform.2.2
    exact (hargs hs).fail (fun hd => ((derives_binding hform hcut).mp hd).2.2.1)
      fun n hn blocks hblocks => (hn blocks [] hblocks).of_tail hcut hdot
  call {text s s₁ _ _ _} hform hname hargs hid := by
    intro hs
    have hjudged := hargs hs
    -- Reading the arguments has bound nothing that is left, so that the name was bound before them.
    have hbound : String.ofList (Reader.calledName text) ∈ s.boundNames := by
      rw [← hjudged.grows.boundNames hs]
      by_contra hnone
      rw [Scope.find?_eq_none_iff.mpr hnone] at hid
      cases hid
    exact .accept hjudged.sound hjudged.grows
      ((derives_call hform).mpr ⟨hname, hbound, hjudged.accepts.mp ⟨_, rfl⟩⟩)
  unknown _ hform _ hargs hid := by
    intro hs
    have hjudged := hargs hs
    rw [Scope.find?_eq_none_iff, hjudged.grows.boundNames hs] at hid
    exact .refuse hjudged.sound hjudged.grows fun hd => hid ((derives_call hform).mp hd).2.1
  callArgs {text _ _ _} _ hform hname hargs := by
    intro hs
    refine (hargs hs).fail (fun hd => ((derives_call hform).mp hd).2.2)
      fun n hn blocks hblocks => ?_
    -- What is rebound in the arguments is behind the called name in the text.
    have hplace := Place.behind_ofChars hname (Expr.not_dot_called text) ⟨blocks, []⟩
    have hlater := hn blocks ([] ++ Reader.calledName text) hblocks
    rw [← List.takeWhile_append_dropWhile (p := fun c => c != '.') (l := text)]
    exact Rebinds.append_left _ (hplace ▸ hlater)
  group hcut hargs hinner := by
    intro hs
    have hjudged := hargs hs
    exact .group hcut hs hjudged (hinner hjudged.sound)
  groupArgs _ hcut hargs := by
    intro hs
    have hhead := Block.head_of_cut hcut
    exact (hargs hs).fail (fun hd => ((derives_group hcut).mp hd).1)
      fun n hn blocks hblocks => (hn blocks [] hblocks).of_tail hcut (hhead ▸ List.not_mem_nil)
  nil _ s := fun hs => .accept hs (.refl s) (derivesArgs_nil _)
  refusedList _ h := .refused h
  cons hcut harg hafter := by
    intro hs
    have hjudged := harg hs
    exact .cons hcut hs hjudged (hafter hjudged.sound)
  arg _ hcut harg := by
    intro hs
    refine (harg hs).fail (fun hd => ((derivesArgs_cons hcut).mp hd).1)
      fun n hn blocks word hblocks => ?_
    rw [append_of_cutArgument hcut]
    exact Rebinds.append_left ['.'] ((hn blocks hblocks).append_right _)

/-- **The grammar.** A text is a program if without its white space it is the text of a tree that is
    well scoped on its own, and only then.  Any other text is refused with a syntax error, or with
    an error about a name that is bound where a block of that name is open already. -/
theorem parse_accepts_grammar (text : List Char) :
    ((∃ t names, parse text = .ok (t, names)) ↔
      ∃ e : Expr, e.Scoped [] ∧ e.text = removeBlanks text) ∧
    ∀ error, parse text = .error error →
      (∃ fault, error = .malformed fault) ∨
      ∃ n : Name, error = .rebound n.word ∧
        ∃ before after, removeBlanks text = before ++ '(' :: after ∧
          (Place.behind {} before).word = n.chars ∧ n.word ∈ (Place.behind {} before).blocks := by
  obtain ⟨outcome, s, hparse, ⟨hempty, rfl⟩ | hjudged⟩ := parse_covers judged_covers text
  · rw [hparse, hempty]
    refine ⟨⟨nofun, fun hd => absurd hd not_derives_nil⟩, fun error h => ?_⟩
    cases h
    exact .inl ⟨_, rfl⟩
  · have hjudged := hjudged Scope.sound_empty
    rw [hparse]
    refine ⟨?_, fun error h => ?_⟩
    · refine Iff.trans ⟨?_, ?_⟩ hjudged.accepts
      · rintro ⟨t, names, h⟩
        cases outcome with
        | error e => cases h
        | ok t => exact ⟨t, rfl⟩
      · rintro ⟨t, rfl⟩
        exact ⟨t, s.table, rfl⟩
    · cases outcome with
      | ok t => cases h
      | error e =>
        cases h
        cases error with
        | malformed fault => exact .inl ⟨fault, rfl⟩
        | rebound name =>
          obtain ⟨n, rfl, hn⟩ := hjudged.rebound name rfl
          exact .inr ⟨n, rfl, hn [] (List.Subset.refl _)⟩

end DotLambda
