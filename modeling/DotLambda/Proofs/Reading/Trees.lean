import DotLambda.Proofs.Lambda.Beta
import DotLambda.Proofs.Reading.Blocks
import DotLambda.Reader

namespace DotLambda

/-!
# Reading — expression trees

What texts without white space are made of, and what they mean.

* `Name` — the legal names;
* `Atom`, `Expr` — a name, a binder with its scope or a block, and arguments behind it;
* `Expr.text` — the text of a tree;
* `Expr.reading` — its lexically scoped reading as a plain λ-term;
* `Expr.balanced`, `cutArgument_text` — blocks and arguments end where the tree says they do;
* `Expr.text_binder_of_cut`, `Expr.text_group_of_cut`, `Expr.text_call_of_cut` — the tree of a text
  from the trees of the parts at which it is cut;
* `Expr.text_injective` — a text has one tree at most, so that it has one reading.
-/

/-! ### Trees -/

/-- A legal name: not empty, and without the characters that give texts their structure. -/
@[ext]
structure Name where
  chars : List Char
  nonempty : chars ≠ []
  legal : ∀ c ∈ chars, c ∉ ['(', ')', '.', ',', ';']

/-- The name as a word. -/
def Name.word (n : Name) : String :=
  String.ofList n.chars

mutual

/-- What an expression begins with, and what its arguments are. -/
inductive Atom where
  /-- A name by itself. -/
  | name (n : Name)
  /-- `n(body)`, the binder of `n` with its scope. -/
  | binder (n : Name) (body : Expr)
  /-- `(body)`. -/
  | group (body : Expr)

/-- An atom and the arguments behind it: `head.a.b`. -/
inductive Expr where
  | mk (head : Atom) (args : List Atom)

end

/-- Trees by their heads: what holds of a tree as soon as it holds of the block in its head and of
    its arguments holds of every tree. -/
@[induction_eliminator]
theorem Expr.induct {P : Expr → Prop}
    (name : ∀ n args, (∀ a ∈ args, P (.mk a [])) → P (.mk (.name n) args))
    (binder : ∀ n body args, P body → (∀ a ∈ args, P (.mk a [])) → P (.mk (.binder n body) args))
    (group : ∀ body args, P body → (∀ a ∈ args, P (.mk a [])) → P (.mk (.group body) args))
    (e : Expr) : P e := by
  -- An atom is taken with any arguments that may stand behind it.
  have none : ∀ a ∈ ([] : List Atom), P (.mk a []) := fun a h => absurd h List.not_mem_nil
  refine @Expr.rec (fun h => ∀ args, (∀ a ∈ args, P (.mk a [])) → P (.mk h args)) P
    (fun args => ∀ a ∈ args, P (.mk a [])) ?_ ?_ ?_ ?_ ?_ ?_ e
  · exact fun n args hargs => name n args hargs
  · exact fun n body hbody args hargs => binder n body args hbody hargs
  · exact fun body hbody args hargs => group body args hbody hargs
  · exact fun head args hhead hargs => hhead args hargs
  · exact none
  · exact fun a args ha hargs => List.forall_mem_cons.mpr ⟨ha [] none, hargs⟩

/-! ### Texts -/

mutual

/-- The text of an atom. -/
def Atom.text : Atom → List Char
  | .name n => n.chars
  | .binder n body => n.chars ++ '(' :: (body.text ++ [')'])
  | .group body => '(' :: (body.text ++ [')'])

/-- The text of a tree: its head, and its arguments behind a dot each. -/
def Expr.text : Expr → List Char
  | .mk head args => head.text ++ argsText args

/-- The text of arguments, each behind a dot. -/
def argsText : List Atom → List Char
  | [] => []
  | a :: args => '.' :: (a.text ++ argsText args)

end

/-! ### Readings -/

mutual

/-- What an atom means, where `Γ` says what names mean.  A binder is an abstraction, in the body of
    which its name means its variable. -/
def Atom.reading {α : Type} : Atom → (String → Lambda α) → Lambda α
  | .name n, Γ => Γ n.word
  | .binder n body, Γ => .lam (body.reading (Lambda.enter Γ n.word))
  | .group body, Γ => body.reading Γ

/-- What a tree means: its head applied to its arguments from left to right, all of them read in
    the scope where the tree stands. -/
def Expr.reading {α : Type} : Expr → (String → Lambda α) → Lambda α
  | .mk head args, Γ => (head.reading Γ).apply (argsReading args Γ)

/-- What arguments mean. -/
def argsReading {α : Type} : List Atom → (String → Lambda α) → List (Lambda α)
  | [], _ => []
  | a :: args, Γ => a.reading Γ :: argsReading args Γ

end

/-! ### Forms -/

/-- A text has the form of a binder with its scope if its first parenthesis opens, and comes before
    any dot. -/
theorem Form.of_eq_binding {text : List Char} :
    Form.of text = .binding ↔
      ∃ head tail, text = head ++ '(' :: tail ∧ ∀ c ∈ head, c ≠ '(' ∧ c ≠ '.' := by
  constructor
  · intro h
    unfold Form.of at h
    split at h
    · cases h
    · rename_i c hfind
      split at h
      · rename_i hc
        subst hc
        obtain ⟨-, head, tail, htext, hhead⟩ := List.find?_eq_some_iff_append.mp hfind
        refine ⟨head, tail, htext, fun c hc => ?_⟩
        simpa using hhead c hc
      · cases h
  · rintro ⟨head, tail, rfl, hhead⟩
    have hfind : (head ++ '(' :: tail).find? (fun c => c == '(' || c == '.') = some '(' := by
      refine List.find?_eq_some_iff_append.mpr ⟨rfl, head, tail, rfl, fun c hc => ?_⟩
      simpa using hhead c hc
    rw [Form.of, hfind]
    rfl

/-- A text that has the form of a name by itself has no dot. -/
theorem Form.not_dot_of_bare {text : List Char} (h : Form.of text = .bare) : '.' ∉ text := by
  intro hdot
  unfold Form.of at h
  split at h
  · rename_i hnone
    exact absurd (List.find?_eq_none.mp hnone '.' hdot) (by decide)
  · split at h
    · cases h
    · cases h

/-- The name of a binder has no dot. -/
theorem Form.not_dot_of_binding {text : List Char} (h : Form.of text = .binding) :
    '.' ∉ text.takeWhile fun c => c != '(' := by
  obtain ⟨head, tail, rfl, hhead⟩ := Form.of_eq_binding.mp h
  rw [List.takeWhile_append_of_pos fun c hc => by simpa using (hhead c hc).1]
  simpa using fun hdot => (hhead '.' hdot).2 rfl

/-! ### Names in texts -/

namespace Name

variable (n : Name)

/-- There is no parenthesis in a name. -/
theorem not_paren : ∀ c ∈ n.chars, c ≠ '(' ∧ c ≠ ')' := by
  intro c hc
  have hlegal := n.legal c hc
  simp only [List.mem_cons, not_or] at hlegal
  exact ⟨hlegal.1, hlegal.2.1⟩

/-- There is no dot in a name. -/
theorem not_dot : ∀ c ∈ n.chars, c ≠ '.' := by
  intro c hc
  have hlegal := n.legal c hc
  simp only [List.mem_cons, not_or] at hlegal
  exact hlegal.2.2.1

/-- What a name has in front of it does not matter to the form of a text. -/
theorem find?_append (rest : List Char) :
    (n.chars ++ rest).find? (fun c => c == '(' || c == '.')
      = rest.find? fun c => c == '(' || c == '.' := by
  have hnone : n.chars.find? (fun c => c == '(' || c == '.') = none := by
    rw [List.find?_eq_none]
    intro c hc
    simp [(n.not_paren c hc).1, n.not_dot c hc]
  rw [List.find?_append, hnone, Option.none_or]

/-- A name alone is bare. -/
theorem form_bare : Form.of n.chars = .bare := by
  have h := n.find?_append []
  rw [List.append_nil] at h
  rw [Form.of, h]
  rfl

/-- A name in front of a parenthesis is a binding. -/
theorem form_binding (rest : List Char) : Form.of (n.chars ++ '(' :: rest) = .binding := by
  rw [Form.of, n.find?_append]
  rfl

/-- A name in front of a dot is a call. -/
theorem form_call (rest : List Char) : Form.of (n.chars ++ '.' :: rest) = .call := by
  rw [Form.of, n.find?_append]
  rfl

/-- A name ends at the first dot. -/
theorem span_dot {rest : List Char} (hrest : rest = [] ∨ ∃ tail, rest = '.' :: tail) :
    (n.chars ++ rest).takeWhile (fun c => c != '.') = n.chars ∧
      (n.chars ++ rest).dropWhile (fun c => c != '.') = rest := by
  have hname : ∀ c ∈ n.chars, (c != '.') = true := fun c hc => by simpa using n.not_dot c hc
  rw [List.takeWhile_append_of_pos hname, List.dropWhile_append_of_pos hname]
  rcases hrest with rfl | ⟨tail, rfl⟩
  · simp
  · simp

/-- The legal names are those in which the reader finds no fault and that hold no dot. -/
def ofChars (text : List Char) (h : nameFault? text = none) (hdot : '.' ∉ text) : Name where
  chars := text
  nonempty := by
    rintro rfl
    exact absurd h (by decide)
  legal := by
    intro c hc hbad
    have hfault : text.any isReserved = false := by
      unfold nameFault? at h
      split at h
      · cases h
      · split at h
        · cases h
        · rename_i hany
          simpa using hany
    have hc' := List.any_eq_false.mp hfault c hc
    simp only [List.mem_cons, List.not_mem_nil, or_false] at hbad
    rcases hbad with rfl | rfl | rfl | rfl | rfl
    · exact hc' rfl
    · exact hc' rfl
    · exact hdot hc
    · exact hc' rfl
    · exact hc' rfl

end Name

/-! ### Arguments -/

/-- The arguments are text behind a dot, if there are any. -/
theorem argsText_cases (args : List Atom) :
    argsText args = [] ∨ ∃ tail, argsText args = '.' :: tail := by
  cases args with
  | nil => exact .inl rfl
  | cons a args => exact .inr ⟨_, rfl⟩

/-- An atom alone is written as itself. -/
theorem Expr.text_atom (a : Atom) : (Expr.mk a []).text = a.text := by
  rw [Expr.text, argsText, List.append_nil]

/-- Arguments of balanced atoms are balanced. -/
theorem balanced_argsText {args : List Atom} (h : ∀ a ∈ args, Balanced (Expr.mk a []).text) :
    Balanced (argsText args) := by
  induction args with
  | nil => exact fun _ _ _ => rfl
  | cons a args ih =>
    rw [List.forall_mem_cons, Expr.text_atom] at h
    have hdot : Balanced ['.'] := balanced_of_not_paren (by simp)
    exact hdot.append (h.1.append (ih h.2))

/-- The parentheses of a tree are balanced. -/
theorem Expr.balanced (e : Expr) : Balanced e.text := by
  induction e with
  | name n args hargs =>
    exact (balanced_of_not_paren n.not_paren).append (balanced_argsText hargs)
  | binder n body args hbody hargs =>
    exact ((balanced_of_not_paren n.not_paren).append hbody.block).append (balanced_argsText hargs)
  | group body args hbody hargs => exact hbody.block.append (balanced_argsText hargs)

/-- With or without a name in front of it, a block is one argument. -/
theorem cutArgument_block {head inner rest : List Char} (hhead : ∀ c ∈ head, c ≠ '(' ∧ c ≠ ')')
    (hinner : Balanced inner) (hform : Form.of (head ++ '(' :: (inner ++ ')' :: rest)) = .binding) :
    Reader.cutArgument (head ++ '(' :: (inner ++ ')' :: rest))
      = .ok (head ++ '(' :: (inner ++ [')']), rest) := by
  have hsplit : head ++ '(' :: (inner ++ ')' :: rest)
      = (head ++ '(' :: (inner ++ [')'])) ++ rest := by
    simp
  have hlength : head.length + 1 + inner.length + 1
      = (head ++ '(' :: (inner ++ [')'])).length := by
    simp only [List.length_append, List.length_cons, List.length_nil]
    omega
  unfold Reader.cutArgument
  rw [hform]
  simp only [blockEnd_of_balanced hhead hinner, hlength]
  rw [hsplit, List.take_left, List.drop_left]

/-- An argument is cut off where it ends. -/
theorem cutArgument_text (a : Atom) {rest : List Char}
    (hrest : rest = [] ∨ ∃ tail, rest = '.' :: tail) :
    Reader.cutArgument (a.text ++ rest) = .ok (a.text, rest) := by
  cases a with
  | name n =>
    obtain ⟨htake, hdrop⟩ := n.span_dot hrest
    have hform : Form.of (n.chars ++ rest) ≠ .binding := by
      rcases hrest with rfl | ⟨tail, rfl⟩
      · rw [List.append_nil, n.form_bare]
        decide
      · rw [n.form_call]
        decide
    unfold Reader.cutArgument Atom.text
    split
    · contradiction
    · rw [htake, hdrop]
  | binder n body =>
    have h := cutArgument_block n.not_paren body.balanced
      (n.form_binding (body.text ++ ')' :: rest))
    simpa [Atom.text] using h
  | group body =>
    have hnone : ∀ c ∈ ([] : List Char), c ≠ '(' ∧ c ≠ ')' := by simp
    have hform : Form.of ([] ++ '(' :: (body.text ++ ')' :: rest)) = .binding := rfl
    have h := cutArgument_block hnone body.balanced hform
    simpa [Atom.text] using h

/-- What is cut off as an argument has nothing to cut off behind it. -/
theorem cutArgument_self {text arg rest : List Char}
    (h : Reader.cutArgument text = .ok (arg, rest)) :
    Reader.cutArgument arg = .ok (arg, []) := by
  unfold Reader.cutArgument at h
  split at h
  · rename_i hform
    split at h
    · cases h
    · rename_i n hn
      obtain ⟨before, after, rfl, rfl, hopen, hstop⟩ := closeFrom_split hn
      have hlength : 0 + before.length + 1 = (before ++ [')']).length := by
        simp
      have hsplit : before ++ ')' :: after = (before ++ [')']) ++ after := by
        simp
      have hcut : arg = before ++ [')'] := by
        cases h
        rw [hlength, hsplit, List.take_left]
      subst hcut
      -- The form is decided by a character in front of the closing parenthesis.
      have hform' : Form.of (before ++ [')']) = .binding := by
        obtain ⟨c, hc⟩ := Option.isSome_iff_exists.mp
          (List.find?_isSome.mpr ⟨'(', hopen rfl, by decide⟩ :
            (before.find? fun c => c == '(' || c == '.').isSome = true)
        have hsame : ∀ rest, Form.of (before ++ rest) = if c = '(' then .binding else .call := by
          intro rest
          rw [Form.of, List.find?_append, hc]
          rfl
        rw [hsame] at hform ⊢
        exact hform
      unfold Reader.cutArgument
      rw [hform', blockEnd, hstop []]
      simp only [hlength, List.take_length, List.drop_length]
  · rename_i hform
    cases h
    have hform' : Form.of (text.takeWhile fun c => c != '.') ≠ .binding := by
      intro hbinding
      obtain ⟨head, tail, htake, hhead⟩ := Form.of_eq_binding.mp hbinding
      refine hform (Form.of_eq_binding.mpr
        ⟨head, tail ++ text.dropWhile fun c => c != '.', ?_, hhead⟩)
      rw [← List.cons_append, ← List.append_assoc, ← htake, List.takeWhile_append_dropWhile]
    have hall : ∀ c ∈ text.takeWhile (fun c => c != '.'), (c != '.') = true := fun c hc =>
      List.mem_takeWhile_imp (p := fun c => c != '.') hc
    unfold Reader.cutArgument
    split
    · contradiction
    · rw [List.takeWhile_eq_self_iff.mpr hall, List.dropWhile_eq_nil_iff.mpr hall]

/-- Nothing is lost when an argument is cut off. -/
theorem append_of_cutArgument {text arg rest : List Char}
    (h : Reader.cutArgument text = .ok (arg, rest)) : text = arg ++ rest := by
  unfold Reader.cutArgument at h
  split at h
  · split at h
    · cases h
    · cases h
      exact (List.take_append_drop _ text).symm
  · cases h
    exact List.takeWhile_append_dropWhile.symm

/-- An argument that is cut off is one atom. -/
theorem Expr.atom_of_cut {e : Expr} {text rest : List Char}
    (h : Reader.cutArgument text = .ok (e.text, rest)) : ∃ a, e = .mk a [] := by
  obtain ⟨head, args⟩ := e
  have hself := cutArgument_self h
  rw [Expr.text, cutArgument_text head (argsText_cases args)] at hself
  cases args with
  | nil => exact ⟨head, rfl⟩
  | cons a args => cases congrArg (Except.map Prod.snd) hself

/-! ### The tree of a text from those of its parts -/

namespace Expr

/-- The name in front of the block of a binder has no dot. -/
theorem not_dot_of_cut {text : List Char} {block : Block} (hcut : Block.cut text = .ok block)
    (hform : Form.of text = .binding) : '.' ∉ block.head := by
  rw [Block.head_of_cut hcut]
  exact Form.not_dot_of_binding hform

/-- A text is written for a binder, if its parts are written for the parts. -/
theorem text_binder_of_cut {text : List Char} {block : Block} {body : Expr} {args : List Atom}
    (hcut : Block.cut text = .ok block) (hname : nameFault? block.head = none)
    (hdot : '.' ∉ block.head) (hinner : body.text = block.inner)
    (htail : argsText args = block.tail) :
    (mk (.binder (.ofChars block.head hname hdot) body) args).text = text := by
  rw [Block.text_eq_of_cut hcut, ← htail, ← hinner]
  simp [Expr.text, Atom.text, Name.ofChars]

/-- The same for a group. -/
theorem text_group_of_cut {rest : List Char} {block : Block} {body : Expr} {args : List Atom}
    (hcut : Block.cut ('(' :: rest) = .ok block) (hinner : body.text = block.inner)
    (htail : argsText args = block.tail) : (mk (.group body) args).text = '(' :: rest := by
  have hhead : block.head = [] := Block.head_of_cut hcut
  rw [Block.text_eq_of_cut hcut, hhead, ← htail, ← hinner]
  simp [text, Atom.text]

/-- The name in front of the first dot has none. -/
theorem not_dot_called (text : List Char) : '.' ∉ text.takeWhile fun c => c != '.' :=
  fun hmem => by simpa using List.mem_takeWhile_imp hmem

/-- The same for a call. -/
theorem text_call_of_cut {text : List Char} {args : List Atom}
    (hname : nameFault? (text.takeWhile fun c => c != '.') = none)
    (htail : argsText args = text.dropWhile fun c => c != '.') :
    (mk (.name (.ofChars _ hname (not_dot_called text))) args).text = text := by
  show (text.takeWhile fun c => c != '.') ++ argsText args = text
  rw [htail, List.takeWhile_append_dropWhile]

/-- Without arguments, the text of a call would be a name by itself. -/
theorem args_ne_nil_of_form {n : Name} {args : List Atom}
    (h : Form.of (mk (.name n) args).text = .call) : args ≠ [] := by
  rintro rfl
  rw [text_atom, Atom.text, Name.form_bare] at h
  cases h

end Expr

/-! ### One tree for a text -/

namespace Expr

/-- What begins with a name is not a binding. -/
theorem form_name (n : Name) (args : List Atom) : Form.of (mk (.name n) args).text ≠ .binding := by
  rw [text, Atom.text]
  cases args with
  | nil =>
    rw [argsText, List.append_nil, n.form_bare]
    decide
  | cons a args =>
    rw [argsText, n.form_call]
    decide

/-- The block of a binder has its name in front and its arguments behind it. -/
theorem cut_binder (n : Name) (body : Expr) (args : List Atom) :
    Form.of (mk (.binder n body) args).text = .binding ∧
      Block.cut (mk (.binder n body) args).text = .ok ⟨n.chars, body.text, argsText args⟩ := by
  have htext : (mk (.binder n body) args).text
      = n.chars ++ '(' :: (body.text ++ ')' :: argsText args) := by
    simp [text, Atom.text]
  rw [htext]
  exact ⟨n.form_binding _, Block.cut_of_balanced n.not_paren body.balanced _⟩

/-- The block of a group has nothing in front. -/
theorem cut_group (body : Expr) (args : List Atom) :
    Form.of (mk (.group body) args).text = .binding ∧
      Block.cut (mk (.group body) args).text = .ok ⟨[], body.text, argsText args⟩ := by
  have htext : (mk (.group body) args).text
      = [] ++ '(' :: (body.text ++ ')' :: argsText args) := by
    simp [text, Atom.text]
  rw [htext]
  exact ⟨rfl, Block.cut_of_balanced (fun c hc => absurd hc List.not_mem_nil) body.balanced _⟩

/-- Arguments are told by their text, if each of them is. -/
theorem argsText_injective {args args' : List Atom}
    (h : ∀ a ∈ args, ∀ e', (mk a []).text = e'.text → mk a [] = e')
    (heq : argsText args = argsText args') : args = args' := by
  induction args generalizing args' with
  | nil =>
    cases args' with
    | nil => rfl
    | cons a' args' => cases heq
  | cons a args ih =>
    cases args' with
    | nil => cases heq
    | cons a' args' =>
      rw [List.forall_mem_cons] at h
      rw [argsText, argsText, List.cons.injEq] at heq
      -- Both sides are cut at the same place.
      have hcut := cutArgument_text a (argsText_cases args)
      rw [heq.2, cutArgument_text a' (argsText_cases args')] at hcut
      simp only [Except.ok.injEq, Prod.mk.injEq] at hcut
      have ha := h.1 (mk a' []) (by rw [text_atom, text_atom, hcut.1])
      cases ha
      rw [ih h.2 hcut.2.symm]

/-- **Unique readability.** A text is the text of one tree at most. -/
theorem text_injective {e e' : Expr} (h : e.text = e'.text) : e = e' := by
  induction e generalizing e' with
  | name n args hargs =>
    obtain ⟨head', args'⟩ := e'
    cases head' with
    | name n' =>
      have hspan := n.span_dot (argsText_cases args)
      have hspan' := n'.span_dot (argsText_cases args')
      rw [text, text, Atom.text, Atom.text] at h
      rw [h] at hspan
      obtain rfl : n' = n := Name.ext (hspan'.1.symm.trans hspan.1)
      rw [argsText_injective (fun a ha e' => hargs a ha) (hspan.2.symm.trans hspan'.2)]
    | binder n' body' => exact absurd (h ▸ (cut_binder n' body' args').1) (form_name n args)
    | group body' => exact absurd (h ▸ (cut_group body' args').1) (form_name n args)
  | binder n body args hbody hargs =>
    obtain ⟨head', args'⟩ := e'
    have hcut := (cut_binder n body args).2
    rw [h] at hcut
    cases head' with
    | name n' => exact absurd (h ▸ (cut_binder n body args).1) (form_name n' args')
    | binder n' body' =>
      rw [(cut_binder n' body' args').2, Except.ok.injEq, Block.mk.injEq] at hcut
      obtain rfl : n' = n := Name.ext hcut.1
      rw [hbody hcut.2.1.symm, argsText_injective (fun a ha e' => hargs a ha) hcut.2.2.symm]
    | group body' =>
      -- A binder has a name in front of its block, and a group has none.
      rw [(cut_group body' args').2, Except.ok.injEq, Block.mk.injEq] at hcut
      exact absurd hcut.1.symm n.nonempty
  | group body args hbody hargs =>
    obtain ⟨head', args'⟩ := e'
    have hcut := (cut_group body args).2
    rw [h] at hcut
    cases head' with
    | name n' => exact absurd (h ▸ (cut_group body args).1) (form_name n' args')
    | binder n' body' =>
      rw [(cut_binder n' body' args').2, Except.ok.injEq, Block.mk.injEq] at hcut
      exact absurd hcut.1 n'.nonempty
    | group body' =>
      rw [(cut_group body' args').2, Except.ok.injEq, Block.mk.injEq] at hcut
      rw [hbody hcut.2.1.symm, argsText_injective (fun a ha e' => hargs a ha) hcut.2.2.symm]

end Expr

end DotLambda
