import DotLambda.Proofs.Desugaring.OnePass
import DotLambda.Proofs.Desugaring.Sources

namespace DotLambda

/-!
# Desugaring — programs as they are written

A program is written with definitions, lists of parameters and white space.  Desugaring works on
its text, in three passes that know nothing of its structure; on a program that is well formed they
act along its tree.

* `SourceAtom`, `SourceExpr` — expression trees with lists of parameters;
* `SourceExpr.plain` — the tree with all lists written out;
* `SpelledAs` — a text that is written out to another wherever it stands;
* `SourceExpr.spelled` — the text of a tree is written out to the text of the plain tree;
* `Writes` — the ways to write a program;
* `desugar_canonical` — all of them are desugared to one text.
-/

/-! ### Trees with lists of parameters -/

mutual

/-- What an expression of a source begins with, and what its arguments are. -/
inductive SourceAtom where
  /-- A name by itself. -/
  | name (n : Name)
  /-- `n,m,…(body)`, binders in a row with their scope; one name at least. -/
  | binder (n : Name) (more : List Name) (body : SourceExpr)
  /-- `(body)`. -/
  | group (body : SourceExpr)

/-- An atom and the arguments behind it: `head.a.b`. -/
inductive SourceExpr where
  | mk (head : SourceAtom) (args : List SourceAtom)

end

/-- Trees by their heads, as for plain trees. -/
@[induction_eliminator]
theorem SourceExpr.induct {P : SourceExpr → Prop}
    (name : ∀ n args, (∀ a ∈ args, P (.mk a [])) → P (.mk (.name n) args))
    (binder : ∀ n more body args, P body → (∀ a ∈ args, P (.mk a [])) →
      P (.mk (.binder n more body) args))
    (group : ∀ body args, P body → (∀ a ∈ args, P (.mk a [])) → P (.mk (.group body) args))
    (e : SourceExpr) : P e := by
  have none : ∀ a ∈ ([] : List SourceAtom), P (.mk a []) := List.forall_mem_nil _
  refine @SourceExpr.rec (fun h => ∀ args, (∀ a ∈ args, P (.mk a [])) → P (.mk h args)) P
    (fun args => ∀ a ∈ args, P (.mk a [])) ?_ ?_ ?_ ?_ ?_ ?_ e
  · exact fun n args hargs => name n args hargs
  · exact fun n more body hbody args hargs => binder n more body args hbody hargs
  · exact fun body hbody args hargs => group body args hbody hargs
  · exact fun head args hhead hargs => hhead args hargs
  · exact none
  · exact fun a args ha hargs => List.forall_mem_cons.mpr ⟨ha [] none, hargs⟩

/-- Names with commas between them. -/
def listText (n : Name) (more : List Name) : List Char :=
  n.chars ++ more.flatMap fun m => ',' :: m.chars

mutual

/-- The text of an atom. -/
def SourceAtom.text : SourceAtom → List Char
  | .name n => n.chars
  | .binder n more body => listText n more ++ '(' :: (body.text ++ [')'])
  | .group body => '(' :: (body.text ++ [')'])

/-- The text of a tree: its head, and its arguments behind a dot each. -/
def SourceExpr.text : SourceExpr → List Char
  | .mk head args => head.text ++ sourceArgsText args

/-- The text of arguments, each behind a dot. -/
def sourceArgsText : List SourceAtom → List Char
  | [] => []
  | a :: args => '.' :: (a.text ++ sourceArgsText args)

end

/-- Binders in a row around an expression, one inside the other. -/
def Expr.under (more : List Name) (body : Expr) : Expr :=
  more.foldr (fun n e => .mk (.binder n e) []) body

mutual

/-- An atom with all lists of parameters written out. -/
def SourceAtom.plain : SourceAtom → Atom
  | .name n => .name n
  | .binder n more body => .binder n (body.plain.under more)
  | .group body => .group body.plain

/-- A tree with all lists of parameters written out. -/
def SourceExpr.plain : SourceExpr → Expr
  | .mk head args => .mk head.plain (plainArgs args)

/-- Arguments with all lists of parameters written out. -/
def plainArgs : List SourceAtom → List Atom
  | [] => []
  | a :: args => a.plain :: plainArgs args

end

/-- An expression is not written as nothing. -/
theorem SourceExpr.text_ne_nil (e : SourceExpr) : e.text ≠ [] := by
  obtain ⟨head, args⟩ := e
  refine List.append_ne_nil_of_left_ne_nil ?_ _
  cases head with
  | name n => exact n.nonempty
  | binder n more body => simp [SourceAtom.text]
  | group body => simp [SourceAtom.text]

/-- A name ends where arguments begin. -/
theorem sourceArgsText_stops (args : List SourceAtom) : StopsName (sourceArgsText args) := by
  cases args with
  | nil => rintro c ⟨⟩
  | cons a args =>
    rintro c ⟨⟩
    rfl

namespace Name

variable (n : Name)

/-- A name has no semicolon in it. -/
theorem not_semicolon : ';' ∉ n.chars := fun h =>
  n.legal ';' h (by simp)

/-- A name has no delimiter in it. -/
theorem not_delimiter : ∀ c ∈ n.chars, isDelimiter c = false := by
  intro c hc
  simp [isDelimiter, n.not_paren c hc, n.not_dot c hc]

/-- A name has no comma in it, so that spelling out parameters leaves it as it is. -/
theorem map_comma : (n.chars.map fun c => if c = ',' then '(' else c) = n.chars := by
  have hkeep : ∀ c ∈ n.chars, (if c = ',' then '(' else c) = id c := by
    intro c hc
    exact if_neg fun h : c = ',' => n.not_comma (h ▸ hc)
  rw [List.map_congr_left hkeep, List.map_id]

end Name

section

variable {mark : Char} {s : List Char}

/-- The text in front of the first mark is a piece. -/
theorem pieces_append (h : mark ∉ s) (rest : List Char) :
    pieces mark (s ++ mark :: rest) = s :: pieces mark rest := by
  induction s with
  | nil => rw [List.nil_append, pieces, if_pos rfl]
  | cons c s ih =>
    rw [List.mem_cons, not_or] at h
    rw [List.cons_append, pieces, if_neg (Ne.symm h.1), ih h.2]

/-- A text without a mark is one piece. -/
theorem pieces_of_not_mem (h : mark ∉ s) : pieces mark s = [s] := by
  induction s with
  | nil => rfl
  | cons c s ih =>
    rw [List.mem_cons, not_or] at h
    rw [pieces, if_neg (Ne.symm h.1), ih h.2]

end

/-! ### Texts that are written out -/

open ParameterList

/-- Wherever the text stands, its lists can be written out, and it is then `core`.  It has to begin
    where a name may begin, and to end where one ends. -/
structure SpelledAs (text core : List Char) : Prop where
  balanced : Balanced text
  plain : ';' ∉ text
  lists : ∀ rest, StopsName rest → EveryList Spellable rest → EveryList Spellable (text ++ rest)
  pass : ∀ blocks rest,
    (⟨1, blocks⟩ : Pass).writeAll (text ++ rest) = core ++ (⟨1, blocks⟩ : Pass).writeAll rest

namespace SpelledAs

variable {text core text' core' : List Char}

/-- The empty text is spelled as itself. -/
theorem nil : SpelledAs [] [] where
  balanced := fun _ _ _ => rfl
  plain := List.not_mem_nil
  lists := fun _ _ h => h
  pass := fun _ _ => rfl

/-- Texts are spelled one after the other, if no name runs across the border. -/
theorem append (h : SpelledAs text core) (h' : SpelledAs text' core') (hstops : StopsName text') :
    SpelledAs (text ++ text') (core ++ core') where
  balanced := h.balanced.append h'.balanced
  plain := fun hmem => (List.mem_append.mp hmem).elim h.plain h'.plain
  lists := fun rest hrest hlists => by
    rw [List.append_assoc]
    exact h.lists _ (hstops.append hrest) (h'.lists rest hrest hlists)
  pass := fun blocks rest => by
    rw [List.append_assoc, h.pass, h'.pass, List.append_assoc]

/-- What a text is spelled as is what one pass writes for it. -/
theorem writeAll_eq (h : SpelledAs text core) : Pass.writeAll {} text = core := by
  have hpass := h.pass [] []
  rwa [List.append_nil, Pass.writeAll, List.append_nil] at hpass

/-- A name is left as it is. -/
theorem name (n : Name) : SpelledAs n.chars n.chars where
  balanced := balanced_of_not_paren n.not_paren
  plain := n.not_semicolon
  lists := fun rest hrest hlists => by
    cases rest with
    | nil =>
      rw [List.append_nil]
      exact everyList_of_not_comma n.not_comma
    | cons c rest =>
      have hc : isDelimiter c = true := hrest c rfl
      have hbehind : EveryList Spellable rest := by
        rw [← List.nil_append (c :: rest), everyList_append hc] at hlists
        exact hlists.2
      exact (everyList_append hc).mpr ⟨everyList_of_not_comma n.not_comma, hbehind⟩
  pass := fun blocks rest => by
    obtain ⟨hover, hbehind⟩ := Pass.writeAll_list n.not_delimiter ⟨1, blocks⟩
    rw [Pass.writeAll_append, hover, hbehind, n.map_comma, List.count_eq_zero.mpr n.not_comma]

/-- A dot in front. -/
theorem dot (h : SpelledAs text core) : SpelledAs ('.' :: text) ('.' :: core) where
  balanced := by
    have hdot : Balanced ['.'] := balanced_of_not_paren (by simp)
    exact hdot.append h.balanced
  plain := List.not_mem_cons_of_ne_of_not_mem (by decide) h.plain
  lists := fun rest hrest hlists =>
    (everyList_append (s := []) rfl).mpr
      ⟨everyList_of_not_comma List.not_mem_nil, h.lists rest hrest hlists⟩
  pass := fun blocks rest => congrArg ('.' :: ·) (h.pass blocks rest)

/-- A block with names in front of it, or none. -/
theorem block {list : List Char} (hlist : ∀ c ∈ list, isDelimiter c = false)
    (hplain : ';' ∉ list) (hentries : ',' ∈ list → ∀ name ∈ pieces ',' list, name ≠ [])
    (h : SpelledAs text core) :
    SpelledAs (list ++ '(' :: (text ++ [')']))
      (opened list ++ (core ++ closed list)) where
  balanced := by
    have hnames : Balanced list :=
      balanced_of_not_paren fun c hc => not_paren_of_not_isDelimiter (hlist c hc)
    exact hnames.append h.balanced.block
  plain := by
    simp only [List.mem_append, List.mem_cons, not_or]
    exact ⟨hplain, by decide, h.plain, by decide⟩
  lists := fun rest _ hlists => by
    -- The parenthesis ends the last name of the text, so that no list goes on behind it.
    have hbehind : EveryList Spellable (text ++ ')' :: rest) :=
      h.lists _ (stopsName_cons rfl rest) <| (everyList_append (s := []) rfl).mpr
        ⟨everyList_of_not_comma List.not_mem_nil, hlists⟩
    rw [List.append_assoc, List.cons_append, List.append_assoc, List.singleton_append]
    refine (everyList_append rfl).mpr ⟨?_, hbehind⟩
    by_cases hcomma : ',' ∈ list
    · exact (everyList_run hlist hcomma).mpr
        ⟨hentries hcomma, text, rest, rfl, balanced_iff.mp h.balanced⟩
    · exact everyList_of_not_comma hcomma
  pass := fun blocks rest => by
    obtain ⟨hover, hbehind⟩ := Pass.writeAll_list hlist ⟨1, blocks⟩
    rw [List.append_assoc, List.cons_append, List.append_assoc, List.singleton_append,
      Pass.writeAll_append, hover, hbehind, Pass.writeAll_block h.balanced, h.writeAll_eq,
      Nat.add_comm 1]
    simp [opened, closed]

/-- A text that can be written out by itself. -/
theorem spellOut (h : SpelledAs text core) : spellOutParameters text = .ok core := by
  have hlists : EveryList Spellable text := by
    have hall := h.lists [] (by rintro c ⟨⟩) (everyList_of_not_comma List.not_mem_nil)
    rwa [List.append_nil] at hall
  rw [spellOut_of_everyList hlists, h.writeAll_eq]

end SpelledAs

/-! ### Lists of names -/

/-- A list of parameters begins with a name and a comma. -/
theorem listText_cons (n m : Name) (more : List Name) :
    listText n (m :: more) = n.chars ++ ',' :: listText m more := by
  simp [listText]

/-- No name of a list is empty. -/
theorem pieces_listText (n : Name) (more : List Name) :
    ∀ name ∈ pieces ',' (listText n more), name ≠ [] := by
  induction more generalizing n with
  | nil =>
    have hone : listText n [] = n.chars := List.append_nil _
    rw [hone, pieces_of_not_mem n.not_comma]
    exact List.forall_mem_singleton.mpr n.nonempty
  | cons m more ih =>
    rw [listText_cons, pieces_append n.not_comma]
    exact List.forall_mem_cons.mpr ⟨n.nonempty, ih m⟩

/-- A list of parameters is made of commas and the characters of names. -/
theorem mem_listText {n : Name} {more : List Name} {c : Char} (hc : c ∈ listText n more) :
    c = ',' ∨ ∃ m : Name, c ∈ m.chars := by
  induction more generalizing n with
  | nil => exact .inr ⟨n, by simpa [listText] using hc⟩
  | cons m more ih =>
    rw [listText_cons, List.mem_append, List.mem_cons] at hc
    rcases hc with hc | hc | hc
    · exact .inr ⟨n, hc⟩
    · exact .inl hc
    · exact ih hc

/-- There is no delimiter in a list of parameters. -/
theorem listText_not_delimiter {n : Name} {more : List Name} :
    ∀ c ∈ listText n more, isDelimiter c = false := by
  intro c hc
  rcases mem_listText hc with rfl | ⟨m, hm⟩
  · rfl
  · exact m.not_delimiter c hm

/-- There is no semicolon in a list of parameters. -/
theorem listText_not_semicolon {n : Name} {more : List Name} : ';' ∉ listText n more := by
  intro hc
  rcases mem_listText hc with hc | ⟨m, hm⟩
  · exact absurd hc (by decide)
  · exact m.not_semicolon hm

/-- Binders in a row are the list written out around their body. -/
theorem opened_listText (n : Name) (more : List Name) (body : Expr) :
    opened (listText n more) ++ (body.text ++ closed (listText n more))
      = n.chars ++ '(' :: ((body.under more).text ++ [')']) := by
  induction more generalizing n with
  | nil =>
    have hone : listText n [] = n.chars := List.append_nil _
    have hopened : opened n.chars = n.chars ++ ['('] := by rw [opened, n.map_comma]
    have hclosed : closed n.chars = [')'] := by
      rw [closed, List.count_eq_zero.mpr n.not_comma]
      rfl
    rw [hone, hopened, hclosed, List.append_assoc]
    rfl
  -- A comma opens a block that is closed at the end.
  | cons m more ih =>
    have hopened : opened (n.chars ++ ',' :: listText m more)
        = n.chars ++ '(' :: opened (listText m more) := by
      simp only [opened, List.map_append, List.map_cons, n.map_comma, if_true, List.append_assoc,
        List.cons_append]
    have hclosed : closed (n.chars ++ ',' :: listText m more)
        = closed (listText m more) ++ [')'] := by
      rw [closed, List.count_append, List.count_cons_self, List.count_eq_zero.mpr n.not_comma,
        Nat.zero_add, List.replicate_succ', closed]
    have hunder : (body.under (m :: more)).text
        = m.chars ++ '(' :: ((body.under more).text ++ [')']) := by
      show (Atom.binder m (body.under more)).text ++ argsText [] = _
      rw [Atom.text, argsText, List.append_nil]
    rw [listText_cons, hopened, hclosed, hunder, ← ih m]
    simp

/-! ### Trees written out -/

/-- Arguments are spelled out one by one. -/
theorem sourceArgs_spelled {args : List SourceAtom}
    (h : ∀ a ∈ args, SpelledAs a.text a.plain.text) :
    SpelledAs (sourceArgsText args) (argsText (plainArgs args)) := by
  induction args with
  | nil => exact .nil
  | cons a args ih =>
    rw [List.forall_mem_cons] at h
    exact (h.1.append (ih h.2) (sourceArgsText_stops args)).dot

/-- **Trees.** The text of a tree is written out to the text of the plain tree. -/
theorem SourceExpr.spelled (e : SourceExpr) : SpelledAs e.text e.plain.text := by
  -- An atom by itself is a tree, the text of which is that of the atom.
  have hatom : ∀ {a : SourceAtom},
      SpelledAs (SourceExpr.mk a []).text (SourceExpr.mk a []).plain.text →
      SpelledAs a.text a.plain.text := by
    intro a h
    rwa [SourceExpr.text, SourceExpr.plain, Expr.text, sourceArgsText, plainArgs, argsText,
      List.append_nil, List.append_nil] at h
  have hnode : ∀ {head : SourceAtom} {args : List SourceAtom}, SpelledAs head.text head.plain.text →
      (∀ a ∈ args, SpelledAs (SourceExpr.mk a []).text (SourceExpr.mk a []).plain.text) →
      SpelledAs (SourceExpr.mk head args).text (SourceExpr.mk head args).plain.text := by
    intro head args hhead hargs
    rw [SourceExpr.text, SourceExpr.plain, Expr.text]
    have htail := sourceArgs_spelled fun a ha => hatom (hargs a ha)
    exact hhead.append htail (sourceArgsText_stops args)
  induction e with
  | name n args hargs =>
    refine hnode ?_ hargs
    rw [SourceAtom.text, SourceAtom.plain, Atom.text]
    exact .name n
  | binder n more body args hbody hargs =>
    refine hnode ?_ hargs
    rw [SourceAtom.text, SourceAtom.plain, Atom.text, ← opened_listText]
    exact hbody.block listText_not_delimiter listText_not_semicolon fun _ => pieces_listText n more
  | group body args hbody hargs =>
    refine hnode ?_ hargs
    rw [SourceAtom.text, SourceAtom.plain, Atom.text]
    have hnone : ',' ∉ ([] : List Char) := List.not_mem_nil
    exact hbody.block (List.forall_mem_nil _) List.not_mem_nil fun hcomma => absurd hcomma hnone

/-! ### Programs -/

/-- A definition without its white space. -/
def SourceExpr.defined (x : Name) (b : SourceExpr) : Definition :=
  ⟨x.word, String.ofList b.text⟩

/-- Definitions bound around an expression, the first one outermost, with all lists written out:
    `x(…).(b)` for each of them. -/
def redexes (ds : List (Name × SourceExpr)) (e : SourceExpr) : Expr :=
  ds.foldr (fun d inner => .mk (.binder d.1 inner) [.group d.2.plain]) e.plain

/-- The text is the tree with white space inserted anywhere. -/
def Spaced (e : SourceExpr) (text : List Char) : Prop :=
  removeBlanks text = e.text

/-- The ways to write a program: definitions, each with white space behind its keyword and behind
    its name, and an expression that does not look like a definition. -/
inductive Writes : List (Name × SourceExpr) → SourceExpr → List Char → Prop where
  | expression {e : SourceExpr} {text : List Char} (htext : Spaced e text)
      (hother : ∀ lead c rest, text = lead ++ 'l' :: 'e' :: 't' :: c :: rest →
        (∀ c ∈ lead, isBlank c = true) → isAsciiBlank c = false) : Writes [] e text
  | definition {ds : List (Name × SourceExpr)} {e b : SourceExpr} {x : Name}
      {lead gap body rest : List Char} {c d : Char} (hlead : ∀ c ∈ lead, isBlank c = true)
      (hc : isAsciiBlank c = true) (hgap : ∀ c ∈ gap, isBlank c = true)
      (hx : ∀ c ∈ x.chars, isBlank c = false) (hd : isBlank d = true) (hbody : Spaced b body)
      (hrest : Writes ds e rest) :
      Writes ((x, b) :: ds) e
        (lead ++ ('l' :: 'e' :: 't' :: c :: (gap ++ (x.chars ++ d :: body)) ++ ';' :: rest))

/-! ### Words of a definition -/

/-- The words of a text are all of it but its blanks. -/
theorem words_flatten (text : List Char) : (words text).flatten = removeBlanks text := by
  fun_induction words text with
  | case1 text htrim =>
    exact (removeBlanks_of_blank (List.dropWhile_eq_nil_iff.mp htrim)).symm
  | case2 text c rest htrim ih =>
    have htext : text = text.takeWhile isBlank ++ c :: rest := by
      rw [← htrim]
      exact (List.takeWhile_append_dropWhile ..).symm
    have hc : isBlank c = false := by
      have hstop := List.head?_dropWhile_not isBlank text
      rwa [← trimStart, htrim] at hstop
    have hword : removeBlanks (rest.takeWhile fun d => !isBlank d)
        = rest.takeWhile fun d => !isBlank d :=
      removeBlanks_eq_self fun d hd => by simpa using List.mem_takeWhile_imp hd
    have hrest : removeBlanks rest
        = (rest.takeWhile fun d => !isBlank d)
          ++ removeBlanks (rest.dropWhile fun d => !isBlank d) := by
      rw [← hword, ← removeBlanks_append, List.takeWhile_append_dropWhile]
    have hfront : removeBlanks (text.takeWhile isBlank) = [] :=
      removeBlanks_of_blank fun d hd => List.mem_takeWhile_imp hd
    -- A word is what is left of the text up to the next blank.
    have hcons : removeBlanks (c :: rest) = c :: removeBlanks rest :=
      List.filter_cons_of_pos (by rw [hc]; rfl)
    rw [List.flatten_cons, ih, htext, removeBlanks_append, hfront, hcons, hrest]
    rfl

/-- Blanks in front of a text make no word. -/
theorem words_blanks {lead : List Char} (h : ∀ c ∈ lead, isBlank c = true) (rest : List Char) :
    words (lead ++ rest) = words rest := by
  induction lead with
  | nil => rfl
  | cons c lead ih =>
    rw [List.forall_mem_cons] at h
    rw [List.cons_append, words_blank h.1, ih h.2]

/-- The words of a definition: the keyword, the name, and those of the body. -/
theorem words_definition {x : Name} {gap : List Char} {c d : Char} (hc : isBlank c = true)
    (hgap : ∀ c ∈ gap, isBlank c = true) (hx : ∀ c ∈ x.chars, isBlank c = false)
    (hd : isBlank d = true) (body : List Char) :
    words ('l' :: 'e' :: 't' :: c :: (gap ++ (x.chars ++ d :: body)))
      = ['l', 'e', 't'] :: x.chars :: words body := by
  have hlet : ∀ c ∈ ['l', 'e', 't'], isBlank c = false := by simp [isBlank]
  calc words (['l', 'e', 't'] ++ c :: (gap ++ (x.chars ++ d :: body)))
      = ['l', 'e', 't'] :: words (c :: (gap ++ (x.chars ++ d :: body))) :=
        words_append (List.cons_ne_nil _ _) hlet (by rintro d ⟨⟩; exact hc)
    _ = ['l', 'e', 't'] :: words (x.chars ++ d :: body) := by
        rw [words_blank hc, words_blanks hgap]
    _ = ['l', 'e', 't'] :: x.chars :: words body := by
        rw [words_append x.nonempty hx (by rintro c ⟨⟩; exact hd), words_blank hd]

/-- There is no semicolon in an expression, wherever blanks are put. -/
theorem Spaced.not_semicolon {e : SourceExpr} {text : List Char} (h : Spaced e text) :
    ';' ∉ text := by
  intro hmem
  have hkept : ';' ∈ removeBlanks text := List.mem_filter.mpr ⟨hmem, by decide⟩
  rw [h] at hkept
  exact e.spelled.plain hkept

/-- The words of a body, put together, are its tree. -/
theorem Spaced.exists_words {b : SourceExpr} {body : List Char} (h : Spaced b body) :
    ∃ first more, words body = first :: more ∧ (first :: more).flatten = b.text := by
  have hflatten := (words_flatten body).trans h
  cases hwords : words body with
  | nil =>
    rw [hwords] at hflatten
    exact absurd hflatten.symm b.text_ne_nil
  | cons first more => exact ⟨first, more, rfl, hwords ▸ hflatten⟩

/-! ### Programs desugared -/

/-- The definitions of a program, and its expression. -/
theorem Writes.peeled_eq {ds : List (Name × SourceExpr)} {e : SourceExpr} {source : List Char}
    (h : Writes ds e source) :
    peeled source = .ok (ds.map fun d => d.2.defined d.1, e.text) := by
  induction h with
  | @expression e text htext hother =>
    -- What is not followed by a blank is no `let`.
    have hstart : startsDefinition (trimStart text) = false := by
      rw [Bool.eq_false_iff]
      intro hstart
      obtain ⟨c, rest, hcut, hc⟩ := startsDefinition_cases hstart
      have htext' : text = text.takeWhile isBlank ++ 'l' :: 'e' :: 't' :: c :: rest := by
        rw [← hcut]
        exact (List.takeWhile_append_dropWhile ..).symm
      rw [hother _ c rest htext' fun d hd => List.mem_takeWhile_imp hd] at hc
      cases hc
    rw [peeled, peel_expression hstart, Except.map, htext]
    rfl
  | @definition ds e b x lead gap body rest c d hlead hc hgap hx hd hbody _ ih =>
    -- The words of the definition are its name and those of its body, which are put together again.
    obtain ⟨first, more, hwords, hflatten⟩ := hbody.exists_words
    have hinside := words_definition (isBlank_of_isAsciiBlank hc) hgap hx hd body
    rw [hwords] at hinside
    have hblank : ∀ {c : Char}, isBlank c = true → ';' ≠ c := by
      rintro c h rfl
      exact absurd h (by decide)
    -- The first semicolon is the one that ends the definition.
    have hplain : ';' ∉ 'l' :: 'e' :: 't' :: c :: (gap ++ (x.chars ++ d :: body)) := by
      simp only [List.mem_append, List.mem_cons, not_or]
      exact ⟨by decide, by decide, by decide, hblank (isBlank_of_isAsciiBlank hc),
        fun hmem => hblank (hgap _ hmem) rfl, x.not_semicolon, hblank hd, hbody.not_semicolon⟩
    have hself : Definition.ofWords x.chars first more = b.defined x := by
      rw [Definition.ofWords, hflatten]
      rfl
    have hstart : startsDefinition
        ('l' :: 'e' :: 't' :: c :: (gap ++ (x.chars ++ d :: body))) = true := hc
    rw [peeled, peel_definition hlead hstart hplain hinside rest, hself]
    unfold peeled at ih
    cases hrest : peelDefinitions rest with
    | error err =>
      rw [hrest] at ih
      cases ih
    | ok p =>
      rw [hrest, Except.map, Except.ok.injEq, Prod.mk.injEq] at ih
      rw [Except.map, Except.map, ih.1, ih.2]
      rfl

/-- Definitions bound around an expression, as a tree with lists of parameters. -/
def SourceExpr.bound (ds : List (Name × SourceExpr)) (e : SourceExpr) : SourceExpr :=
  ds.foldr (fun d inner => .mk (.binder d.1 [] inner) [.group d.2]) e

/-- Definitions in front of an expression are redexes around its plain form. -/
theorem SourceExpr.plain_bound (ds : List (Name × SourceExpr)) (e : SourceExpr) :
    (SourceExpr.bound ds e).plain = redexes ds e := by
  induction ds with
  | nil => rfl
  | cons d ds ih =>
    show Expr.mk (.binder d.1 (SourceExpr.bound ds e).plain) [.group d.2.plain] = _
    rw [ih]
    rfl

/-- The text of an expression under definitions is its own text with these bound around it. -/
theorem SourceExpr.text_bound (ds : List (Name × SourceExpr)) (e : SourceExpr) :
    (SourceExpr.bound ds e).text
      = bindDefinitions (ds.map fun d => d.2.defined d.1) e.text := by
  induction ds with
  | nil => rfl
  | cons d ds ih =>
    have hbind : bindDefinitions ((d :: ds).map fun d => d.2.defined d.1) e.text
        = (d.2.defined d.1).around (SourceExpr.bound ds e).text := by
      rw [ih]
      rfl
    rw [hbind, Definition.around_eq]
    show (SourceExpr.mk (.binder d.1 [] (SourceExpr.bound ds e)) [.group d.2]).text = _
    simp [SourceExpr.text, SourceAtom.text, sourceArgsText, listText, SourceExpr.defined, Name.word]

/-- What desugaring does with the definitions and the expression of a program. -/
theorem desugar_eq_of_peeled {source text : List Char} {ds : List Definition}
    (h : peeled source = .ok (ds, text)) :
    desugar source
      = (spellOutParameters (bindDefinitions ds text)).map fun core => ⟨ds.length, core⟩ := by
  unfold peeled at h
  cases hpeel : peelDefinitions source with
  | error e =>
    rw [hpeel] at h
    cases h
  | ok p =>
    rw [hpeel] at h
    cases h
    have hbind := removeBlanks_bindDefinitions (removeBlanks_of_peel hpeel) p.2
    simp only [desugar, hpeel, hbind]
    cases spellOutParameters (bindDefinitions p.1 (removeBlanks p.2)) with
    | error e => rfl
    | ok core => rfl

/-- Desugaring peels off the definitions, binds them and spells out the parameters. -/
theorem desugar_of_peeled {source text core : List Char} {ds : List Definition}
    (h : peeled source = .ok (ds, text))
    (hspell : spellOutParameters (bindDefinitions ds text) = .ok core) :
    desugar source = .ok ⟨ds.length, core⟩ := by
  rw [desugar_eq_of_peeled h, hspell]
  rfl

/-- What is left of a program is left as it is. -/
theorem desugar_core {source : List Char} {program : Desugared}
    (h : desugar source = .ok program) :
    (∀ c ∈ program.text, isBlank c = false ∧ c ≠ ',') ∧
      desugar program.text = .ok ⟨0, program.text⟩ := by
  cases hpeel : peelDefinitions source with
  | error e =>
    simp only [desugar, hpeel] at h
    cases h
  | ok p =>
    have hspell := spellOut_of_desugar hpeel h
    have hself := removeBlanks_of_spellOut hspell
    have hcomma := not_comma_of_spellOut hspell
    have hblank : ∀ c ∈ program.text, isBlank c = false := by
      intro c hc
      simpa using List.filter_eq_self.mp hself c hc
    have hpeeled : peeled program.text = .ok ([], program.text) := by
      rw [peeled, peel_expression (not_startsDefinition hblank), Except.map, hself]
    refine ⟨fun c hc => ⟨hblank c hc, ?_⟩, desugar_of_peeled hpeeled ?_⟩
    · rintro rfl
      exact hcomma hc
    · exact spellOutParameters_iff.mpr (.inl ⟨hcomma, rfl⟩)

/-- **Canonical form.** However a program is written, its definitions are bound around its
    expression, all lists of parameters are written out, and white space is gone.  What is left is
    desugared to itself. -/
theorem desugar_canonical {ds : List (Name × SourceExpr)} {e : SourceExpr} {source : List Char}
    (h : Writes ds e source) :
    desugar source = .ok ⟨ds.length, (redexes ds e).text⟩ ∧
      (∀ c ∈ (redexes ds e).text, isBlank c = false ∧ c ≠ ',') ∧
      desugar (redexes ds e).text = .ok ⟨0, (redexes ds e).text⟩ := by
  have hspell := (SourceExpr.bound ds e).spelled.spellOut
  rw [SourceExpr.text_bound, SourceExpr.plain_bound] at hspell
  have hdesugar := desugar_of_peeled h.peeled_eq hspell
  rw [List.length_map] at hdesugar
  exact ⟨hdesugar, desugar_core hdesugar⟩

/-- Two definitions, the second with a tab, and blanks in many places: the result has neither blanks
    nor lists of parameters. -/
theorem desugar_canonical_two :
    ∃ ds e, Writes ds e "let k x, y(x);\n let\ti x( x) ;k.i. (a,b(b) )".toList ∧
      desugar "let k x, y(x);\n let\ti x( x) ;k.i. (a,b(b) )".toList
        = .ok ⟨2, "k(i(k.i.(a(b(b)))).(x(x))).(x(y(x)))".toList⟩ := by
  let k : Name := ⟨['k'], by simp, by simp⟩
  let i : Name := ⟨['i'], by simp, by simp⟩
  let a : Name := ⟨['a'], by simp, by simp⟩
  let b : Name := ⟨['b'], by simp, by simp⟩
  let x : Name := ⟨['x'], by simp, by simp⟩
  let y : Name := ⟨['y'], by simp, by simp⟩
  let constant : SourceExpr := .mk (.binder x [y] (.mk (.name x) [])) []
  let identity : SourceExpr := .mk (.binder x [] (.mk (.name x) [])) []
  let argument : SourceExpr := .mk (.binder a [b] (.mk (.name b) [])) []
  let call : SourceExpr := .mk (.name k) [.name i, .group argument]
  have hcall : Writes [] call "k.i. (a,b(b) )".toList := by
    refine .expression rfl fun lead c rest htext hlead => ?_
    cases lead with
    | nil => cases htext
    | cons d lead =>
      obtain ⟨rfl, -⟩ := List.cons.inj htext
      exact absurd (hlead _ List.mem_cons_self) (by decide)
  have hidentity : Writes [(i, identity)] call "\n let\ti x( x) ;k.i. (a,b(b) )".toList :=
    @Writes.definition [] call identity i "\n ".toList [] "x( x) ".toList _ '\t' ' '
      (by simp [isBlank]) (by decide) (by simp) (by simp [i, isBlank]) (by decide) rfl hcall
  have hconstant : Writes [(k, constant), (i, identity)] call
      "let k x, y(x);\n let\ti x( x) ;k.i. (a,b(b) )".toList :=
    @Writes.definition [(i, identity)] call constant k [] [] "x, y(x)".toList _ ' ' ' '
      (by simp) (by decide) (by simp) (by simp [k, isBlank]) (by decide) rfl hidentity
  exact ⟨_, _, hconstant, (desugar_canonical hconstant).1⟩

end DotLambda
