import DotLambda.Program
import DotLambda.Proofs.Desugaring.Parameters
import DotLambda.Proofs.Reading.Following
import Mathlib

namespace DotLambda

/-!
# Desugaring — definitions

What becomes of the definitions of a program.  A definition is bound around the rest of the program
as text, and so is its body.  It stays one binder with one argument if its name is a name and the
parentheses of its body match; otherwise the text falls apart elsewhere.

* `Nested` — a term is a nest of redexes, one for each definition, around the expression;
* `Definition.Sealed` — a definition that cannot be taken apart;
* `nested_of_reads` — sealed definitions around a balanced expression give a nest;
* `Nested.sealed` — and there is no other way to get one;
* `definitions_keep_boundaries` — the definitions of a program.
-/

/-! ### Nests of redexes -/

/-- The term is a nest of redexes: the binder of the first definition, with the reading of its body
    as its parameter, around those of the others.  At the bottom is the reading of the expression.
    Each body is read in the scope of the definitions before it, the expression in that of all. -/
inductive Nested : List Definition → (expression : List Char) → Scope → Term → Scope → Prop where
  | expression {text core : List Char} {s s' : Scope} {t : Term}
      (hspell : spellOutParameters text = .ok core) (hread : Reads core s t s') :
      Nested [] text s t s'
  | redex {d : Definition} {ds : List Definition} {text core : List Char} {s s₁ s₂ s₃ : Scope}
      {param body : Term} {id : Nat} (hspell : spellOutParameters d.body.toList = .ok core)
      (hparam : Reads core s param s₁) (hid : s₁.bind d.name = (id, s₂))
      (hbody : Nested ds text s₂ body s₃) : Nested (d :: ds) text s (.abs id body param) s₃.leave

/-- The definition cannot be taken apart: its name is legal, and its body is balanced. -/
structure Definition.Sealed (d : Definition) : Prop where
  name : ∃ n : Name, n.word = d.name
  body : Balanced d.body.toList

/-! ### Texts -/

section

variable {ds : List Definition} {d : Definition} {text core : List Char}

/-- A definition is bound as a redex: its name is the binder of the text, and its body the
    parameter. -/
theorem Definition.around_eq (d : Definition) (text : List Char) :
    d.around text
      = d.name.toList ++ '(' :: (text ++ ')' :: '.' :: '(' :: (d.body.toList ++ [')'])) := by
  simp [Definition.around]

/-- A redex of balanced parts is balanced. -/
theorem balanced_around {n : Name} {body : List Char} (htext : Balanced text)
    (hbody : Balanced body) :
    Balanced (n.chars ++ '(' :: (text ++ ')' :: '.' :: '(' :: (body ++ [')']))) := by
  have hname : Balanced n.chars := balanced_of_not_paren n.not_paren
  have hdot : Balanced ['.'] := balanced_of_not_paren (by simp)
  have hall := (hname.append htext.block).append (hdot.append hbody.block)
  simpa using hall

/-- Definitions that are sealed bind a balanced text around a balanced text. -/
theorem balanced_bindDefinitions (hds : ∀ d ∈ ds, d.Sealed) (htext : Balanced text) :
    Balanced (bindDefinitions ds text) := by
  induction ds with
  | nil => exact htext
  | cons d ds ih =>
    rw [List.forall_mem_cons] at hds
    obtain ⟨n, hn⟩ := hds.1.name
    show Balanced (d.around (bindDefinitions ds text))
    rw [Definition.around_eq, ← hn, Name.word, String.toList_ofList]
    exact balanced_around (ih hds.2) hds.1.body

/-- A name has no comma in it. -/
theorem Name.not_comma (n : Name) : ',' ∉ n.chars := fun h =>
  n.legal ',' h (by simp)

/-- The two parts of a definition are written out by themselves. -/
theorem spellOut_around {n : Name} {body : List Char} (htext : Balanced text)
    (hbody : Balanced body)
    (h : spellOutParameters (n.chars ++ '(' :: (text ++ ')' :: '.' :: '(' :: (body ++ [')'])))
      = .ok core) :
    ∃ text' body', spellOutParameters text = .ok text' ∧ spellOutParameters body = .ok body' ∧
      core = n.chars ++ '(' :: (text' ++ ')' :: '.' :: '(' :: (body' ++ [')'])) := by
  have hends (start : List Char) : EndsName (start ++ ['(']) := by
    intro c hc
    rw [List.getLast?_concat, Option.some.injEq] at hc
    subst hc
    rfl
  have hname : ',' ∉ n.chars ++ ['('] := by
    simp [n.not_comma]
  have hfirst : n.chars ++ '(' :: (text ++ ')' :: '.' :: '(' :: (body ++ [')']))
      = (n.chars ++ ['(']) ++ (text ++ ')' :: '.' :: '(' :: (body ++ [')'])) := by
    simp
  rw [hfirst] at h
  obtain ⟨text', htext', h⟩ :=
    spellOutParameters_within hname (hends _) htext (.inr ⟨_, rfl⟩) h
  have hinner := not_comma_of_spellOut htext'
  -- The text is comma-free now, so that the body has the first comma.
  have hsecond : (n.chars ++ ['(']) ++ (text' ++ ')' :: '.' :: '(' :: (body ++ [')']))
      = ((n.chars ++ '(' :: (text' ++ [')', '.'])) ++ ['(']) ++ (body ++ [')']) := by
    simp
  have hbefore : ',' ∉ (n.chars ++ '(' :: (text' ++ [')', '.'])) ++ ['('] := by
    simp [n.not_comma, hinner]
  rw [hsecond] at h
  obtain ⟨body', hbody', h⟩ :=
    spellOutParameters_within hbefore (hends _) hbody (.inr ⟨[], rfl⟩) h
  refine ⟨text', body', htext', hbody', ?_⟩
  have hnone : ',' ∉ ((n.chars ++ '(' :: (text' ++ [')', '.'])) ++ ['(']) ++ (body' ++ [')']) := by
    simp [n.not_comma, hinner, not_comma_of_spellOut hbody']
  rw [spellOutParameters_iff.mpr (.inl ⟨hnone, rfl⟩), Except.ok.injEq] at h
  rw [← h]
  simp

end

/-! ### Reading a definition -/

/-- A name with a parenthesis behind it begins a binder. -/
theorem Name.hasForm_binding (n : Name) (rest : List Char) :
    Reader.HasForm (n.chars ++ '(' :: rest) .binding := by
  obtain ⟨c, chars, hchars⟩ := List.exists_cons_of_ne_nil n.nonempty
  have hc := (n.not_paren c (hchars ▸ List.mem_cons_self)).1
  refine ⟨by simp, ?_, n.form_binding _⟩
  rw [hchars]
  exact fun hhead => hc (Option.some.inj hhead)

/-- A binder with one block behind it is a redex: the block is read first, and outside the
    binder. -/
theorem reads_redex {n : Name} {text body : List Char} {s s' : Scope} {t : Term}
    (htext : Balanced text) (hbody : Balanced body)
    (h : Reads (n.chars ++ '(' :: (text ++ ')' :: '.' :: '(' :: (body ++ [')']))) s t s') :
    ∃ param s₁ id s₂ inner s₃, Reads body s param s₁ ∧ s₁.bind n.word = (id, s₂) ∧
      Reads text s₂ inner s₃ ∧ t = .abs id inner param ∧ s' = s₃.leave := by
  have hform := n.hasForm_binding (text ++ ')' :: '.' :: '(' :: (body ++ [')']))
  have hcut := Block.cut_of_balanced n.not_paren htext ('.' :: '(' :: (body ++ [')']))
  obtain ⟨args, r₁, id, s₂, inner, r₂, hargs, hid, hinner, rfl, hr'⟩ :=
    Reader.expression_binding hform hcut h
  obtain ⟨param, r₃, hparam, rfl, rfl⟩ := Reader.argumentList_block hbody hargs
  obtain ⟨none, r₄, hnone, hparam⟩ := Reader.expression_group (Block.cut_opened hbody []) hparam
  rw [Reader.argumentList.eq_def] at hnone
  cases hnone
  -- Nothing waits for the body, neither from outside nor from behind the block.
  obtain ⟨s₁, rfl, hread⟩ := Reader.reads_of_expression hparam
  obtain ⟨s₃, rfl, hread'⟩ := Reader.reads_of_expression hinner
  cases hr'
  exact ⟨param, s₁, id, s₂, inner, s₃, hread, hid, hread', rfl, rfl⟩

/-- **Sealed definitions give a nest.** -/
theorem nested_of_reads {ds : List Definition} {text core : List Char} {s s' : Scope} {t : Term}
    (hds : ∀ d ∈ ds, d.Sealed) (htext : Balanced text)
    (hspell : spellOutParameters (bindDefinitions ds text) = .ok core) (h : Reads core s t s') :
    Nested ds text s t s' := by
  induction ds generalizing core s t s' with
  | nil => exact .expression hspell h
  | cons d ds ih =>
    rw [List.forall_mem_cons] at hds
    obtain ⟨⟨n, hn⟩, hbody⟩ := hds.1
    have hinside := balanced_bindDefinitions hds.2 htext
    change spellOutParameters (d.around (bindDefinitions ds text)) = .ok core at hspell
    rw [Definition.around_eq, ← hn, Name.word, String.toList_ofList] at hspell
    obtain ⟨text', body', htext', hbody', rfl⟩ := spellOut_around hinside hbody hspell
    obtain ⟨param, s₁, id, s₂, inner, s₃, hparam, hid, hinner, rfl, rfl⟩ :=
      reads_redex ((balanced_spellOut htext').mpr hinside) ((balanced_spellOut hbody').mpr hbody) h
    rw [hn] at hid
    exact .redex hbody' hparam hid (ih hds.2 htext' hinner)

/-! ### Nests come from sealed definitions -/

/-- What is read in a sound scope is placed in it, and is the text of a tree. -/
theorem Reads.placed {text : List Char} {s s' : Scope} {t : Term} (h : Reads text s t s')
    (hs : s.Sound) : Placed s [] t s' ∧ Balanced text := by
  have htrivial : Reader.Follows (fun _ _ _ _ _ => True) (fun _ _ _ _ => True) :=
    ⟨fun _ _ _ => trivial, fun _ _ _ _ _ _ => trivial, fun _ _ _ _ _ => trivial,
      fun _ _ _ _ => trivial, fun _ => trivial, fun _ _ _ _ => trivial⟩
  obtain ⟨hplaced, e, rfl, -⟩ :=
    (Reader.expression_respects htrivial.respects h).1 hs (.nil s)
  exact ⟨hplaced, e.balanced⟩

namespace Scope

variable {s s' : Scope} {name : String}

/-- An identity has been handed out for the name. -/
def Knows (s : Scope) (name : String) : Prop :=
  ∃ k < s.table.size, s.nameOf k = name

/-- A name that is known stays known while the scope grows. -/
theorem Knows.mono (h : s.Knows name) (hg : s.Grows s') : s'.Knows name := by
  obtain ⟨k, hk, hname⟩ := h
  exact ⟨k, Nat.lt_of_lt_of_le hk hg.size, (hg.nameOf k hk).trans hname⟩

/-- A table with one name more knows this name and those it knew. -/
theorem knows_push {other : String} {stack : List Nat} {unbound : List (String × Nat)} :
    Knows { table := s.table.push other, stack, unbound } name ↔ name = other ∨ s.Knows name := by
  constructor
  · rintro ⟨k, hk, hname⟩
    change k < (s.table.push other).size at hk
    rw [Array.size_push] at hk
    by_cases hlt : k < s.table.size
    · rw [nameOf_push hlt] at hname
      exact .inr ⟨k, hlt, hname⟩
    · obtain rfl : k = s.table.size := by omega
      rw [nameOf_push_self] at hname
      exact .inl hname.symm
  · have hsize : (s.table.push other).size = s.table.size + 1 := Array.size_push _
    rintro (rfl | ⟨k, hk, hname⟩)
    · exact ⟨s.table.size, by show _ < (s.table.push name).size; omega, nameOf_push_self name _ _⟩
    · have hk' : k < (s.table.push other).size := by omega
      exact ⟨k, hk', (nameOf_push hk other _ _).trans hname⟩

end Scope

/-- Only legal names get identities while a text is read. -/
theorem legal_follows : Reader.Follows
    (fun _ s _ _ s' => (∀ name, s.Knows name → ∃ n : Name, n.word = name) →
      ∀ name, s'.Knows name → ∃ n : Name, n.word = name)
    (fun _ s _ s' => (∀ name, s.Knows name → ∃ n : Name, n.word = name) →
      ∀ name, s'.Knows name → ∃ n : Name, n.word = name) where
  bare {n _ _ _} queue _ hid := by
    intro h name hknows
    rcases Scope.resolve_cases hid with ⟨-, rfl⟩ | ⟨-, -, rfl⟩ | ⟨-, -, -, rfl⟩
    · exact h name hknows
    · exact h name hknows
    · rcases Scope.knows_push.mp hknows with rfl | hold
      · exact ⟨n, rfl⟩
      · exact h name hold
  binder {n _ _ _ _ _ _ _ _ _ _} _ _ hid _ hargs hbody := by
    intro h
    refine hbody fun name hknows => ?_
    obtain ⟨-, rfl⟩ := Scope.bind_cases hid
    rcases Scope.knows_push.mp hknows with rfl | hold
    · exact ⟨n, rfl⟩
    · exact hargs h name hold
  call _ _ _ _ hargs := hargs
  group _ _ hargs hinner := fun h => hinner (hargs h)
  nil _ := id
  cons _ _ harg hafter := fun h => hafter (harg h)

/-- **A nest comes from balanced bodies around a balanced expression**, and the names of the
    definitions have identities. -/
theorem Nested.sealed {ds : List Definition} {text : List Char} {s s' : Scope} {t : Term}
    (h : Nested ds text s t s') (hs : s.Sound) :
    s'.Sound ∧ s.Grows s' ∧ (∀ d ∈ ds, s'.Knows d.name ∧ Balanced d.body.toList) ∧
      Balanced text := by
  induction h with
  | expression hspell hread =>
    obtain ⟨hplaced, hbalanced⟩ := hread.placed hs
    exact ⟨hplaced.sound, hplaced.grows, nofun, (balanced_spellOut hspell).mp hbalanced⟩
  | redex hspell hparam hid _ ih =>
    obtain ⟨hplaced, hbalanced⟩ := hparam.placed hs
    obtain ⟨hsound, hgrows, hds, htext⟩ := ih (hplaced.sound.bind hid)
    refine ⟨hsound.leave, hplaced.grows.trans (.leave hid hgrows), ?_, htext⟩
    refine List.forall_mem_cons.mpr ⟨⟨?_, (balanced_spellOut hspell).mp hbalanced⟩, hds⟩
    obtain ⟨-, rfl⟩ := Scope.bind_cases hid
    have hknows := (Scope.knows_push.mpr (.inl rfl)).mono hgrows
    exact hknows

/-! ### Programs -/

/-- A word is made of characters that are not white space. -/
theorem not_isBlank_of_mem_words {text word : List Char} (h : word ∈ words text) :
    ∀ c ∈ word, isBlank c = false := by
  fun_induction words text with
  | case1 text htrim => exact absurd h List.not_mem_nil
  | case2 text c rest htrim ih =>
    rcases List.mem_cons.mp h with rfl | h
    · refine List.forall_mem_cons.mpr ⟨?_, fun d hd => ?_⟩
      · have hstop := List.head?_dropWhile_not isBlank text
        rw [← trimStart, htrim] at hstop
        exact hstop
      · simpa using List.mem_takeWhile_imp hd
    · exact ih h

/-- Names and bodies of definitions hold no white space. -/
theorem removeBlanks_of_peel {source rest : List Char} {ds : List Definition}
    (h : peelDefinitions source = .ok (ds, rest)) :
    ∀ d ∈ ds, removeBlanks d.name.toList = d.name.toList ∧
      removeBlanks d.body.toList = d.body.toList := by
  fun_induction peelDefinitions source generalizing ds rest with
  | case1 => cases h
  | case2 => cases h
  | case3 _ _ _ _ after _ inside _ name first more hwords ds' _ hafter =>
    rename_i body ih
    cases h
    have hblank : ∀ word ∈ name :: first :: more, ∀ c ∈ word, isBlank c = false :=
      fun word hword => not_isBlank_of_mem_words (hwords ▸ List.mem_cons_of_mem _ hword)
    rw [List.forall_mem_cons] at hblank
    refine List.forall_mem_cons.mpr ⟨⟨?_, ?_⟩, ih hafter⟩
    · rw [String.toList_ofList]
      exact removeBlanks_eq_self hblank.1
    · rw [String.toList_ofList]
      refine removeBlanks_eq_self fun c hc => ?_
      obtain ⟨word, hword, hmem⟩ := List.mem_flatten.mp hc
      exact hblank.2 word hword c hmem
  | case4 => cases h
  | case5 =>
    cases h
    nofun

/-- White space is removed from the expression only. -/
theorem removeBlanks_bindDefinitions {ds : List Definition}
    (hds : ∀ d ∈ ds, removeBlanks d.name.toList = d.name.toList ∧
      removeBlanks d.body.toList = d.body.toList) (text : List Char) :
    removeBlanks (bindDefinitions ds text) = bindDefinitions ds (removeBlanks text) := by
  induction ds with
  | nil => rfl
  | cons d ds ih =>
    rw [List.forall_mem_cons] at hds
    have hpunctuation : removeBlanks ['('] = ['('] ∧
        removeBlanks [')', '.', '('] = [')', '.', '('] ∧
        removeBlanks [')'] = [')'] := by decide
    have hsplit (text : List Char) : d.around text
        = d.name.toList ++ (['('] ++ (text ++ ([')', '.', '('] ++ (d.body.toList ++ [')'])))) := by
      simp [Definition.around]
    show removeBlanks (d.around (bindDefinitions ds text)) = d.around (bindDefinitions ds _)
    rw [hsplit, hsplit, ← ih hds.2]
    simp only [removeBlanks_append, hpunctuation, hds.1.1, hds.1.2]

/-- A desugared program is the program with its definitions bound and its lists written out. -/
theorem spellOut_of_desugar {source rest : List Char} {ds : List Definition} {program : Desugared}
    (hpeel : peelDefinitions source = .ok (ds, rest)) (h : desugar source = .ok program) :
    spellOutParameters (removeBlanks (bindDefinitions ds rest)) = .ok program.text := by
  unfold desugar at h
  rw [hpeel] at h
  simp only at h
  split at h
  · cases h
  · rename_i core hcore
    cases h
    exact hcore

/-- There is no white space in a text without white space that is written out. -/
theorem removeBlanks_of_spellOut {text core : List Char}
    (h : spellOutParameters (removeBlanks text) = .ok core) : removeBlanks core = core := by
  refine removeBlanks_eq_self fun c hc => ?_
  rcases mem_of_spellOut h c hc with hmem | rfl | rfl
  · simpa using (List.mem_filter.mp hmem).2
  · rfl
  · rfl

/-- **The definitions of a program.** A program that can be read is a nest of redexes, one for each
    definition and around the expression, if all its definitions are sealed and the expression is
    balanced, and only then. -/
theorem definitions_keep_boundaries {source rest : List Char} {ds : List Definition}
    {program : Desugared} {t : Term} {names : Names}
    (hpeel : peelDefinitions source = .ok (ds, rest)) (hdesugar : desugar source = .ok program)
    (hparse : parse program.text = .ok (t, names)) :
    (∃ s : Scope, Nested ds (removeBlanks rest) {} t s ∧ s.table = names) ↔
      (∀ d ∈ ds, d.Sealed) ∧ Balanced (removeBlanks rest) := by
  have hbind := removeBlanks_bindDefinitions (removeBlanks_of_peel hpeel) rest
  have hspell := spellOut_of_desugar hpeel hdesugar
  constructor
  · rintro ⟨s, hnested, rfl⟩
    obtain ⟨-, -, hds, htext⟩ := hnested.sealed Scope.sound_empty
    refine ⟨fun d hd => ⟨?_, (hds d hd).2⟩, htext⟩
    -- The names in the table are those of the text, which are legal.
    obtain ⟨s', hread, htable⟩ := parse_respects legal_follows.respects hparse
    obtain ⟨-, -, -, hlegal⟩ := hread Scope.sound_empty (.nil _)
    refine hlegal (fun name hknows => ?_) d.name ?_
    · obtain ⟨k, hk, -⟩ := hknows
      exact absurd hk (Nat.not_lt_zero k)
    · obtain ⟨k, hk, hname⟩ := (hds d hd).1
      refine ⟨k, ?_, ?_⟩
      · rw [htable]
        exact hk
      · rw [Scope.nameOf, htable]
        exact hname
  · rintro ⟨hds, htext⟩
    obtain ⟨s, hreads, htable⟩ := reads_of_parse hparse
    rw [removeBlanks_of_spellOut hspell] at hreads
    rw [hbind] at hspell
    exact ⟨s, nested_of_reads hds htext hspell hreads, htable⟩

/-- Two definitions, the second with a list of parameters and with the first in its body: a nest of
    two redexes around `n.a`. -/
theorem definitions_keep_boundaries_twice :
    parse "t(n(n.a).(x(y(t.x)))).(z(z))".toList
        = .ok (.abs 1 (.abs 4 (.app 4 [.var 5])
            (.abs 2 (.abs 3 (.app 1 [.var 2]) .absent) .absent)) (.abs 0 (.var 0) .absent),
          #["z", "t", "x", "y", "n", "a"]) ∧
      ∃ s : Scope, Nested [⟨"t", "z(z)"⟩, ⟨"n", "x,y(t.x)"⟩] "n.a".toList {}
        (.abs 1 (.abs 4 (.app 4 [.var 5])
          (.abs 2 (.abs 3 (.app 1 [.var 2]) .absent) .absent)) (.abs 0 (.var 0) .absent)) s ∧
        s.table = #["z", "t", "x", "y", "n", "a"] := by
  have hparse : parse "t(n(n.a).(x(y(t.x)))).(z(z))".toList
      = .ok (.abs 1 (.abs 4 (.app 4 [.var 5])
          (.abs 2 (.abs 3 (.app 1 [.var 2]) .absent) .absent)) (.abs 0 (.var 0) .absent),
        #["z", "t", "x", "y", "n", "a"]) := by cbv
  have hpeel : peelDefinitions "let t z(z); let n x, y(t.x); n.a".toList
      = .ok ([⟨"t", "z(z)"⟩, ⟨"n", "x,y(t.x)"⟩], " n.a".toList) := by cbv
  have hdesugar : desugar "let t z(z); let n x, y(t.x); n.a".toList
      = .ok ⟨2, "t(n(n.a).(x(y(t.x)))).(z(z))".toList⟩ := by cbv
  refine ⟨hparse, (definitions_keep_boundaries hpeel hdesugar hparse).mpr ⟨?_, ?_⟩⟩
  · simp only [List.forall_mem_cons]
    refine ⟨⟨⟨.ofChars ['t'] rfl (by decide), rfl⟩, balanced_iff.mpr (by decide)⟩,
      ⟨⟨.ofChars ['n'] rfl (by decide), rfl⟩, balanced_iff.mpr (by decide)⟩, List.forall_mem_nil _⟩
  · exact balanced_iff.mpr (by decide)

/-- A body that closes the parentheses around it is two arguments, and a name with a dot is a call:
    both programs can be read, and neither is the nest of its definitions. -/
theorem definitions_leak :
    (peelDefinitions "let f a).(b; f".toList = .ok ([⟨"f", "a).(b"⟩], " f".toList) ∧
      desugar "let f a).(b; f".toList = .ok ⟨1, "f(f).(a).(b)".toList⟩ ∧
      parse "f(f).(a).(b)".toList = .ok (.abs 2 (.app 2 [.var 1]) (.var 0), #["a", "b", "f"]) ∧
      ¬ ∃ s : Scope, Nested [⟨"f", "a).(b"⟩] (removeBlanks " f".toList) {}
        (.abs 2 (.app 2 [.var 1]) (.var 0)) s ∧ s.table = #["a", "b", "f"]) ∧
    (peelDefinitions "let a x; let a.b c; e".toList
        = .ok ([⟨"a", "x"⟩, ⟨"a.b", "c"⟩], " e".toList) ∧
      desugar "let a x; let a.b c; e".toList = .ok ⟨2, "a(a.b(e).(c)).(x)".toList⟩ ∧
      parse "a(a.b(e).(c)).(x)".toList
        = .ok (.abs 1 (.app 1 [.abs 2 (.var 3) .absent, .var 4]) (.var 0),
          #["x", "a", "b", "e", "c"]) ∧
      ¬ ∃ s : Scope, Nested [⟨"a", "x"⟩, ⟨"a.b", "c"⟩] (removeBlanks " e".toList) {}
        (.abs 1 (.app 1 [.abs 2 (.var 3) .absent, .var 4]) (.var 0)) s ∧
        s.table = #["x", "a", "b", "e", "c"]) := by
  refine ⟨⟨by cbv, by cbv, by cbv, ?_⟩, by cbv, by cbv, by cbv, ?_⟩
  · rintro ⟨s, hnested, -⟩
    obtain ⟨-, -, hds, -⟩ := hnested.sealed Scope.sound_empty
    have hbody := balanced_iff.mp (hds _ List.mem_cons_self).2
    exact absurd hbody (by decide)
  · rintro ⟨s, hnested, -⟩
    cases hnested with
    | redex _ _ _ hbody => cases hbody

end DotLambda
