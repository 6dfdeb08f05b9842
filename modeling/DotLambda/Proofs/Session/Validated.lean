import DotLambda.Proofs.Desugaring.Canonical
import DotLambda.Proofs.Reading.Printed
import DotLambda.Proofs.Session.Remembered

namespace DotLambda

/-!
# Sessions — names by themselves

A session checks the definitions of a line with one expression, the name that the line defines
last.  That is enough for every name, defined or not: bodies may be out of balance and reach into
each other, but the names of the definitions and the parentheses that they open stand in front of
the expression untouched, so the expression is alone in the innermost block.

* `Definition.openings`, `Definition.closings` — what stands before and behind the expression;
* `derives_innermost` — in the innermost block, one name is as good as another;
* `load_name` — so all names are programs underneath some definitions if one is;
* `Session.LegallyReachable` — sessions whose lines define legal names;
* `Session.Usable` — what they have in common;
* `Session.eval_name` — in such a session no name by itself is refused.
-/

/-! ### Around the expression -/

namespace Definition

/-- What stands before the expression that definitions are bound around. -/
def openings (ds : List Definition) : List Char :=
  ds.flatMap fun d => d.name.toList ++ ['(']

/-- What stands behind it: the bodies, the last one first. -/
def closings : List Definition → List Char
  | [] => []
  | d :: ds => closings ds ++ ')' :: '.' :: '(' :: (d.body.toList ++ [')'])

theorem openings_cons (d : Definition) (ds : List Definition) :
    openings (d :: ds) = d.name.toList ++ '(' :: openings ds := by
  simp [openings]

/-- Bound definitions open one after the other and are closed behind the text. -/
theorem bindDefinitions_eq (ds : List Definition) (text : List Char) :
    bindDefinitions ds text = openings ds ++ (text ++ closings ds) := by
  induction ds with
  | nil => simp [bindDefinitions, openings, closings]
  | cons d ds ih =>
    rw [bindDefinitions, List.foldr_cons, ← bindDefinitions, ih, around_eq, openings_cons]
    simp [closings]

/-- The innermost block is closed directly behind the expression. -/
theorem closings_eq_cons (d : Definition) (ds : List Definition) :
    ∃ rest, closings (d :: ds) = ')' :: rest := by
  induction ds generalizing d with
  | nil => exact ⟨_, rfl⟩
  | cons d' ds ih =>
    obtain ⟨rest, hrest⟩ := ih d'
    exact ⟨_, by rw [closings, hrest]; rfl⟩

end Definition

/-! ### The innermost block -/

section

open Definition

variable {ds : List Definition} {n m : Name} {rest : List Char}

/-- The names of the definitions open one parenthesis each and close none. -/
theorem openings_facts (hds : ∀ d ∈ ds, ∃ k : Name, k.word = d.name) :
    (∀ c ∈ openings ds, c ≠ ')' ∧ c ≠ ',') ∧
      ∀ depth rest, depthBehind depth (openings ds ++ rest)
        = depthBehind (depth + ds.length) rest := by
  induction ds with
  | nil => exact ⟨List.forall_mem_nil _, fun _ _ => rfl⟩
  | cons d ds ih =>
    rw [List.forall_mem_cons] at hds
    obtain ⟨⟨k, hk⟩, hds⟩ := hds
    obtain ⟨hnone, hdepth⟩ := ih hds
    rw [openings_cons, Name.toList_of_word hk]
    refine ⟨fun c hc => ?_, fun depth rest => ?_⟩
    · rcases List.mem_append.mp hc with hc | hc
      · exact ⟨(k.not_paren c hc).2, fun heq => k.not_comma (heq ▸ hc)⟩
      · rcases List.mem_cons.mp hc with rfl | hc
        · decide
        · exact hnone c hc
    · rw [List.append_assoc, (balanced_of_not_paren k.not_paren).depthBehind_append,
        List.cons_append, depthBehind_open, hdepth, List.length_cons]
      congr 1
      omega

/-- A balanced text that is followed by a closing parenthesis does not end inside a front that only
    opens parentheses. -/
theorem balanced_split {inner front tail : List Char} {depth : Nat} (hinner : Balanced inner)
    (hclose : ∀ c ∈ front, c ≠ ')') (hfront : depthBehind 0 front = some (depth + 1))
    (h : inner ++ ')' :: tail = front ++ ')' :: rest) :
    ∃ more, inner = front ++ ')' :: more ∧ rest = more ++ ')' :: tail := by
  have hne : inner ≠ front := by
    rintro rfl
    rw [balanced_iff.mp hinner] at hfront
    cases hfront
  rcases List.append_eq_append_iff.mp h with ⟨more, hmore, heq⟩ | ⟨more, hmore, heq⟩
  · -- The front would go on behind the parenthesis that follows the balanced text.
    cases more with
    | nil => exact absurd (by simpa using hmore.symm) hne
    | cons c more =>
      rw [List.cons_append, List.cons.injEq] at heq
      exact absurd heq.1.symm (hclose c (hmore ▸ by simp))
  · cases more with
    | nil => exact absurd (by simpa using hmore) hne
    | cons c more =>
      rw [List.cons_append, List.cons.injEq] at heq
      exact ⟨more, by rw [hmore, ← heq.1], heq.2⟩

/-- Some definitions with a name in their innermost block, in a block themselves: this block ends
    where it does with any other name there. -/
theorem cut_innermost {k : Name} {block : Block} (hne : ds ≠ [])
    (hds : ∀ d ∈ ds, ∃ k : Name, k.word = d.name)
    (hcut : Block.cut (k.chars ++ '(' :: (openings ds ++ (n.chars ++ ')' :: rest))) = .ok block) :
    ∃ more tail, block = ⟨k.chars, openings ds ++ (n.chars ++ ')' :: more), tail⟩ ∧
      ∀ m : Name, Block.cut (k.chars ++ '(' :: (openings ds ++ (m.chars ++ ')' :: rest)))
        = .ok ⟨k.chars, openings ds ++ (m.chars ++ ')' :: more), tail⟩ := by
  obtain ⟨hnone, hdepth⟩ := openings_facts hds
  obtain ⟨depth, hlength⟩ := Nat.exists_eq_succ_of_ne_zero (mt List.length_eq_zero_iff.mp hne)
  have hopen (m : Name) : depthBehind 0 (openings ds ++ m.chars) = some (depth + 1) := by
    rw [hdepth, hlength, ← List.append_nil m.chars,
      (balanced_of_not_paren m.not_paren).depthBehind_append, Nat.zero_add]
    rfl
  have hclose : ∀ c ∈ openings ds ++ n.chars, c ≠ ')' :=
    List.forall_mem_append.mpr ⟨fun c hc => (hnone c hc).1, fun c hc => (n.not_paren c hc).2⟩
  have hhead : block.head = k.chars := by
    have hparen : ∀ c ∈ k.chars, (c != '(') = true := fun c hc => by
      simpa using (k.not_paren c hc).1
    rw [Block.head_of_cut hcut, List.takeWhile_append_of_pos hparen]
    simp
  have hbalanced := Block.balanced_of_cut hcut
  have hsplit := Block.text_eq_of_cut hcut
  obtain ⟨head, inner, tail⟩ := block
  simp only at hhead hbalanced hsplit
  subst hhead
  rw [List.append_cancel_left_eq, List.cons.injEq, ← List.append_assoc] at hsplit
  -- The block that was cut out holds the innermost one as a whole.
  obtain ⟨more, rfl, rfl⟩ := balanced_split hbalanced hclose (hopen n) hsplit.2.symm
  refine ⟨more, tail, by rw [List.append_assoc], fun m => ?_⟩
  have hother : Balanced (openings ds ++ (m.chars ++ ')' :: more)) := by
    rw [balanced_iff, depthBehind_append, hopen n] at hbalanced
    rw [balanced_iff, ← List.append_assoc, depthBehind_append, hopen m]
    exact hbalanced
  have hcut' := Block.cut_of_balanced k.not_paren hother tail
  simpa using hcut'

/-- A name is an expression. -/
theorem derives_name (Γ : List String) (n : Name) : Derives Γ n.chars :=
  ⟨.mk (.name n) [], .name Γ n, Expr.text_atom _⟩

/-- **The innermost block.** In the innermost block of some definitions, one name is as good as
    another, whatever stands behind the block. -/
theorem derives_innermost {Γ : List String} (hne : ds ≠ [])
    (hds : ∀ d ∈ ds, ∃ k : Name, k.word = d.name)
    (h : Derives Γ (openings ds ++ (n.chars ++ ')' :: rest))) :
    Derives Γ (openings ds ++ (m.chars ++ ')' :: rest)) := by
  -- The outermost block is cut off, and the names that it binds stay the same.
  induction ds generalizing Γ rest with
  | nil => exact absurd rfl hne
  | cons d ds ih =>
    rw [List.forall_mem_cons] at hds
    obtain ⟨⟨k, hk⟩, hds⟩ := hds
    rw [openings_cons, Name.toList_of_word hk, List.append_assoc, List.cons_append] at h ⊢
    by_cases hlast : ds = []
    · -- The innermost block itself holds nothing but the name.
      subst hlast
      have hcut (n : Name) : Block.cut (k.chars ++ '(' :: (openings [] ++ (n.chars ++ ')' :: rest)))
          = .ok ⟨k.chars, n.chars, rest⟩ :=
        Block.cut_of_balanced k.not_paren (balanced_of_not_paren n.not_paren) rest
      rw [derives_binding (k.hasForm_binding _) (hcut n)] at h
      rw [derives_binding (k.hasForm_binding _) (hcut m)]
      exact ⟨h.1, h.2.1, h.2.2.1, derives_name _ m⟩
    · obtain ⟨block, hcut⟩ := cut_of_derives (k.form_binding _) h
      obtain ⟨more, tail, rfl, hcut'⟩ := cut_innermost hlast hds hcut
      rw [derives_binding (k.hasForm_binding _) hcut] at h
      rw [derives_binding (k.hasForm_binding _) (hcut' m)]
      exact ⟨h.1, h.2.1, h.2.2.1, ih hlast hds h.2.2.2⟩

/-- Lists of parameters are written out behind the innermost block only. -/
theorem spellOut_innermost {core : List Char} (hds : ∀ d ∈ ds, ∃ k : Name, k.word = d.name) :
    spellOutParameters (openings ds ++ (n.chars ++ ')' :: rest)) = .ok core ↔
      ∃ rest', spellOutParameters rest = .ok rest' ∧
        core = openings ds ++ (n.chars ++ ')' :: rest') := by
  have hcomma : ',' ∉ openings ds ++ (n.chars ++ [')']) := by
    have hnone := (openings_facts hds).1
    simp only [List.mem_append, List.mem_singleton, not_or]
    exact ⟨fun h => (hnone _ h).2 rfl, n.not_comma, by decide⟩
  have hends : EndsName (openings ds ++ (n.chars ++ [')'])) := by
    rw [← List.append_assoc]
    exact endsName_concat _ rfl
  have hsplit (rest : List Char) : openings ds ++ (n.chars ++ ')' :: rest)
      = (openings ds ++ (n.chars ++ [')'])) ++ rest := by
    simp
  rw [hsplit, spellOutParameters_behind hcomma hends]
  refine exists_congr fun rest' => and_congr_right fun _ => ?_
  rw [hsplit rest']

end

/-! ### Programs -/

/-- What a source is peeled down to says whether it is a program. -/
theorem load_iff_derives {source text : List Char} {ds : List Definition}
    (h : peeled source = .ok (ds, text)) :
    (∃ program, load source = .ok program) ↔
      ∃ core, spellOutParameters (bindDefinitions ds text) = .ok core ∧ Derives [] core := by
  -- Definitions are peeled off without blanks, and nothing behind them has any.
  have hblank : removeBlanks (bindDefinitions ds text) = bindDefinitions ds text := by
    unfold peeled at h
    cases hpeel : peelDefinitions source with
    | error e =>
      rw [hpeel] at h
      cases h
    | ok p =>
      rw [hpeel] at h
      cases h
      rw [removeBlanks_bindDefinitions (removeBlanks_of_peel hpeel)]
      simp [removeBlanks]
  unfold load loadWith
  rw [desugar_eq_of_peeled h]
  cases hspell : spellOutParameters (bindDefinitions ds text) with
  | error e => simp [Except.map]
  | ok core =>
    have hself : removeBlanks core = core := removeBlanks_of_spellOut (hblank.symm ▸ hspell)
    show (∃ program, (parse core).mapError LoadError.reading = .ok program) ↔ _
    constructor
    · rintro ⟨⟨t, names⟩, hload⟩
      cases hparse : parse core with
      | error e =>
        rw [hparse] at hload
        cases hload
      | ok result => exact ⟨core, rfl, hself ▸ derives_of_parse hparse⟩
    · rintro ⟨_, ⟨⟩, hderives⟩
      obtain ⟨t, names, hparse⟩ := parse_of_derives (hself.symm ▸ hderives)
      exact ⟨(t, names), by rw [hparse]; rfl⟩

section

variable {ds : List Definition} {x y : String}

/-- A name underneath definitions is peeled down to that name. -/
theorem peeled_sourceUnder (hds : ∀ d ∈ ds, d.Written) (hx : IsPlainName x) :
    peeled (sourceUnder ds x).toList = .ok (ds, x.toList) := by
  have hname : peeled x.toList = .ok ([], x.toList) := by
    rw [peeled, peel_expression (not_startsDefinition fun c hc => (hx.2 c hc).1), Except.map,
      hx.removeBlanks_eq]
  rw [sourceUnder, Session.toList_intercalate_concat,
    (Session.defines_sources hds).peeled_append, hname, Except.map, List.append_nil]

/-- A name with no definitions is a program. -/
theorem load_alone (hx : IsPlainName x) :
    ∃ program, load (sourceUnder [] x).toList = .ok program := by
  rw [load_iff_derives (peeled_sourceUnder (List.forall_mem_nil _) hx)]
  obtain ⟨n, rfl⟩ := hx.exists_name
  rw [Name.toList_of_word rfl]
  exact ⟨n.chars, spellOutParameters_iff.mpr (.inl ⟨n.not_comma, rfl⟩), derives_name [] n⟩

/-- **Names underneath definitions.** If one name is a program underneath some definitions, every
    name is. -/
theorem load_name (hds : ∀ d ∈ ds, d.Written) (hnames : ∀ d ∈ ds, IsPlainName d.name)
    (hx : IsPlainName x) (hy : IsPlainName y)
    (h : ∃ program, load (sourceUnder ds x).toList = .ok program) :
    ∃ program, load (sourceUnder ds y).toList = .ok program := by
  cases ds with
  | nil => exact load_alone hy
  | cons d ds =>
    rw [load_iff_derives (peeled_sourceUnder hds hx)] at h
    rw [load_iff_derives (peeled_sourceUnder hds hy)]
    obtain ⟨n, rfl⟩ := hx.exists_name
    obtain ⟨m, rfl⟩ := hy.exists_name
    have hwords : ∀ d' ∈ d :: ds, ∃ k : Name, k.word = d'.name :=
      fun d' hd => (hnames d' hd).exists_name
    obtain ⟨rest, hrest⟩ := Definition.closings_eq_cons d ds
    rw [Definition.bindDefinitions_eq, hrest, Name.toList_of_word rfl] at h ⊢
    obtain ⟨core, hspell, hderives⟩ := h
    -- Lists are written out behind the innermost block, so the two texts still differ in the name
    -- alone.
    obtain ⟨rest', hbehind, rfl⟩ := (spellOut_innermost hwords).mp hspell
    exact ⟨_, (spellOut_innermost hwords).mpr ⟨rest', hbehind, rfl⟩,
      derives_innermost (List.cons_ne_nil d ds) hwords hderives⟩

end

/-- A program that can be loaded fails in its reduction or not at all. -/
theorem run_of_load {source : List Char} (h : ∃ program, load source = .ok program)
    (options : Options) :
    (∃ result, run source options = .ok result) ∨
      (∃ e, run source options = .error (.reduction e)) ∨ run source options = .error .nested := by
  obtain ⟨⟨t, names⟩, hload⟩ := h
  unfold run runLogged
  rcases hwith : loadWith .off source with ⟨loaded, journal⟩
  rw [load, hwith] at hload
  cases hload
  dsimp only
  split
  · exact .inr (.inr rfl)
  · exact .inr (.inl ⟨_, rfl⟩)
  · exact .inl ⟨_, rfl⟩

/-! ### Sessions -/

namespace Session

/-- The sessions that calls lead to if every name that a line defines is legal.  Nothing is asked of
    the bodies. -/
inductive LegallyReachable : Session → Prop where
  | start (options : Options) : LegallyReachable { options }
  | define {s : Session} (h : LegallyReachable s) {line : String}
      (hline : ∀ ds rest, peelDefinitions line.toList = .ok (ds, rest) →
        ∀ d ∈ ds, IsPlainName d.name) : LegallyReachable (s.define line).2
  | perform {s : Session} (h : LegallyReachable s) (input : String) :
      LegallyReachable (s.perform input).session
  | reset {s : Session} (h : LegallyReachable s) : LegallyReachable s.reset

/-- Every name by itself is a program in the session. -/
structure Usable (s : Session) : Prop where
  written : ∀ d ∈ s.definitions, d.Written
  legal : ∀ d ∈ s.definitions, IsPlainName d.name
  loads : ∀ x, IsPlainName x → ∃ program, load (s.programFor x).toList = .ok program

variable {s s' : Session} {line x : String}

namespace Usable

/-- A session without definitions is usable. -/
theorem of_nil (h : s.definitions = []) : s.Usable where
  written := h ▸ List.forall_mem_nil _
  legal := h ▸ List.forall_mem_nil _
  loads x hx := by
    rw [programFor, h]
    exact load_alone hx

/-- Only the definitions of a session matter for that. -/
theorem of_eq (hs : s.Usable) (h : s'.definitions = s.definitions) : s'.Usable where
  written := h ▸ hs.written
  legal := h ▸ hs.legal
  loads x hx := by
    rw [programFor, h]
    exact hs.loads x hx

/-- **Step.** The name that the check reads stands for all names. -/
theorem define (hs : s.Usable)
    (hline : ∀ ds rest, peelDefinitions line.toList = .ok (ds, rest) →
      ∀ d ∈ ds, IsPlainName d.name) : (s.define line).2.Usable := by
  rcases hdefine : s.define line with ⟨result, s'⟩
  cases result with
  | error e => exact hs.of_eq (congrArg definitions (define_refused hdefine))
  | ok names =>
    obtain ⟨ds, rest, last, hpeel, hrest, hlast, -, rfl, hload⟩ := define_accepted hdefine
    -- The check has read the last name that the line defines, underneath all definitions.
    have hlegal := hline ds rest hpeel
    have hwritten := (defines_of_peel hpeel hrest).written
    have hall : ∀ d ∈ Definition.enterAll ds s.definitions, d.Written ∧ IsPlainName d.name :=
      fun d hd => (Definition.mem_enterAll hd).elim (fun hnew => ⟨hwritten d hnew, hlegal d hnew⟩)
        fun hold => ⟨hs.written d hold, hs.legal d hold⟩
    refine ⟨fun d hd => (hall d hd).1, fun d hd => (hall d hd).2, fun x hx => ?_⟩
    exact load_name (fun d hd => (hall d hd).1) (fun d hd => (hall d hd).2)
      (hlegal last (List.mem_of_getLast? hlast)) hx hload

end Usable

/-- **Invariant.** Sessions whose lines define legal names are usable. -/
theorem LegallyReachable.usable (h : s.LegallyReachable) : s.Usable := by
  induction h with
  | start options => exact .of_nil rfl
  | define _ hline ih => exact ih.define hline
  | @perform s _ input ih =>
    rcases perform_cases s input with hsame | hnone
    · exact ih.of_eq hsame
    · exact .of_nil hnone
  | reset _ _ => exact .of_nil rfl

/-- **Names by themselves.** In a session whose lines define legal names, whatever the bodies, a
    legal name by itself has a normal form that is shown, or it fails in its reduction.  It can
    always be desugared and read, whether it is defined or not. -/
theorem eval_name (h : s.LegallyReachable) (hx : IsPlainName x) :
    (∃ shown, s.eval x = .ok shown) ∨ (∃ e, s.eval x = .error (.reduction e)) ∨
      s.eval x = .error .nested := by
  have heval : s.eval x
      = (run (s.programFor x).toList s.options).map (·.display s.options.overLines) := rfl
  rw [heval]
  rcases run_of_load (h.usable.loads x hx) s.options with ⟨result, hrun⟩ | ⟨e, hrun⟩ | hrun
  · exact .inl ⟨_, by rw [hrun]; rfl⟩
  · exact .inr (.inl ⟨e, by rw [hrun]; rfl⟩)
  · exact .inr (.inr (by rw [hrun]; rfl))

/-- Two definitions that are out of balance one by one, and the first of them in a new form: a name
    that is not defined. -/
theorem eval_name_unbalanced :
    let s : Session := ⟨[⟨"f", "u,v(u.w)))"⟩, ⟨"g", "((b(c)"⟩], {}⟩
    s.LegallyReachable ∧ IsPlainName "q" ∧
      ((∃ shown, s.eval "q" = .ok shown) ∨ (∃ e, s.eval "q" = .error (.reduction e)) ∨
        s.eval "q" = .error .nested) := by
  intro s
  have hfirst : define {} "let f a)); let g ((b(c);"
      = (.ok ["f", "g"], ⟨[⟨"f", "a))"⟩, ⟨"g", "((b(c)"⟩], {}⟩) := by cbv
  have hsecond : define ⟨[⟨"f", "a))"⟩, ⟨"g", "((b(c)"⟩], {}⟩ "let f u, v(u.w)));"
      = (.ok ["f"], s) := by cbv
  have hpeel : peelDefinitions "let f a)); let g ((b(c);".toList
      = .ok ([⟨"f", "a))"⟩, ⟨"g", "((b(c)"⟩], []) := by cbv
  have hpeel' : peelDefinitions "let f u, v(u.w)));".toList = .ok ([⟨"f", "u,v(u.w)))"⟩], []) := by
    cbv
  have hlegal : ∀ ds rest, peelDefinitions "let f a)); let g ((b(c);".toList = .ok (ds, rest) →
      ∀ d ∈ ds, IsPlainName d.name := by
    intro ds rest h
    rw [hpeel] at h
    cases h
    simp [IsPlainName, isBlank]
  have hlegal' : ∀ ds rest, peelDefinitions "let f u, v(u.w)));".toList = .ok (ds, rest) →
      ∀ d ∈ ds, IsPlainName d.name := by
    intro ds rest h
    rw [hpeel'] at h
    cases h
    simp [IsPlainName, isBlank]
  have hreachable : s.LegallyReachable := by
    have hdefine := (LegallyReachable.start {}).define hlegal
    rw [hfirst] at hdefine
    have hredefine := hdefine.define hlegal'
    rwa [hsecond] at hredefine
  have hname : IsPlainName "q" := by simp [IsPlainName, isBlank]
  exact ⟨hreachable, hname, eval_name hreachable hname⟩

end Session

end DotLambda
