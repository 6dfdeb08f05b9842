import DotLambda.Proofs.Reading.Equations
import DotLambda.Proofs.Reading.Spelling

namespace DotLambda

/-!
# Reading — other names

Reading looks at names only to tell them apart.  If all names are replaced and different names stay
different, a text is read as before: the same identities are handed out, the table has the new
names, and what goes wrong goes wrong in the same place.

* `Scope.respell`, `ReadError.respell` — scopes and errors with other names;
* `Reader.Respelled`, `Reading.Respelled` — states and readings that differ in their names;
* `Reader.expression_respelled` — the two readings of a text stay in step;
* `parse_respell` — reading commutes with renaming.
-/

/-! ### Errors -/

/-- A fault without what it suggests. -/
def Fault.withoutSuggestion : Fault → Fault
  | unknownFunction name _ => unknownFunction name none
  | fault => fault

namespace ReadError

/-- An error without what it suggests. -/
def withoutSuggestion : ReadError → ReadError
  | malformed e => malformed ⟨e.fault.withoutSuggestion, e.text⟩
  | rebound name => rebound name

/-- An error with other names, without what it suggests. -/
def respell (ρ : PlainName → PlainName) : ReadError → ReadError
  | malformed e => malformed ⟨e.fault.respell ρ, respellString ρ e.text⟩
  | rebound name => rebound (DotLambda.respell ρ name)

end ReadError

variable {ρ : PlainName → PlainName}

/-- A fault that is respelled suggests nothing. -/
theorem Fault.withoutSuggestion_respell (fault : Fault) :
    (fault.respell ρ).withoutSuggestion = fault.respell ρ := by
  cases fault <;> rfl

/-- An error on a text is respelled with the text. -/
theorem ReadError.respell_on (fault : Fault) (text : List Char) :
    (ReadError.on fault text).respell ρ = .on (fault.respell ρ) (respellText ρ text) := by
  rw [on, respell, SyntaxError.on, respellString, String.toList_ofList]
  rfl

/-- A name that is bound twice is told from the error of either text. -/
theorem ReadError.rebound_iff {e e' : ReadError} (hρ : Function.Injective ρ)
    (h : e'.withoutSuggestion = e.respell ρ) (name : String) :
    e' = .rebound (DotLambda.respell ρ name) ↔ e = .rebound name := by
  cases e with
  | malformed e =>
    cases e' with
    | malformed e' => exact ⟨nofun, nofun⟩
    | rebound n' => cases h
  | rebound n =>
    cases e' with
    | malformed e' => cases h
    | rebound n' =>
      have hn : n' = DotLambda.respell ρ n := ReadError.rebound.inj h
      rw [hn, rebound.injEq, rebound.injEq, (respell_injective hρ).eq_iff]

/-! ### Scopes -/

namespace Scope

section

variable (ρ)

/-- A scope with other names. -/
def respell (s : Scope) : Scope where
  table := s.table.map (DotLambda.respell ρ)
  stack := s.stack
  unbound := s.unbound.map fun p => (DotLambda.respell ρ p.1, p.2)

end

/-- The empty scope has nothing to respell. -/
theorem respell_empty : respell ρ {} = {} := by
  simp [respell]

variable {s : Scope} {name : String}

/-- An identity has its name respelled. -/
theorem nameOf_respell (k : Nat) : (s.respell ρ).nameOf k = DotLambda.respell ρ (s.nameOf k) := by
  show (s.table.map _)[k]?.getD "" = _
  rw [Array.getElem?_map, nameOf]
  cases s.table[k]? with
  | none => exact DotLambda.respell_empty.symm
  | some name => rfl

section

variable (hρ : Function.Injective ρ)
include hρ

/-- Names are respelled apart, so that an identity has the same names as before. -/
theorem nameOf_respell_beq (k : Nat) (name : String) :
    ((s.respell ρ).nameOf k == DotLambda.respell ρ name) = (s.nameOf k == name) := by
  rw [nameOf_respell, Bool.eq_iff_iff, beq_iff_eq, beq_iff_eq, (respell_injective hρ).eq_iff]

/-- A respelled name is found where the name was. -/
theorem find?_respell (name : String) :
    (s.respell ρ).find? (DotLambda.respell ρ name) = s.find? name := by
  unfold find?
  simp only [nameOf_respell_beq hρ]
  rfl

/-- A respelled name is bound where the name was. -/
theorem binds_respell (name : String) :
    (s.respell ρ).binds (DotLambda.respell ρ name) = s.binds name := by
  unfold binds
  simp only [nameOf_respell_beq hρ]
  rfl

/-- So it is among the free names. -/
theorem lookup_respell (unbound : List (String × Nat)) (name : String) :
    (unbound.map fun p => (DotLambda.respell ρ p.1, p.2)).lookup (DotLambda.respell ρ name)
      = unbound.lookup name := by
  induction unbound with
  | nil => rfl
  | cons p unbound ih =>
    have hsame : (DotLambda.respell ρ name == DotLambda.respell ρ p.1) = (name == p.1) := by
      rw [Bool.eq_iff_iff, beq_iff_eq, beq_iff_eq, (respell_injective hρ).eq_iff]
    rw [List.map_cons, List.lookup_cons, hsame, ih, List.lookup_cons]

/-- A respelled name is resolved to the same identity. -/
theorem resolve_respell (name : String) :
    (s.respell ρ).resolve (DotLambda.respell ρ name)
      = ((s.resolve name).1, (s.resolve name).2.respell ρ) := by
  unfold resolve
  rw [find?_respell hρ]
  cases s.find? name with
  | some id => rfl
  | none =>
    have hlookup : (s.respell ρ).unbound.lookup (DotLambda.respell ρ name)
        = s.unbound.lookup name := lookup_respell hρ s.unbound name
    unfold freeName
    rw [hlookup]
    cases s.unbound.lookup name with
    | some id => rfl
    | none => simp [allot, respell]

end

/-- A binder of a respelled name has the same identity. -/
theorem bind_respell (name : String) :
    (s.respell ρ).bind (DotLambda.respell ρ name)
      = ((s.bind name).1, (s.bind name).2.respell ρ) := by
  simp [bind, allot, respell]

end Scope

/-! ### States and readings -/

section

variable (ρ)

/-- Two states of reading that differ in their names. -/
structure Reader.Respelled (r r' : Reader) : Prop where
  scope : r'.scope = r.scope.respell ρ
  pending : r'.pending = r.pending

/-- Two readings that differ in their names, and in what their errors suggest. -/
structure Reading.Respelled {α : Type} (x y : Reading α) : Prop where
  outcome : y.1.mapError ReadError.withoutSuggestion = x.1.mapError (ReadError.respell ρ)
  reader : x.2.Respelled ρ y.2

end

namespace Reading.Respelled

variable {α β : Type} {x y : Reading α} {r r' : Reader}

/-- Readings of the same value, by readers that are respelled. -/
theorem ok (h : r.Respelled ρ r') (a : α) : Respelled ρ (.ok a, r) (.ok a, r') :=
  ⟨rfl, h⟩

/-- Readings of errors that are respelled. -/
theorem error (h : r.Respelled ρ r') {e e' : ReadError}
    (he : e'.withoutSuggestion = e.respell ρ) :
    Respelled ρ ((.error e, r) : Reading α) (.error e', r') :=
  ⟨congrArg Except.error he, h⟩

/-- Readers that are respelled fail with faults and texts that are. -/
theorem fail (h : r.Respelled ρ r') {fault fault' : Fault} {text text' : List Char}
    (hfault : fault'.withoutSuggestion = fault.respell ρ) (htext : text' = respellText ρ text) :
    Respelled ρ (r.fail fault text : Reading α) (r'.fail fault' text') := by
  refine .error h ?_
  rw [ReadError.respell_on, ← hfault, ← htext]
  rfl

/-- A result is the same in both, and an error is in both. -/
theorem cases (h : Respelled ρ x y) :
    (∃ a r r', x = (.ok a, r) ∧ y = (.ok a, r') ∧ r.Respelled ρ r') ∨
      ∃ e e' r r', x = (.error e, r) ∧ y = (.error e', r') ∧
        e'.withoutSuggestion = e.respell ρ ∧ r.Respelled ρ r' := by
  obtain ⟨houtcome, hreader⟩ := h
  rcases x with ⟨e | a, r⟩ <;> rcases y with ⟨e' | a', r'⟩
  · exact .inr ⟨e, e', r, r', rfl, rfl, Except.error.inj houtcome, hreader⟩
  · cases houtcome
  · cases houtcome
  · cases houtcome
    exact .inl ⟨a, r, r', rfl, rfl, hreader⟩

/-- What is read next is respelled, if what was read first is. -/
theorem andThen (h : Respelled ρ x y) {next next' : α → Reader → Reading β}
    (hnext : ∀ a r r', r.Respelled ρ r' → Respelled ρ (next a r) (next' a r')) :
    Respelled ρ (x.andThen next) (y.andThen next') := by
  rcases h.cases with ⟨a, r, r', rfl, rfl, hr⟩ | ⟨e, e', r, r', rfl, rfl, he, hr⟩
  · exact hnext a r r' hr
  · exact .error hr he

/-- The value may be changed in the same way on both sides. -/
theorem map (h : Respelled ρ x y) (f : α → β) : Respelled ρ (x.map f) (y.map f) := by
  rcases h.cases with ⟨a, r, r', rfl, rfl, hr⟩ | ⟨e, e', r, r', rfl, rfl, he, hr⟩
  · exact .ok hr (f a)
  · exact .error hr he

/-- So may the reader. -/
theorem leaving (h : Respelled ρ x y) {f f' : Reader → Reader}
    (hf : ∀ r r', r.Respelled ρ r' → (f r).Respelled ρ (f' r')) :
    Respelled ρ (x.leaving f) (y.leaving f') :=
  ⟨h.outcome, hf _ _ h.reader⟩

end Reading.Respelled

namespace Reader

variable {r r' : Reader}

section

variable (hρ : Function.Injective ρ)
include hρ

/-- A bare name is read in the same way when it is respelled. -/
theorem bareName_respelled {text : List Char} (hform : Form.of text = .bare)
    (h : r.Respelled ρ r') :
    Reading.Respelled ρ (r.bareName text) (r'.bareName (respellText ρ text)) := by
  have hfault := nameFault?_respellText (ρ := ρ) text
  unfold bareName
  rw [hfault]
  cases hname : nameFault? text with
  | some fault => exact .fail h fault.withoutSuggestion_respell rfl
  | none =>
    have hresolve := Scope.resolve_respell (s := r.scope) hρ (String.ofList text)
    rw [Option.map_none]
    dsimp only
    rw [ofList_respellText hname (Form.not_dot_of_bare hform), h.scope, h.pending, hresolve]
    exact ⟨rfl, rfl, rfl⟩

/-- So is a call on arguments that have been read. -/
theorem call_respelled (h : r.Respelled ρ r') (text : List Char) {name : List Char}
    (hname : nameFault? name = none) (hdot : '.' ∉ name) (own : List Term) :
    Reading.Respelled ρ (call text name own r)
      (call (respellText ρ text) (respellText ρ name) own r') := by
  unfold call
  rw [ofList_respellText hname hdot, h.scope, Scope.find?_respell hρ]
  cases r.scope.find? (String.ofList name) with
  | none =>
    -- The suggestion is looked for among the spellings in sight, so it is not compared.
    refine .fail h ?_ rfl
    show Fault.unknownFunction _ none = .unknownFunction _ none
    rw [respellString, String.toList_ofList, ofList_respellText hname hdot]
  | some id =>
    rw [h.pending]
    exact ⟨rfl, h.scope, rfl⟩

end

mutual

/-- **Two readings in step.** A text and the text with other names take the same path through the
    reader, and their states differ in the names only. -/
theorem expression_respelled (hρ : Function.Injective ρ) (text : List Char) {r r' : Reader}
    (h : r.Respelled ρ r') :
    Reading.Respelled ρ (expression text r) (expression (respellText ρ text) r') := by
  match text with
  | [] =>
    have hnil : respellText ρ [] = [] := respellText_eq_nil.mpr rfl
    rw [hnil, expression_nil, expression_nil]
    exact .fail h rfl hnil.symm
  | c :: rest =>
    by_cases hc : c = '('
    · subst hc
      -- The block is cut out at the same parentheses.
      have hcut' := Block.cut_respellText (ρ := ρ) ('(' :: rest)
      rw [respellText_cons rfl] at hcut' ⊢
      cases hcut : Block.cut ('(' :: rest) with
      | error fault =>
        rw [hcut] at hcut'
        rw [expression_unclosed _ hcut, expression_unclosed _ hcut']
        exact .fail h rfl (respellText_cons rfl rest).symm
      | ok block =>
        have : block.inner.length < rest.length + 1 := Block.length_inner_lt hcut
        have : block.tail.length < rest.length + 1 := Block.length_tail_lt hcut
        rw [hcut] at hcut'
        rw [expression_opened _ hcut, expression_opened _ hcut']
        refine (argumentList_respelled hρ block.tail block.tail h).andThen fun args q q' hq => ?_
        exact expression_respelled hρ block.inner ⟨hq.scope, congrArg (args ++ ·) hq.pending⟩
    · have hopen : (c :: rest).head? ≠ some '(' := fun h => hc (Option.some.inj h)
      have hopen' : (respellText ρ (c :: rest)).head? ≠ some '(' :=
        mt (head?_respellText rfl).mp hopen
      have hne' : respellText ρ (c :: rest) ≠ [] :=
        mt respellText_eq_nil.mp (List.cons_ne_nil c rest)
      rw [expression_named _ (List.cons_ne_nil _ _) hopen, expression_named _ hne' hopen',
        form_respellText]
      have hnote : (r.note (c :: rest)).Respelled ρ (r'.note (respellText ρ (c :: rest))) :=
        ⟨h.scope, h.pending⟩
      cases hform : Form.of (c :: rest) with
      | bare => exact bareName_respelled hρ hform hnote
      | binding => exact abstraction_respelled hρ (c :: rest) hform hnote
      | call => exact application_respelled hρ (c :: rest) hnote
termination_by 3 * text.length + 2

/-- So is a binding. -/
theorem abstraction_respelled (hρ : Function.Injective ρ) (text : List Char)
    (hform : Form.of text = .binding) {r r' : Reader} (h : r.Respelled ρ r') :
    Reading.Respelled ρ (abstraction text r) (abstraction (respellText ρ text) r') := by
  have hbinder : binderName (respellText ρ text) = respellText ρ (binderName text) :=
    (span_respellText rfl text).1
  have hfault := nameFault?_respellText (ρ := ρ) (binderName text)
  rw [← hbinder] at hfault
  cases hname : nameFault? (binderName text) with
  | some fault =>
    rw [hname] at hfault
    rw [abstraction_of_fault _ hname, abstraction_of_fault _ hfault]
    exact .fail h fault.withoutSuggestion_respell rfl
  | none =>
    rw [hname] at hfault
    have hword : String.ofList (binderName (respellText ρ text))
        = respell ρ (String.ofList (binderName text)) := by
      rw [hbinder]
      exact ofList_respellText hname (Form.not_dot_of_binding hform)
    -- Different names stay different, so the binder hides another one in both texts or in none.
    have hsame : r'.scope.binds (String.ofList (binderName (respellText ρ text)))
        = r.scope.binds (String.ofList (binderName text)) := by
      rw [hword, h.scope, Scope.binds_respell hρ]
    cases hbound : r.scope.binds (String.ofList (binderName text)) with
    | true =>
      rw [abstraction_rebound _ hname hbound, abstraction_rebound _ hfault (hsame.trans hbound),
        hword]
      exact .error h rfl
    | false =>
      have hcut' := Block.cut_respellText (ρ := ρ) text
      cases hcut : Block.cut text with
      | error fault =>
        rw [hcut] at hcut'
        rw [abstraction_unclosed _ hname hbound hcut,
          abstraction_unclosed _ hfault (hsame.trans hbound) hcut']
        exact .fail h rfl rfl
      | ok block =>
        have := Block.length_inner_lt hcut
        have := Block.length_tail_lt hcut
        rw [hcut] at hcut'
        rw [abstraction_of_cut _ hname hbound hcut,
          abstraction_of_cut _ hfault (hsame.trans hbound) hcut', hword]
        refine (argumentList_respelled hρ block.tail block.tail h).andThen fun args q q' hq => ?_
        rw [hq.scope, hq.pending, Scope.bind_respell]
        have hinside (scope : Scope) (queue : List Term) :
            ({ q with scope }.holding queue).Respelled ρ
              ({ q' with scope := scope.respell ρ }.holding queue) := ⟨rfl, rfl⟩
        refine ((expression_respelled hρ block.inner (hinside _ _)).map _).leaving fun q q' hq => ?_
        exact ⟨congrArg Scope.leave hq.scope, hq.pending⟩
termination_by 3 * text.length + 1

/-- So is a call with its arguments. -/
theorem application_respelled (hρ : Function.Injective ρ) (text : List Char) {r r' : Reader}
    (h : r.Respelled ρ r') :
    Reading.Respelled ρ (application text r) (application (respellText ρ text) r') := by
  obtain ⟨hspan, hlist⟩ := span_respellText (ρ := ρ) (m := '.') rfl text
  have hcalled : calledName (respellText ρ text) = respellText ρ (calledName text) := hspan
  have hfault := nameFault?_respellText (ρ := ρ) (calledName text)
  rw [← hcalled] at hfault
  cases hname : nameFault? (calledName text) with
  | some fault =>
    rw [hname] at hfault
    rw [application_of_fault _ hname, application_of_fault _ hfault]
    exact .fail h fault.withoutSuggestion_respell rfl
  | none =>
    have := (List.dropWhile_sublist (l := text) fun c => c != '.').length_le
    rw [hname] at hfault
    rw [application_of_name _ hname, application_of_name _ hfault, hlist]
    refine (argumentList_respelled hρ _ _ h).andThen fun own q q' hq => ?_
    rw [hcalled]
    exact call_respelled hρ hq text hname (Expr.not_dot_called text) own
termination_by 3 * text.length + 1

/-- So are arguments. -/
theorem argumentList_respelled (hρ : Function.Injective ρ) (whole text : List Char)
    {r r' : Reader} (h : r.Respelled ρ r') :
    Reading.Respelled ρ (argumentList whole text r)
      (argumentList (respellText ρ whole) (respellText ρ text) r') := by
  match text with
  | [] =>
    rw [respellText_eq_nil.mpr rfl, argumentList_nil, argumentList_nil]
    exact .ok h []
  | c :: rest =>
    by_cases hc : c = '.'
    · subst hc
      rw [respellText_cons rfl]
      by_cases hne : rest = []
      · subst hne
        rw [respellText_eq_nil.mpr rfl, argumentList_of_missing, argumentList_of_missing]
        exact .fail h rfl rfl
      · have hne' : respellText ρ rest ≠ [] := mt respellText_eq_nil.mp hne
        -- The argument is cut off at the same place, because respelling keeps delimiters.
        have hcut' := cutArgument_respellText (ρ := ρ) rest
        cases hcut : cutArgument rest with
        | error fault =>
          rw [hcut] at hcut'
          rw [argumentList_unclosed _ whole hne hcut, argumentList_unclosed _ _ hne' hcut']
          exact .fail h rfl rfl
        | ok cut =>
          obtain ⟨arg, after⟩ := cut
          have := cutArgument_length hcut
          rw [hcut] at hcut'
          rw [argumentList_of_cut _ whole hne hcut, argumentList_of_cut _ _ hne' hcut']
          have hfresh : r.fresh.Respelled ρ r'.fresh := ⟨h.scope, rfl⟩
          refine .andThen (.leaving (expression_respelled hρ arg hfresh) ?_) fun t q q' hq => ?_
          · exact fun q q' hq => ⟨hq.scope, h.pending⟩
          · exact (argumentList_respelled hρ whole after hq).map _
    · have hdot : (c :: rest).head? ≠ some '.' := fun h => hc (Option.some.inj h)
      have hdot' : (respellText ρ (c :: rest)).head? ≠ some '.' :=
        mt (head?_respellText rfl).mp hdot
      have hne' : respellText ρ (c :: rest) ≠ [] :=
        mt respellText_eq_nil.mp (List.cons_ne_nil c rest)
      rw [argumentList_other _ whole (List.cons_ne_nil _ _) hdot, argumentList_other _ _ hne' hdot']
      exact .fail h rfl rfl
termination_by 3 * text.length
decreasing_by
  all_goals
    subst_vars
    simp only [List.length_cons]
    omega

end

/-- And so is a program. -/
theorem program_respelled (hρ : Function.Injective ρ) (text : List Char) {r r' : Reader}
    (h : r.Respelled ρ r') :
    Reading.Respelled ρ (program text r) (program (respellText ρ text) r') := by
  have hempty : (respellText ρ text).isEmpty = text.isEmpty := by
    rw [Bool.eq_iff_iff, List.isEmpty_iff, List.isEmpty_iff, respellText_eq_nil]
  unfold program
  rw [hempty]
  split
  · exact .fail h rfl (respellText_eq_nil.mpr rfl).symm
  · exact expression_respelled hρ text ⟨h.scope, rfl⟩

end Reader

/-! ### The names of a table -/

/-- A name without blanks is a plain one. -/
theorem Name.isPlainName {n : Name} (h : ∀ c ∈ n.chars, isBlank c = false) :
    IsPlainName n.word := by
  rw [IsPlainName, Name.toList_of_word rfl]
  exact ⟨n.nonempty, fun c hc => ⟨h c hc, n.legal c hc⟩⟩

/-- Names that get an identity stand in the text, so they hold no white space. -/
theorem plain_follows : Reader.Follows
    (fun e s _ _ s' => (∀ c ∈ e.text, isBlank c = false) →
      (∀ name ∈ s.table, IsPlainName name) → ∀ name ∈ s'.table, IsPlainName name)
    (fun as s _ s' => (∀ c ∈ argsText as, isBlank c = false) →
      (∀ name ∈ s.table, IsPlainName name) → ∀ name ∈ s'.table, IsPlainName name) where
  bare {n _ _ _} queue _ hid := by
    intro htext hs name hmem
    rw [Expr.text_atom] at htext
    rcases Scope.resolve_cases hid with ⟨-, rfl⟩ | ⟨-, -, rfl⟩ | ⟨-, -, -, rfl⟩
    · exact hs name hmem
    · exact hs name hmem
    · rcases Array.mem_push.mp hmem with hold | rfl
      · exact hs name hold
      · exact n.isPlainName htext
  binder {n e as _ _ _ _ _ _ _ _} _ _ hid _ hargs hbody := by
    intro htext hs
    simp only [Expr.text, Atom.text, List.forall_mem_append, List.forall_mem_cons] at htext
    obtain ⟨⟨hname, -, hinner, -⟩, hlist⟩ := htext
    refine hbody hinner fun name hmem => ?_
    obtain ⟨-, rfl⟩ := Scope.bind_cases hid
    rcases Array.mem_push.mp hmem with hold | rfl
    · exact hargs hlist hs name hold
    · exact n.isPlainName hname
  call _ _ _ _ hargs := by
    intro htext
    simp only [Expr.text, List.forall_mem_append] at htext
    exact hargs htext.2
  group _ _ hargs hinner := by
    intro htext hs
    simp only [Expr.text, Atom.text, List.forall_mem_append, List.forall_mem_cons] at htext
    obtain ⟨⟨-, hblock, -⟩, hlist⟩ := htext
    exact hinner hblock (hargs hlist hs)
  nil _ := fun _ hs => hs
  cons _ _ harg hafter := by
    intro htext hs
    simp only [argsText, List.forall_mem_cons, List.forall_mem_append] at htext
    obtain ⟨-, hfirst, hlist⟩ := htext
    exact hafter hlist (harg (by rwa [Expr.text_atom]) hs)

/-! ### Programs -/

section

variable {text : List Char}

/-- A text without blanks is read as it stands. -/
theorem parse_eq_program (h : ∀ c ∈ text, isBlank c = false) :
    parse text
      = (Reader.program text {}).1.map fun t => (t, (Reader.program text {}).2.scope.table) := by
  unfold parse parseWith
  rw [removeBlanks_eq_self h]

/-- All names of a text without blanks are plain. -/
theorem plain_of_parse {t : Term} {names : Names} (htext : ∀ c ∈ text, isBlank c = false)
    (h : parse text = .ok (t, names)) : ∀ name ∈ names, IsPlainName name := by
  obtain ⟨s, hread, rfl⟩ := parse_respects plain_follows.respects h
  obtain ⟨-, e, he, hplain⟩ := hread Scope.sound_empty (.nil _)
  rw [removeBlanks_eq_self htext] at he
  exact hplain (he ▸ htext) (by simp)

/-- The two outcomes of a text, before and after its names are replaced. -/
theorem parse_cases (hρ : Function.Injective ρ) (htext : ∀ c ∈ text, isBlank c = false) :
    (∃ t names, parse text = .ok (t, names) ∧
      parse (respellText ρ text) = .ok (t, names.map (respell ρ))) ∨
    ∃ e e', parse text = .error e ∧ parse (respellText ρ text) = .error e' ∧
      e'.withoutSuggestion = e.respell ρ := by
  have hstart : ({} : Reader).Respelled ρ {} := ⟨Scope.respell_empty.symm, rfl⟩
  rw [parse_eq_program htext, parse_eq_program (not_blank_respellText htext)]
  rcases (Reader.program_respelled hρ text hstart).cases with
    ⟨t, r, r', hread, hread', hr⟩ | ⟨e, e', r, r', hread, hread', he, -⟩
  · rw [hread, hread']
    refine .inl ⟨t, r.scope.table, rfl, ?_⟩
    show Except.ok (t, r'.scope.table) = _
    rw [hr.scope]
    rfl
  · rw [hread, hread']
    exact .inr ⟨e, e', rfl, rfl, he⟩

/-- **Reading and renaming.** Let `ρ` take legal names to legal names, different ones to different
    ones.  A text without white space in which all names are replaced by their images can be read if
    it could be read before.  Then the term is the same, with the same identities, and the table has
    the images of the names, which are all legal.  If it cannot be read, the error is the same,
    about the same piece of the text with the names replaced, but for what it suggests; and a binder
    that hides another has the image of the name. -/
theorem parse_respell (hρ : Function.Injective ρ) (htext : ∀ c ∈ text, isBlank c = false) :
    ((∃ program, parse (respellText ρ text) = .ok program) ↔ ∃ program, parse text = .ok program) ∧
    (∀ t names, parse text = .ok (t, names) →
      parse (respellText ρ text) = .ok (t, names.map (respell ρ)) ∧
        ∀ name ∈ names, IsPlainName name) ∧
    (∀ e, parse text = .error e →
      ∃ e', parse (respellText ρ text) = .error e' ∧ e'.withoutSuggestion = e.respell ρ) ∧
    ∀ name, parse (respellText ρ text) = .error (.rebound (respell ρ name)) ↔
      parse text = .error (.rebound name) := by
  rcases parse_cases hρ htext with ⟨t, names, hread, hread'⟩ | ⟨e, e', hread, hread', herror⟩
  · have hplain := plain_of_parse htext hread
    rw [hread, hread']
    refine ⟨⟨fun _ => ⟨_, rfl⟩, fun _ => ⟨_, rfl⟩⟩, ?_, nofun, fun _ => ⟨nofun, nofun⟩⟩
    rintro t names ⟨⟩
    exact ⟨rfl, hplain⟩
  · rw [hread, hread']
    refine ⟨⟨nofun, nofun⟩, nofun, ?_, fun name => ?_⟩
    · rintro e ⟨⟩
      exact ⟨e', rfl, herror⟩
    · rw [Except.error.injEq, Except.error.injEq]
      exact ReadError.rebound_iff hρ herror name

/-- The names `x` and `long` change places; the two binders keep their identities, and the binder
    that hides another one is told under its new name. -/
theorem parse_respell_swapped :
    let ρ : PlainName → PlainName := Equiv.swap ⟨"x", by simp [IsPlainName, isBlank]⟩
      ⟨"long", by simp [IsPlainName, isBlank]⟩
    Function.Injective ρ ∧
      respellText ρ "x(y(x.long)).long".toList = "long(y(long.x)).x".toList ∧
      parse "x(y(x.long)).long".toList
        = .ok (.abs 1 (.abs 2 (.app 1 [.var 0]) .absent) (.var 0), #["long", "x", "y"]) ∧
      parse "long(y(long.x)).x".toList
        = .ok (.abs 1 (.abs 2 (.app 1 [.var 0]) .absent) (.var 0),
          #["long", "x", "y"].map (respell ρ)) ∧
      parse "long(y(long(y)))".toList = .error (.rebound (respell ρ "x")) := by
  intro ρ
  have hρ : Function.Injective ρ := Equiv.injective _
  have hx : respell ρ "x" = "long" :=
    (respell_of_plain _).trans (congrArg Subtype.val (Equiv.swap_apply_left _ _))
  have hlong : respell ρ "long" = "x" :=
    (respell_of_plain _).trans (congrArg Subtype.val (Equiv.swap_apply_right _ _))
  have hy : respell ρ "y" = "y" := by
    have hplain : IsPlainName "y" := by simp [IsPlainName, isBlank]
    have hother (n : PlainName) (hn : "y" ≠ n.1) : (⟨"y", hplain⟩ : PlainName) ≠ n :=
      fun heq => hn (congrArg Subtype.val heq)
    exact (respell_of_plain hplain).trans (congrArg Subtype.val
      (Equiv.swap_apply_of_ne_of_ne (hother _ (by simp)) (hother _ (by simp))))
  have htext : respellText ρ "x(y(x.long)).long".toList = "long(y(long.x)).x".toList := by
    simp [respellText, respellFrom, isDelimiter, hx, hlong, hy, respell_empty]
  have hwrong : respellText ρ "x(y(x(y)))".toList = "long(y(long(y)))".toList := by
    simp [respellText, respellFrom, isDelimiter, hx, hy, respell_empty]
  have hparse : parse "x(y(x.long)).long".toList
      = .ok (.abs 1 (.abs 2 (.app 1 [.var 0]) .absent) (.var 0), #["long", "x", "y"]) := by cbv
  have herror : parse "x(y(x(y)))".toList = .error (.rebound "x") := by cbv
  have hnone : ∀ c ∈ "x(y(x.long)).long".toList, isBlank c = false := by simp [isBlank]
  have hnone' : ∀ c ∈ "x(y(x(y)))".toList, isBlank c = false := by simp [isBlank]
  have hread := ((parse_respell hρ hnone).2.1 _ _ hparse).1
  have hrebound := ((parse_respell hρ hnone').2.2.2 "x").mpr herror
  rw [htext] at hread
  rw [hwrong] at hrebound
  exact ⟨hρ, htext, hparse, hread, hrebound⟩

end

end DotLambda
