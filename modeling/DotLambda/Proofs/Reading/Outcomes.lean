import DotLambda.Proofs.Reading.Blocks
import DotLambda.Reader

namespace DotLambda

/-!
# Reading — what can come of it

Every way in which reading a text can end, in a term or in an error.  A text is refused for
itself, or it falls into shorter texts, of which one is refused or all are read.  What is proved
about the readers goes by induction along this, packaged once.

* `Reader.Refused`, `Reader.RefusedList` — the texts that are refused for themselves;
* `Reader.Covers` — what passes from the parts of a text to the text, for expressions and for
  argument lists at once;
* `Reader.expression_covers`, `Reader.argumentList_covers` — then it holds of all that is read;
* `parse_covers` — the same for programs.

The state of a reader is seen through its scope and the arguments that wait.  The journal plays no
part; one that is not kept stays so.
-/

namespace Reader

/-- What holds of a text, the scope and the waiting arguments before it is read, what comes of it,
    and the scope after that. -/
abbrev OnExpression := List Char → Scope → List Term → Except ReadError Term → Scope → Prop

/-- What holds of an argument list, the rest of it that is still to be read, the scope before that,
    what comes of it, and the scope after that. -/
abbrev OnArguments := (whole text : List Char) → Scope → Except ReadError (List Term) → Scope → Prop

/-- The text of a binder before its block. -/
abbrev binderName (text : List Char) : List Char :=
  text.takeWhile fun c => c != '('

/-- The text of a name that is called. -/
abbrev calledName (text : List Char) : List Char :=
  text.takeWhile fun c => c != '.'

/-- A text that starts with a name has the form `form`. -/
def HasForm (text : List Char) (form : Form) : Prop :=
  text ≠ [] ∧ text.head? ≠ some '(' ∧ Form.of text = form

/-- Expressions that are refused before any part of them is read. -/
inductive Refused : List Char → Scope → ReadError → Prop where
  | empty (s : Scope) : Refused [] s (.on .emptyExpression [])
  | group {rest : List Char} {fault : BlockFault} (s : Scope)
      (hcut : Block.cut ('(' :: rest) = .error fault) :
      Refused ('(' :: rest) s (.on (.block fault) ('(' :: rest))
  | bare {text : List Char} {fault : Fault} (s : Scope) (hform : HasForm text .bare)
      (hname : nameFault? text = some fault) : Refused text s (.on fault text)
  | binder {text : List Char} {fault : Fault} (s : Scope) (hform : HasForm text .binding)
      (hname : nameFault? (binderName text) = some fault) : Refused text s (.on fault text)
  | rebound {text : List Char} {s : Scope} (hform : HasForm text .binding)
      (hname : nameFault? (binderName text) = none)
      (hbound : s.binds (String.ofList (binderName text)) = true) :
      Refused text s (.rebound (String.ofList (binderName text)))
  | block {text : List Char} {s : Scope} {fault : BlockFault} (hform : HasForm text .binding)
      (hname : nameFault? (binderName text) = none)
      (hnew : s.binds (String.ofList (binderName text)) = false)
      (hcut : Block.cut text = .error fault) : Refused text s (.on (.block fault) text)
  | call {text : List Char} {fault : Fault} (s : Scope) (hform : HasForm text .call)
      (hname : nameFault? (calledName text) = some fault) : Refused text s (.on fault text)

/-- Rests of an argument list that are refused before an argument is read. -/
inductive RefusedList (whole : List Char) : List Char → ReadError → Prop where
  | missing : RefusedList whole ['.'] (.on .missingArgument whole)
  | block {rest : List Char} {fault : BlockFault} (hcut : cutArgument rest = .error fault) :
      RefusedList whole ('.' :: rest) (.on (.block fault) rest)
  | dot {text : List Char} (hne : text ≠ []) (hstart : text.head? ≠ some '.') :
      RefusedList whole text (.on .missingDot text)

/-- The ways to read, each as a rule: `P` of expressions and `Q` of argument lists pass from the
    parts of a text to the text.  Own arguments come before those that wait. -/
structure Covers (P : OnExpression) (Q : OnArguments) : Prop where
  refused {text : List Char} {s : Scope} {e : ReadError} (queue : List Term)
      (h : Refused text s e) : P text s queue (.error e) s
  /-- A name takes all that waits. -/
  bare {text : List Char} {s s' : Scope} {queue : List Term} {id : Nat}
      (hform : HasForm text .bare) (hname : nameFault? text = none)
      (hid : s.resolve (String.ofList text) = (id, s')) :
      P text s queue (.ok (if queue.isEmpty then .var id else .app id queue)) s'
  /-- A binder takes the first argument; its block is read with the others waiting. -/
  binding {text : List Char} {block : Block} {s s₁ s₂ s₃ : Scope} {args queue : List Term}
      {id : Nat} {body : Except ReadError Term} (hform : HasForm text .binding)
      (hcut : Block.cut text = .ok block) (hname : nameFault? block.head = none)
      (hnew : s.binds (String.ofList block.head) = false)
      (hargs : Q block.tail block.tail s (.ok args) s₁)
      (hid : s₁.bind (String.ofList block.head) = (id, s₂))
      (hbody : P block.inner s₂ (args ++ queue).tail body s₃) :
      P text s queue (body.map (.abs id · ((args ++ queue).headD .absent))) s₃.leave
  bindingArgs {text : List Char} {block : Block} {s s₁ : Scope} {e : ReadError}
      (queue : List Term) (hform : HasForm text .binding) (hcut : Block.cut text = .ok block)
      (hname : nameFault? block.head = none) (hnew : s.binds (String.ofList block.head) = false)
      (hargs : Q block.tail block.tail s (.error e) s₁) : P text s queue (.error e) s₁
  /-- A name that is called is bound, and takes its own arguments and all that waits. -/
  call {text : List Char} {s s₁ : Scope} {args queue : List Term} {id : Nat}
      (hform : HasForm text .call) (hname : nameFault? (calledName text) = none)
      (hargs : Q (text.dropWhile fun c => c != '.') (text.dropWhile fun c => c != '.') s
        (.ok args) s₁)
      (hid : s₁.find? (String.ofList (calledName text)) = some id) :
      P text s queue (.ok (.app id (args ++ queue))) s₁
  unknown {text : List Char} {s s₁ : Scope} {args : List Term} (queue : List Term)
      (hform : HasForm text .call) (hname : nameFault? (calledName text) = none)
      (hargs : Q (text.dropWhile fun c => c != '.') (text.dropWhile fun c => c != '.') s
        (.ok args) s₁)
      (hid : s₁.find? (String.ofList (calledName text)) = none) :
      P text s queue (.error (.on (.unknownFunction (String.ofList (calledName text))
        (suggest (String.ofList (calledName text)) s₁.boundNames)) text)) s₁
  callArgs {text : List Char} {s s₁ : Scope} {e : ReadError} (queue : List Term)
      (hform : HasForm text .call) (hname : nameFault? (calledName text) = none)
      (hargs : Q (text.dropWhile fun c => c != '.') (text.dropWhile fun c => c != '.') s
        (.error e) s₁) : P text s queue (.error e) s₁
  /-- A block is read with the arguments behind it waiting. -/
  group {rest : List Char} {block : Block} {s s₁ s₂ : Scope} {args queue : List Term}
      {inner : Except ReadError Term} (hcut : Block.cut ('(' :: rest) = .ok block)
      (hargs : Q block.tail block.tail s (.ok args) s₁)
      (hinner : P block.inner s₁ (args ++ queue) inner s₂) : P ('(' :: rest) s queue inner s₂
  groupArgs {rest : List Char} {block : Block} {s s₁ : Scope} {e : ReadError}
      (queue : List Term) (hcut : Block.cut ('(' :: rest) = .ok block)
      (hargs : Q block.tail block.tail s (.error e) s₁) : P ('(' :: rest) s queue (.error e) s₁
  nil (whole : List Char) (s : Scope) : Q whole [] s (.ok []) s
  refusedList {whole text : List Char} {e : ReadError} (s : Scope)
      (h : RefusedList whole text e) : Q whole text s (.error e) s
  /-- An argument is read with nothing waiting. -/
  cons {whole rest arg after : List Char} {s s₁ s₂ : Scope} {t : Term}
      {ts : Except ReadError (List Term)} (hcut : cutArgument rest = .ok (arg, after))
      (harg : P arg s [] (.ok t) s₁) (hafter : Q whole after s₁ ts s₂) :
      Q whole ('.' :: rest) s (ts.map (t :: ·)) s₂
  arg {rest arg after : List Char} {s s₁ : Scope} {e : ReadError} (whole : List Char)
      (hcut : cutArgument rest = .ok (arg, after)) (harg : P arg s [] (.error e) s₁) :
      Q whole ('.' :: rest) s (.error e) s₁

variable {P : OnExpression} {Q : OnArguments}

/-- The parameter of a binder is the first of all arguments, its own and those that wait. -/
theorem take_own (args : List Term) (r : Reader) :
    (match args with
      | [] => r.take
      | param :: rest => (param, r.hand rest))
      = ((args ++ r.pending).headD .absent, { r with pending := (args ++ r.pending).tail }) := by
  cases args with
  | nil =>
    obtain ⟨scope, pending, journal⟩ := r
    cases pending with
    | nil => rfl
    | cons arg pending => rfl
  | cons param rest => rfl

/-- An error is no term. -/
theorem error_not_ok {α : Type} {e : ReadError} {P : α → Prop} :
    ∀ a, (.error e : Except ReadError α) = .ok a → P a := by
  rintro a ⟨⟩

/-- Reading a bare name does one of the things that are covered. -/
theorem bareName_covers (h : Covers P Q) {text : List Char} {r r' : Reader}
    {outcome : Except ReadError Term} (hform : HasForm text .bare)
    (hread : r.bareName text = (outcome, r')) :
    P text r.scope r.pending outcome r'.scope ∧ (∀ t, outcome = .ok t → r'.pending = []) ∧
      (r.journal = .off → r'.journal = .off) := by
  unfold bareName at hread
  split at hread
  · rename_i fault hname
    cases hread
    exact ⟨h.refused _ (.bare _ hform hname), error_not_ok, id⟩
  · rename_i hname
    cases hread
    exact ⟨h.bare hform hname rfl, fun _ _ => rfl, id⟩

mutual

/-- **Expressions.** Reading one has an outcome that is covered, leaves nothing waiting where it
    succeeds, and leaves a journal off that is. -/
theorem expression_covers (h : Covers P Q) {text : List Char} {r r' : Reader}
    {outcome : Except ReadError Term} (hread : expression text r = (outcome, r')) :
    P text r.scope r.pending outcome r'.scope ∧ (∀ t, outcome = .ok t → r'.pending = []) ∧
      (r.journal = .off → r'.journal = .off) := by
  rw [expression.eq_def] at hread
  split at hread
  · cases hread
    exact ⟨h.refused _ (.empty _), error_not_ok, id⟩
  · rename_i rest
    split at hread
    · rename_i fault hcut
      cases hread
      exact ⟨h.refused _ (.group _ hcut), error_not_ok, id⟩
    · rename_i block hcut
      have := Block.length_inner_lt hcut
      have := Block.length_tail_lt hcut
      split at hread
      · rename_i e r₁ hargs
        cases hread
        obtain ⟨htail, -, hoff⟩ := argumentList_covers h hargs
        exact ⟨h.groupArgs _ hcut htail, error_not_ok, hoff⟩
      · -- The arguments behind the block are read first, and then wait for what is in it.
        rename_i args r₁ hargs
        obtain ⟨htail, hpending, hoff⟩ := argumentList_covers h hargs
        obtain ⟨hinner, hempty, hoff'⟩ := expression_covers h hread
        rw [hand, hpending] at hinner
        exact ⟨h.group hcut htail hinner, hempty, fun hj => hoff' (hoff hj)⟩
  · rename_i hne hopen
    dsimp only at hread
    have hstart : text.head? ≠ some '(' := by
      cases text with
      | nil => nofun
      | cons c rest => exact fun hc => hopen rest (by cases hc; rfl)
    have hnote : r.journal = .off → (r.note text).journal = .off := fun hj => by
      rw [note, hj, Journal.record_off]
    split at hread
    · rename_i hform
      obtain ⟨hname, hempty, hoff⟩ := bareName_covers h ⟨hne, hstart, hform⟩ hread
      exact ⟨hname, hempty, fun hj => hoff (hnote hj)⟩
    · rename_i hform
      obtain ⟨habs, hempty, hoff⟩ := abstraction_covers h ⟨hne, hstart, hform⟩ hread
      exact ⟨habs, hempty, fun hj => hoff (hnote hj)⟩
    · rename_i hform
      obtain ⟨happ, hempty, hoff⟩ := application_covers h ⟨hne, hstart, hform⟩ hread
      exact ⟨happ, hempty, fun hj => hoff (hnote hj)⟩
termination_by 3 * text.length + 2

/-- So does reading a binding. -/
theorem abstraction_covers (h : Covers P Q) {text : List Char} {r r' : Reader}
    {outcome : Except ReadError Term} (hform : HasForm text .binding)
    (hread : abstraction text r = (outcome, r')) :
    P text r.scope r.pending outcome r'.scope ∧ (∀ t, outcome = .ok t → r'.pending = []) ∧
      (r.journal = .off → r'.journal = .off) := by
  rw [abstraction.eq_def] at hread
  extract_lets name at hread
  split at hread
  · rename_i fault hname
    cases hread
    exact ⟨h.refused _ (.binder _ hform hname), error_not_ok, id⟩
  · rename_i hname
    split at hread
    · rename_i hbound
      cases hread
      exact ⟨h.refused _ (.rebound hform hname hbound), error_not_ok, id⟩
    · rename_i hnew
      rw [Bool.not_eq_true] at hnew
      split at hread
      · rename_i fault hcut
        cases hread
        exact ⟨h.refused _ (.block hform hname hnew hcut), error_not_ok, id⟩
      · rename_i block hcut
        extract_lets at hread
        have := Block.length_inner_lt hcut
        have := Block.length_tail_lt hcut
        have hhead : block.head = name := Block.head_of_cut hcut
        split at hread
        · rename_i e r₁ hargs
          cases hread
          rw [← hhead] at hname hnew
          obtain ⟨htail, -, hoff⟩ := argumentList_covers h hargs
          exact ⟨h.bindingArgs _ hform hcut hname hnew htail, error_not_ok, hoff⟩
        · rename_i args r₁ hargs
          obtain ⟨htail, hpending, hoff⟩ := argumentList_covers h hargs
          -- The parameter is the first own argument, or else the first that waits.
          split at hread
          rename_i param r₂ hown
          cases (take_own args r₁).symm.trans hown
          split at hread
          rename_i id s₂ hid
          split at hread
          rename_i body r₃ hbody
          obtain ⟨hinner, hempty, hoff'⟩ := expression_covers h hbody
          rw [← hhead] at hname hnew hid
          rw [hpending] at hinner hread
          cases hread
          refine ⟨h.binding hform hcut hname hnew htail hid hinner, fun t ht => ?_,
            fun hj => hoff' (hoff hj)⟩
          cases body with
          | error e => cases ht
          | ok body => exact hempty body rfl
termination_by 3 * text.length + 1

/-- So does reading a call. -/
theorem application_covers (h : Covers P Q) {text : List Char} {r r' : Reader}
    {outcome : Except ReadError Term} (hform : HasForm text .call)
    (hread : application text r = (outcome, r')) :
    P text r.scope r.pending outcome r'.scope ∧ (∀ t, outcome = .ok t → r'.pending = []) ∧
      (r.journal = .off → r'.journal = .off) := by
  rw [application.eq_def] at hread
  dsimp only at hread
  have := (List.dropWhile_sublist (l := text) fun c => c != '.').length_le
  split at hread
  · rename_i fault hname
    cases hread
    exact ⟨h.refused _ (.call _ hform hname), error_not_ok, id⟩
  · rename_i hname
    split at hread
    · rename_i e r₁ hargs
      cases hread
      obtain ⟨hlist, -, hoff⟩ := argumentList_covers h hargs
      exact ⟨h.callArgs _ hform hname hlist, error_not_ok, hoff⟩
    · rename_i args r₁ hargs
      obtain ⟨hlist, hpending, hoff⟩ := argumentList_covers h hargs
      split at hread
      · rename_i hid
        cases hread
        exact ⟨h.unknown _ hform hname hlist hid, error_not_ok, hoff⟩
      · rename_i id hid
        cases hread
        rw [← hpending]
        exact ⟨h.call hform hname hlist hid, fun _ _ => rfl, hoff⟩
termination_by 3 * text.length + 1

/-- **Argument lists.** What waits outside is there again after them. -/
theorem argumentList_covers (h : Covers P Q) {whole text : List Char} {r r' : Reader}
    {outcome : Except ReadError (List Term)}
    (hread : argumentList whole text r = (outcome, r')) :
    Q whole text r.scope outcome r'.scope ∧ r'.pending = r.pending ∧
      (r.journal = .off → r'.journal = .off) := by
  rw [argumentList.eq_def] at hread
  split at hread
  · cases hread
    exact ⟨h.nil _ _, rfl, id⟩
  · cases hread
    exact ⟨h.refusedList _ .missing, rfl, id⟩
  · rename_i rest _
    split at hread
    · rename_i fault hcut
      cases hread
      exact ⟨h.refusedList _ (.block hcut), rfl, id⟩
    · rename_i arg after hcut
      have := cutArgument_length hcut
      extract_lets at hread
      split at hread
      rename_i result inside harg
      extract_lets r₁ at hread
      -- An argument is read with nothing waiting, and what waited before waits again behind it.
      obtain ⟨hfirst, -, hoff⟩ := expression_covers h harg
      split at hread
      · obtain ⟨rfl, rfl⟩ := Prod.mk.inj hread
        exact ⟨h.arg _ hcut hfirst, rfl, hoff⟩
      · split at hread
        rename_i others r₂ hothers
        cases hread
        obtain ⟨hafter, hpending, hoff'⟩ := argumentList_covers h hothers
        exact ⟨h.cons hcut hfirst hafter, hpending, fun hj => hoff' (hoff hj)⟩
  · rename_i hne hdot hrest
    cases hread
    refine ⟨h.refusedList _ (.dot hne ?_), rfl, id⟩
    cases text with
    | nil => nofun
    | cons c rest => exact fun hc => hrest rest (by cases hc; rfl)
termination_by 3 * text.length
decreasing_by
  all_goals
    subst_vars
    simp only [List.length_cons]
    omega

end

end Reader

/-- **Programs.** A program is an expression, read in an empty scope with nothing waiting. -/
theorem parse_covers {P : Reader.OnExpression} {Q : Reader.OnArguments} (h : Reader.Covers P Q)
    (text : List Char) :
    ∃ (outcome : Except ReadError Term) (s : Scope),
      parse text = outcome.map (·, s.table) ∧
      (removeBlanks text = [] ∧ outcome = .error (.on .emptyProgram []) ∨
        P (removeBlanks text) {} [] outcome s) := by
  unfold parse parseWith
  rcases hread : Reader.program (removeBlanks text) { journal := .off } with ⟨outcome, r⟩
  refine ⟨outcome, r.scope, rfl, ?_⟩
  unfold Reader.program at hread
  split at hread
  · rename_i hempty
    cases hread
    exact .inl ⟨List.isEmpty_iff.mp hempty, rfl⟩
  · exact .inr (Reader.expression_covers h hread).1

end DotLambda
