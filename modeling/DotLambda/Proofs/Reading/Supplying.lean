import DotLambda.Proofs.Reading.Equations
import DotLambda.Proofs.Reading.Success
import DotLambda.Proofs.Term.Supplying

namespace DotLambda

/-!
# Reading — arguments that wait

Arguments that wait while a text is read end up where they would go if the text was read without
them and the term was supplied with them afterwards.  What waits has no part in whether a text can
be read, in the identities that are handed out, and in the error of a text that cannot be read.

* `Reader.argumentList_pending` — argument lists pass by what waits;
* `Reader.Supplies` — a reading is another one, supplied with arguments;
* `Reader.expression_supplies` — reading with arguments waiting.
-/

namespace Reader

/-! ### Argument lists -/

/-- What is read is there. -/
theorem present_respects : Respects (fun _ _ _ t _ => t.isPresent = true)
    (fun _ _ ts _ => ∀ t ∈ ts, t.isPresent = true) where
  bare {_ _ _ queue _} _ _ _ := by cases queue <;> rfl
  binding _ _ _ _ _ _ _ := rfl
  call _ _ _ _ := rfl
  group _ _ hinner := hinner
  nil _ := List.forall_mem_nil _
  cons _ harg hafter := List.forall_mem_cons.mpr ⟨harg, hafter⟩

/-- No argument that was read is missing. -/
theorem isPresent_of_argumentList {whole text : List Char} {r r' : Reader} {args : List Term}
    (h : argumentList whole text r = (.ok args, r')) : ∀ arg ∈ args, arg.isPresent = true :=
  (argumentList_covers present_respects.covers h).1 args rfl

/-- **Argument lists.** What waits is passed by: the arguments are what they are with nothing
    waiting. -/
theorem argumentList_pending (whole text : List Char) (r : Reader) :
    argumentList whole text r
      = (argumentList whole text r.fresh).leaving (·.holding r.pending) := by
  match text with
  | [] =>
    rw [argumentList_nil, argumentList_nil]
    rfl
  | c :: rest =>
    by_cases hc : c = '.'
    · subst hc
      by_cases hne : rest = []
      · subst hne
        rw [argumentList_of_missing, argumentList_of_missing]
        rfl
      · cases hcut : cutArgument rest with
        | error fault =>
          rw [argumentList_unclosed r whole hne hcut, argumentList_unclosed r.fresh whole hne hcut]
          rfl
        | ok cut =>
          obtain ⟨arg, after⟩ := cut
          have hlength := (cutArgument_length hcut).2
          -- The first argument is read in the same state on both sides.
          have hfresh : r.fresh.fresh = r.fresh := rfl
          rw [argumentList_of_cut r whole hne hcut, argumentList_of_cut r.fresh whole hne hcut,
            hfresh]
          rcases expression arg r.fresh with ⟨e | t, inside⟩
          · rfl
          · show (argumentList whole after (inside.holding r.pending)).map _
              = ((argumentList whole after inside.fresh).map _).leaving _
            rw [argumentList_pending whole after (inside.holding r.pending)]
            rfl
    · have hdot : (c :: rest).head? ≠ some '.' := fun h => hc (Option.some.inj h)
      rw [argumentList_other r whole (List.cons_ne_nil _ _) hdot,
        argumentList_other r.fresh whole (List.cons_ne_nil _ _) hdot]
      rfl
termination_by text.length

/-! ### Expressions -/

/-- Two readings of a text, one of which had `queue` waiting as well: it gives what the other gives,
    supplied with `queue`, and leaves the same tables. -/
structure Supplies (queue : List Term) (plain waiting : Reading Term) : Prop where
  outcome : waiting.1 = plain.1.map (·.supply queue)
  scope : waiting.2.scope = plain.2.scope
  journal : waiting.2.journal = plain.2.journal

namespace Supplies

variable {queue : List Term} {plain waiting base : Reading Term}

/-- Where nothing waits, nothing is supplied. -/
theorem none (x : Reading Term) : Supplies [] x x where
  outcome := by
    cases x.1 with
    | error e => rfl
    | ok t => exact congrArg Except.ok t.supply_nil.symm
  scope := rfl
  journal := rfl

/-- An error is the same, whatever waits. -/
theorem failed (e : ReadError) (r : Reader) :
    Supplies queue (.error e, r) (.error e, r.holding queue) :=
  ⟨rfl, rfl, rfl⟩

/-- What waits behind own arguments waits in addition to them. -/
theorem behind {own : List Term} (hown : ∀ arg ∈ own, arg.isPresent = true)
    (hplain : Supplies own base plain) (hwaiting : Supplies (own ++ queue) base waiting) :
    Supplies queue plain waiting where
  outcome := by
    rw [hwaiting.outcome, hplain.outcome]
    cases base.1 with
    | error e => rfl
    | ok t => exact congrArg Except.ok (Term.supply_append hown queue)
  scope := hwaiting.scope.trans hplain.scope.symm
  journal := hwaiting.journal.trans hplain.journal.symm

/-- A binder with a parameter of its own has its body supplied. -/
theorem filled (h : Supplies queue plain waiting) {param : Term} (hparam : param.isPresent = true)
    (id : Ident) :
    Supplies queue ((plain.map (.abs id · param)).leaving leaveScope)
      ((waiting.map (.abs id · param)).leaving leaveScope) where
  outcome := by
    show waiting.1.map _ = (plain.1.map _).map _
    rw [h.outcome]
    cases plain.1 with
    | error e => rfl
    | ok body => exact congrArg Except.ok (Term.supply_filled hparam id body queue).symm
  scope := congrArg Scope.leave h.scope
  journal := h.journal

/-- A binder without one takes the first argument that waits. -/
theorem unfilled {arg : Term} (h : Supplies queue plain waiting) (id : Ident) :
    Supplies (arg :: queue) ((plain.map (.abs id · .absent)).leaving leaveScope)
      ((waiting.map (.abs id · arg)).leaving leaveScope) where
  outcome := by
    show waiting.1.map _ = (plain.1.map _).map _
    rw [h.outcome]
    cases plain.1 with
    | error e => rfl
    | ok body => rfl
  scope := congrArg Scope.leave h.scope
  journal := h.journal

end Supplies

/-- Argument lists are read alike with and without arguments waiting; what follows them is compared
    where there are arguments. -/
theorem Supplies.after {queue : List Term} (list : List Char) (r : Reader)
    {next next' : List Term → Reader → Reading Term}
    (h : ∀ args r₁, (∀ arg ∈ args, arg.isPresent = true) → r₁.pending = [] →
      Supplies queue (next args r₁) (next' args (r₁.holding queue))) :
    Supplies queue ((argumentList list list r.fresh).andThen next)
      ((argumentList list list (r.holding queue)).andThen next') := by
  rw [argumentList_pending list list (r.holding queue)]
  show Supplies queue _ (((argumentList list list r.fresh).leaving (·.holding queue)).andThen next')
  rcases hargs : argumentList list list r.fresh with ⟨e | args, r₁⟩
  · exact .failed e r₁
  · have hpending : r₁.pending = r.fresh.pending :=
      (argumentList_covers present_respects.covers hargs).2.1
    exact h args r₁ (isPresent_of_argumentList hargs) hpending

/-- A bare name takes what waits. -/
theorem bareName_supplies (text : List Char) (r : Reader) (queue : List Term) :
    Supplies queue (r.fresh.bareName text) ((r.holding queue).bareName text) := by
  cases hname : nameFault? text with
  | some fault =>
    simp only [bareName, hname]
    exact .failed _ r.fresh
  | none =>
    simp only [bareName, hname]
    refine ⟨?_, rfl, rfl⟩
    cases queue with
    | nil => rfl
    | cons arg queue => rfl

/-- A call takes what waits behind its own arguments. -/
theorem application_supplies (text : List Char) (r : Reader) (queue : List Term) :
    Supplies queue (application text r.fresh) (application text (r.holding queue)) := by
  cases hname : nameFault? (calledName text) with
  | some fault =>
    rw [application_of_fault _ hname, application_of_fault _ hname]
    exact .failed _ r.fresh
  | none =>
    rw [application_of_name _ hname, application_of_name _ hname]
    refine .after _ r fun own r₁ _ hpending => ?_
    have hscope : (r₁.holding queue).scope = r₁.scope := rfl
    unfold call
    rw [hscope]
    cases r₁.scope.find? (String.ofList (calledName text)) with
    | none => exact .failed _ r₁
    | some id =>
      refine ⟨?_, rfl, rfl⟩
      show Except.ok (Term.app id (own ++ queue))
        = .ok ((Term.app id (own ++ r₁.pending)).supply queue)
      rw [hpending, List.append_nil, Term.supply_app]

/-- A binder, where what stands in its block is known to be read alike. -/
theorem abstraction_supplies (text : List Char) (r : Reader) (queue : List Term)
    (ih : ∀ inner : List Char, inner.length < text.length → ∀ (r : Reader) (queue : List Term),
      Supplies queue (expression inner r.fresh) (expression inner (r.holding queue))) :
    Supplies queue (abstraction text r.fresh) (abstraction text (r.holding queue)) := by
  cases hname : nameFault? (binderName text) with
  | some fault =>
    rw [abstraction_of_fault _ hname, abstraction_of_fault _ hname]
    exact .failed _ r.fresh
  | none =>
    cases hbound : r.scope.binds (String.ofList (binderName text)) with
    | true =>
      rw [abstraction_rebound r.fresh hname hbound,
        abstraction_rebound (r.holding queue) hname hbound]
      exact .failed _ r.fresh
    | false =>
      cases hcut : Block.cut text with
      | error fault =>
        rw [abstraction_unclosed r.fresh hname hbound hcut,
          abstraction_unclosed (r.holding queue) hname hbound hcut]
        exact .failed _ r.fresh
      | ok block =>
        rw [abstraction_of_cut r.fresh hname hbound hcut,
          abstraction_of_cut (r.holding queue) hname hbound hcut]
        refine .after _ r fun args r₁ hpresent hpending => ?_
        have hinner := ih block.inner (Block.length_inner_lt hcut)
        rw [hpending]
        cases args with
        | nil =>
          -- Without arguments of its own the binder takes the first that waits, if there is one.
          cases queue with
          | nil => exact .none _
          | cons arg queue => exact (hinner _ queue).unfilled _
        | cons param args =>
          rw [List.forall_mem_cons] at hpresent
          rw [List.append_nil]
          exact ((hinner _ args).behind hpresent.2 (hinner _ (args ++ queue))).filled hpresent.1 _

/-- **Expressions.** What waits for an expression is supplied to what is read without it. -/
theorem expression_supplies (text : List Char) (r : Reader) (queue : List Term) :
    Supplies queue (expression text r.fresh) (expression text (r.holding queue)) := by
  match text with
  | [] =>
    rw [expression_nil, expression_nil]
    exact .failed _ r.fresh
  | c :: rest =>
    by_cases hc : c = '('
    · subst hc
      cases hcut : Block.cut ('(' :: rest) with
      | error fault =>
        rw [expression_unclosed _ hcut, expression_unclosed _ hcut]
        exact .failed _ r.fresh
      | ok block =>
        have : block.inner.length < rest.length + 1 := Block.length_inner_lt hcut
        rw [expression_opened _ hcut, expression_opened _ hcut]
        refine .after _ r fun args r₁ hpresent hpending => ?_
        -- The arguments of the group wait in front of those from outside.
        have hown := expression_supplies block.inner r₁ args
        have hall := expression_supplies block.inner r₁ (args ++ queue)
        rw [hand, hpending, List.append_nil]
        exact hown.behind hpresent hall
    · have hopen : (c :: rest).head? ≠ some '(' := fun h => hc (Option.some.inj h)
      rw [expression_named _ (List.cons_ne_nil _ _) hopen,
        expression_named _ (List.cons_ne_nil _ _) hopen]
      cases Form.of (c :: rest) with
      | bare => exact bareName_supplies _ (r.note (c :: rest)) queue
      | call => exact application_supplies _ (r.note (c :: rest)) queue
      | binding =>
        refine abstraction_supplies _ (r.note (c :: rest)) queue fun inner hinner r queue => ?_
        have : inner.length < rest.length + 1 := hinner
        exact expression_supplies inner r queue
termination_by text.length

/-- **Arguments that wait.** A text can be read with arguments waiting if it can be read without,
    and only then.  The term is then the one that is read without them, supplied with them; nothing
    waits any longer, and the scope is the same.  A text that cannot be read has the same error. -/
theorem pending_supplied (text : List Char) (r : Reader) (queue : List Term) :
    let plain := expression text { r with pending := [] }
    let waiting := expression text { r with pending := queue }
    ((∃ t, waiting.1 = .ok t) ↔ ∃ t, plain.1 = .ok t) ∧
    (∀ t, plain.1 = .ok t →
      waiting.1 = .ok (t.supply queue) ∧ waiting.2.pending = [] ∧
        waiting.2.scope = plain.2.scope) ∧
    ∀ e, plain.1 = .error e → waiting.1 = .error e := by
  intro plain waiting
  have h : Supplies queue plain waiting := expression_supplies text r queue
  have hread : expression text { r with pending := queue } = (waiting.1, waiting.2) := rfl
  have hempty := (expression_covers present_respects.covers hread).2.1
  refine ⟨?_, fun t ht => ?_, fun e he => ?_⟩
  · rw [h.outcome]
    cases plain.1 with
    | error e => constructor <;> rintro ⟨t, ⟨⟩⟩
    | ok t => exact ⟨fun _ => ⟨t, rfl⟩, fun _ => ⟨t.supply queue, rfl⟩⟩
  · have hsupplied : waiting.1 = .ok (t.supply queue) := by
      rw [h.outcome, ht]
      rfl
    exact ⟨hsupplied, hempty _ hsupplied, h.scope⟩
  · rw [h.outcome, he]
    rfl

end Reader

end DotLambda
