import DotLambda.Proofs.Reading.Equations
import DotLambda.Proofs.Reading.Grammar

namespace DotLambda

/-!
# Reading — what the verdict depends on

Reading leaves the scope as it found it, on every path: what was entered in its tables stays there,
and every binder whose block was opened is out of sight again, also when an error ends it all.
Whether a text can be read, and why it cannot, is a matter of the names of the visible binders and
of nothing else in the state.

* `Reader.grows_covers` — in whatever state, scopes only grow;
* `Scope.Arises` — the scopes that calls lead to;
* `Scope.SameSight` — scopes in which binders of the same names are visible;
* `Reading.verdict` — that there is a result, or the error;
* `Reader.expression_verdict` — scopes with the same sight lead to the same verdict.
-/

/-! ### The scope after reading -/

/-- **Scopes.** Whatever is read, and whether it can be read or not, the scope grows.  Nothing is
    asked of the state: a binder that is left is the one that was entered last. -/
theorem Reader.grows_covers : Reader.Covers (fun _ s _ _ s' => s.Grows s')
    (fun _ _ s _ s' => s.Grows s') where
  refused _ _ := .refl _
  bare _ _ hid := .resolve hid
  binding _ _ _ _ hargs hid hbody := hargs.trans (.leave hid hbody)
  bindingArgs _ _ _ _ _ hargs := hargs
  call _ _ hargs _ := hargs
  unknown _ _ _ hargs _ := hargs
  callArgs _ _ _ hargs := hargs
  group _ hargs hinner := hargs.trans hinner
  groupArgs _ _ hargs := hargs
  nil _ _ := .refl _
  refusedList _ _ := .refl _
  cons _ harg hafter := harg.trans hafter
  arg _ _ harg := harg

namespace Scope

variable {s s' q q' : Scope} {name : String}

/-- The scopes that calls lead to, in any order. -/
inductive Arises : Scope → Prop where
  | empty : Arises {}
  | bind {s : Scope} (h : Arises s) (name : String) : Arises (s.bind name).2
  | leave {s : Scope} (h : Arises s) : Arises s.leave
  | freeName {s : Scope} (h : Arises s) (name : String) : Arises (s.freeName name).2

/-- A sound scope stays so when a free name is looked up. -/
theorem Sound.freeName (hs : s.Sound) (name : String) : (s.freeName name).2.Sound := by
  unfold Scope.freeName
  split
  · exact hs
  · rename_i hnew
    exact (hs.enterFree hnew rfl).1

/-- **Invariant.** All scopes are sound. -/
theorem Arises.sound (h : s.Arises) : s.Sound := by
  induction h with
  | empty => exact sound_empty
  | bind _ name ih => exact ih.bind rfl
  | leave _ ih => exact ih.leave
  | freeName _ name ih => exact ih.freeName name

/-! ### What is in sight -/

/-- Sound scopes in which binders of the same names are visible. -/
structure SameSight (s s' : Scope) : Prop where
  left : s.Sound
  right : s'.Sound
  names : s.boundNames = s'.boundNames

namespace SameSight

/-- The same names are bound. -/
theorem binds_eq (h : s.SameSight s') (name : String) : s.binds name = s'.binds name := by
  rw [Bool.eq_iff_iff, binds_iff, binds_iff, h.names]

/-- Scopes that grow keep their binders in sight. -/
theorem grow (h : s.SameSight s') (hq : q.Sound) (hg : s.Grows q) (hq' : q'.Sound)
    (hg' : s'.Grows q') : q.SameSight q' where
  left := hq
  right := hq'
  names := by rw [hg.boundNames h.left, hg'.boundNames h.right, h.names]

/-- A new binder is in sight in both. -/
theorem bind (h : s.SameSight s') (name : String) : (s.bind name).2.SameSight (s'.bind name).2 where
  left := h.left.bind rfl
  right := h.right.bind rfl
  names := by
    have hleft : (s.bind name).2.boundNames = name :: s.boundNames := h.left.boundNames_bind rfl
    have hright : (s'.bind name).2.boundNames = name :: s'.boundNames := h.right.boundNames_bind rfl
    rw [hleft, hright, h.names]

end SameSight

end Scope

/-! ### Verdicts -/

namespace Reading

variable {α β : Type}

/-- That something was read, or the reason why nothing was. -/
def verdict (x : Reading α) : Except ReadError Unit :=
  x.1.map fun _ => ()

/-- A verdict does not depend on what becomes of the value. -/
theorem verdict_map (f : α → β) (x : Reading α) : (x.map f).verdict = x.verdict := by
  rcases x with ⟨e | a, r⟩ <;> rfl

/-- Nor on what becomes of the reader. -/
theorem verdict_leaving (x : Reading α) (f : Reader → Reader) : (x.leaving f).verdict = x.verdict :=
  rfl

/-- A verdict on two readings is one on the first and then one on the second. -/
theorem verdict_andThen {x y : Reading α} {next next' : α → Reader → Reading β}
    (h : x.verdict = y.verdict) (hnext : ∀ a a', (next a x.2).verdict = (next' a' y.2).verdict) :
    (x.andThen next).verdict = (y.andThen next').verdict := by
  rcases x with ⟨e | a, r⟩ <;> rcases y with ⟨e' | a', r'⟩
  · exact congrArg Except.error (Except.error.inj h)
  · cases h
  · cases h
  · exact hnext a a'

/-- A verdict is an error exactly if the reading is. -/
theorem verdict_eq_error {x : Reading α} {e : ReadError} :
    x.verdict = .error e ↔ x.1 = .error e := by
  rcases x with ⟨e' | a, r⟩
  · exact ⟨fun h => congrArg Except.error (Except.error.inj h),
      fun h => congrArg Except.error (Except.error.inj h)⟩
  · exact ⟨nofun, nofun⟩

/-- It is good exactly if something was read. -/
theorem verdict_eq_ok {x : Reading α} : x.verdict = .ok () ↔ ∃ a, x.1 = .ok a := by
  rcases x with ⟨e | a, r⟩
  · exact ⟨nofun, nofun⟩
  · exact ⟨fun _ => ⟨a, rfl⟩, fun _ => rfl⟩

end Reading

namespace Reader

variable {r r' : Reader}

/-- Reading changes nothing about what is in sight. -/
theorem expression_sight (h : r.scope.SameSight r'.scope) (text : List Char) :
    (expression text r).2.scope.SameSight (expression text r').2.scope := by
  have hread (r : Reader) :
      expression text r = ((expression text r).1, (expression text r).2) := rfl
  have hjudged := (expression_covers judged_covers (hread r)).1 h.left
  have hjudged' := (expression_covers judged_covers (hread r')).1 h.right
  exact h.grow hjudged.sound hjudged.grows hjudged'.sound hjudged'.grows

/-- Arguments leave the same binders in sight. -/
theorem argumentList_sight (h : r.scope.SameSight r'.scope) (whole text : List Char) :
    (argumentList whole text r).2.scope.SameSight (argumentList whole text r').2.scope := by
  have hread (r : Reader) : argumentList whole text r
      = ((argumentList whole text r).1, (argumentList whole text r).2) := rfl
  have hjudged := (argumentList_covers judged_covers (hread r)).1 h.left
  have hjudged' := (argumentList_covers judged_covers (hread r')).1 h.right
  exact h.grow hjudged.sound hjudged.grows hjudged'.sound hjudged'.grows

/-- A bare name is judged by its text alone. -/
theorem bareName_verdict (text : List Char) (r r' : Reader) :
    (r.bareName text).verdict = (r'.bareName text).verdict := by
  cases hname : nameFault? text with
  | some fault =>
    simp only [bareName, hname]
    rfl
  | none =>
    simp only [bareName, hname]
    rfl

/-- A call is judged by its text and the binders in sight. -/
theorem call_verdict (h : r.scope.SameSight r'.scope) (text name : List Char)
    (own own' : List Term) : (call text name own r).verdict = (call text name own' r').verdict := by
  by_cases hbound : String.ofList name ∈ r.scope.boundNames
  · have hfind := mt Scope.find?_eq_none_iff.mp (not_not_intro hbound)
    rw [h.names] at hbound
    have hfind' := mt Scope.find?_eq_none_iff.mp (not_not_intro hbound)
    obtain ⟨id, hid⟩ := Option.ne_none_iff_exists'.mp hfind
    obtain ⟨id', hid'⟩ := Option.ne_none_iff_exists'.mp hfind'
    rw [call, call, hid, hid']
    rfl
  · -- What is suggested for an unknown name depends on the names in sight, in their order.
    have hfind := Scope.find?_eq_none_iff.mpr hbound
    rw [h.names] at hbound
    rw [call, call, hfind, Scope.find?_eq_none_iff.mpr hbound, h.names]
    rfl

mutual

/-- **Verdicts.** In scopes with the same sight a text comes to the same verdict.  Nothing is asked
    of the arguments that wait: they are handed on, and nothing is decided by them. -/
theorem expression_verdict (text : List Char) {r r' : Reader} (h : r.scope.SameSight r'.scope) :
    (expression text r).verdict = (expression text r').verdict := by
  match text with
  | [] =>
    rw [expression_nil, expression_nil]
    rfl
  | c :: rest =>
    by_cases hc : c = '('
    · subst hc
      cases hcut : Block.cut ('(' :: rest) with
      | error fault =>
        rw [expression_unclosed _ hcut, expression_unclosed _ hcut]
        rfl
      | ok block =>
        have : block.inner.length < rest.length + 1 := Block.length_inner_lt hcut
        have : block.tail.length < rest.length + 1 := Block.length_tail_lt hcut
        rw [expression_opened _ hcut, expression_opened _ hcut]
        have hsight := argumentList_sight h block.tail block.tail
        refine Reading.verdict_andThen (argumentList_verdict block.tail block.tail h) ?_
        intro args args'
        exact expression_verdict block.inner hsight
    · have hopen : (c :: rest).head? ≠ some '(' := fun h => hc (Option.some.inj h)
      rw [expression_named _ (List.cons_ne_nil _ _) hopen,
        expression_named _ (List.cons_ne_nil _ _) hopen]
      cases Form.of (c :: rest) with
      | bare => exact bareName_verdict _ _ _
      | binding => exact abstraction_verdict (c :: rest) h
      | call => exact application_verdict (c :: rest) h
termination_by 3 * text.length + 2

/-- So is a binding. -/
theorem abstraction_verdict (text : List Char) {r r' : Reader} (h : r.scope.SameSight r'.scope) :
    (abstraction text r).verdict = (abstraction text r').verdict := by
  cases hname : nameFault? (binderName text) with
  | some fault =>
    rw [abstraction_of_fault _ hname, abstraction_of_fault _ hname]
    rfl
  | none =>
    have hsame := h.binds_eq (String.ofList (binderName text))
    cases hbound : r.scope.binds (String.ofList (binderName text)) with
    | true =>
      rw [abstraction_rebound _ hname hbound, abstraction_rebound _ hname (hsame ▸ hbound)]
      rfl
    | false =>
      cases hcut : Block.cut text with
      | error fault =>
        rw [abstraction_unclosed _ hname hbound hcut,
          abstraction_unclosed _ hname (hsame ▸ hbound) hcut]
        rfl
      | ok block =>
        have := Block.length_inner_lt hcut
        have := Block.length_tail_lt hcut
        rw [abstraction_of_cut _ hname hbound hcut,
          abstraction_of_cut _ hname (hsame ▸ hbound) hcut]
        -- The arguments leave the same binders in sight, and the new one is in sight in both.
        have hsight := argumentList_sight h block.tail block.tail
        have hinside := hsight.bind (String.ofList (binderName text))
        refine Reading.verdict_andThen (argumentList_verdict block.tail block.tail h) ?_
        intro args args'
        dsimp only
        rw [Reading.verdict_leaving, Reading.verdict_map, Reading.verdict_leaving,
          Reading.verdict_map]
        exact expression_verdict block.inner hinside
termination_by 3 * text.length + 1

/-- So is a call with its arguments. -/
theorem application_verdict (text : List Char) {r r' : Reader} (h : r.scope.SameSight r'.scope) :
    (application text r).verdict = (application text r').verdict := by
  cases hname : nameFault? (calledName text) with
  | some fault =>
    rw [application_of_fault _ hname, application_of_fault _ hname]
    rfl
  | none =>
    have := (List.dropWhile_sublist (l := text) fun c => c != '.').length_le
    rw [application_of_name _ hname, application_of_name _ hname]
    refine Reading.verdict_andThen (argumentList_verdict _ _ h) ?_
    exact call_verdict (argumentList_sight h _ _) _ _
termination_by 3 * text.length + 1

/-- And so are arguments. -/
theorem argumentList_verdict (whole text : List Char) {r r' : Reader}
    (h : r.scope.SameSight r'.scope) :
    (argumentList whole text r).verdict = (argumentList whole text r').verdict := by
  match text with
  | [] =>
    rw [argumentList_nil, argumentList_nil]
    rfl
  | c :: rest =>
    by_cases hc : c = '.'
    · subst hc
      by_cases hne : rest = []
      · subst hne
        rw [argumentList_of_missing, argumentList_of_missing]
        rfl
      · cases hcut : cutArgument rest with
        | error fault =>
          rw [argumentList_unclosed _ whole hne hcut, argumentList_unclosed _ whole hne hcut]
          rfl
        | ok cut =>
          obtain ⟨arg, after⟩ := cut
          have := cutArgument_length hcut
          rw [argumentList_of_cut _ whole hne hcut, argumentList_of_cut _ whole hne hcut]
          have hfresh : r.fresh.scope.SameSight r'.fresh.scope := h
          have hsight := expression_sight hfresh arg
          refine Reading.verdict_andThen ?_ fun t t' => ?_
          · rw [Reading.verdict_leaving, Reading.verdict_leaving]
            exact expression_verdict arg h
          · rw [Reading.verdict_map, Reading.verdict_map]
            exact argumentList_verdict whole after hsight
    · have hdot : (c :: rest).head? ≠ some '.' := fun h => hc (Option.some.inj h)
      rw [argumentList_other _ whole (List.cons_ne_nil _ _) hdot,
        argumentList_other _ whole (List.cons_ne_nil _ _) hdot]
      rfl
termination_by 3 * text.length
decreasing_by
  all_goals
    subst_vars
    simp only [List.length_cons]
    omega

end

end Reader

end DotLambda
