import DotLambda.Proofs.Reduction.Steps

namespace DotLambda

/-!
# Reduction — the place of a step

A step rewrites one redex and leaves the term around it as it is.  Which redex that is, is told by
the shape of the term alone: a term that is not in normal form falls apart in one way into a redex
that can be fired and a context with nothing to reduce on the left of its hole.

* `Context` — a term with a hole, which is reached through bodies and arguments;
* `Context.Selects` — the redex in the hole comes before all others;
* `Context.Selects.unique`, `Term.exists_selects` — every term that is not in normal form has one
  such redex, in one place;
* `Context.Selects.selected?_eq` — it is the redex that is found by recursion on the term;
* `stepWith_fill` — a step inside a context;
* `step_rewrites_selected` — what a step does.
-/

/-! ### Redexes in contexts -/

/-- The redex as a term. -/
def Redex.term (x : Redex) : Term :=
  .abs x.id x.body x.param

/-- A term with a hole in it.  The way to the hole goes through bodies and arguments, and never
    through a parameter. -/
inductive Context where
  | hole
  /-- The hole is in the body of an abstraction. -/
  | body (id : Ident) (inner : Context) (param : Term)
  /-- The hole is in one of the arguments of an application. -/
  | arg (id : Ident) (before : List Term) (inner : Context) (after : List Term)

namespace Context

/-- The context with a term in its hole. -/
def fill : Context → Term → Term
  | hole, t => t
  | body id inner param, t => .abs id (inner.fill t) param
  | arg id before inner after, t => .app id (before ++ inner.fill t :: after)

/-- No step applies to an argument on the left of the hole. -/
def Leftmost : Context → Prop
  | hole => True
  | body _ inner _ => inner.Leftmost
  | arg _ before inner _ => (∀ u ∈ before, u.reducible = false) ∧ inner.Leftmost

/-- The context has the redex `x` of `t` in its hole, and nothing on the left of it that a step
    would come to first. -/
structure Selects (c : Context) (x : Redex) (t : Term) : Prop where
  fill_eq : c.fill x.term = t
  leftmost : c.Leftmost

end Context

/-! ### One place for a step -/

/-- A redex is not in normal form. -/
theorem Redex.reducible_term (x : Redex) : x.term.reducible = true := by
  simp [Redex.term, Term.reducible, x.applied]

/-- Arguments can be reduced if one of them can. -/
theorem Term.argsReducible_eq_any (args : List Term) :
    argsReducible args = args.any reducible := by
  induction args with
  | nil => rfl
  | cons arg args ih => simp [argsReducible, ih]

namespace Context

/-- What can be reduced can be reduced in every context. -/
theorem reducible_fill {t : Term} (h : t.reducible = true) (c : Context) :
    (c.fill t).reducible = true := by
  induction c with
  | hole => exact h
  | body id inner param ih => simp [fill, Term.reducible, ih]
  | arg id before inner after ih => simp [fill, Term.reducible, Term.argsReducible_eq_any, ih]

/-- The body of a redex that can be fired has no redex in it. -/
theorem ready_ne_fill (x y : Redex) (c : Context) : x.body ≠ c.fill y.term := by
  intro h
  have hred := reducible_fill y.reducible_term c
  rw [← h, x.ready] at hred
  cases hred

/-- Arguments are split in one way at the first to which a step applies. -/
theorem split_unique {before before' after after' : List Term} {u u' : Term}
    (hbefore : ∀ v ∈ before, v.reducible = false) (hu : u.reducible = true)
    (hbefore' : ∀ v ∈ before', v.reducible = false) (hu' : u'.reducible = true)
    (h : before ++ u :: after = before' ++ u' :: after') :
    before = before' ∧ u = u' ∧ after = after' := by
  -- What is in front is told by the whole list: the normal forms that it begins with.
  have htake : ∀ (ws : List Term) {vs : List Term} {v : Term}, (∀ v ∈ vs, v.reducible = false) →
      v.reducible = true → (vs ++ v :: ws).takeWhile (fun v => !v.reducible) = vs := by
    intro ws vs v hvs hv
    rw [List.takeWhile_append_of_pos (by simpa using hvs),
      List.takeWhile_cons_of_neg (by simp [hv]), List.append_nil]
  obtain rfl : before = before' := by
    rw [← htake after hbefore hu, h, htake after' hbefore' hu']
  simpa using h

/-- **One place.** Two contexts that select a redex in the same term are the same, and so are the
    redexes. -/
theorem Selects.unique {c c' : Context} {x x' : Redex} {t : Term} (h : c.Selects x t)
    (h' : c'.Selects x' t) : c' = c ∧ x' = x := by
  obtain ⟨heq, hleft⟩ := h
  obtain ⟨heq', hleft'⟩ := h'
  rw [← heq'] at heq
  clear heq' t
  induction c generalizing c' with
  | hole =>
    cases c' with
    | hole =>
      obtain ⟨id, body, param, ready, applied⟩ := x
      obtain ⟨id', body', param', ready', applied'⟩ := x'
      cases heq
      exact ⟨rfl, rfl⟩
    | body id' inner' param' =>
      -- The other redex would be in the body of this one.
      exact absurd (Term.abs.inj heq).2.1 (ready_ne_fill x x' inner')
    | arg id' before' inner' after' => cases heq
  | body id inner param ih =>
    cases c' with
    | hole => exact absurd (Term.abs.inj heq).2.1.symm (ready_ne_fill x' x inner)
    | body id' inner' param' =>
      obtain ⟨rfl, hinner, rfl⟩ := Term.abs.inj heq
      obtain ⟨rfl, hx⟩ := ih hinner hleft hleft'
      exact ⟨rfl, hx⟩
    | arg id' before' inner' after' => cases heq
  | arg id before inner after ih =>
    cases c' with
    | hole => cases heq
    | body id' inner' param' => cases heq
    | arg id' before' inner' after' =>
      obtain ⟨rfl, hargs⟩ := Term.app.inj heq
      -- Both holes are in the first argument to which a step applies.
      obtain ⟨rfl, hinner, rfl⟩ := split_unique hleft.1 (reducible_fill x.reducible_term inner)
        hleft'.1 (reducible_fill x'.reducible_term inner') hargs
      obtain ⟨rfl, hx⟩ := ih hinner hleft.2 hleft'.2
      exact ⟨rfl, hx⟩

end Context

/-- **Some place.** A term that is not in normal form has a redex that comes before all others. -/
theorem Term.exists_selects {t : Term} (h : t.reducible = true) :
    ∃ (c : Context) (x : Redex), c.Selects x t := by
  induction t with
  | absent => cases h
  | var id => cases h
  | abs id body param ihb _ =>
    -- A redex in the body comes before the one that the abstraction is itself.
    cases hbody : body.reducible with
    | true =>
      obtain ⟨c, x, rfl, hleft⟩ := ihb hbody
      exact ⟨.body id c param, x, rfl, hleft⟩
    | false =>
      have hparam : param.isPresent = true := by simpa [reducible, hbody] using h
      exact ⟨.hole, ⟨id, body, param, hbody, hparam⟩, rfl, trivial⟩
  | app id args ih =>
    rw [reducible, argsReducible_eq_any] at h
    obtain ⟨arg, hfind⟩ := Option.isSome_iff_exists.mp (List.find?_isSome.mpr
      (List.any_eq_true.mp h))
    obtain ⟨hred, before, after, rfl, hbefore⟩ := List.find?_eq_some_iff_append.mp hfind
    obtain ⟨c, x, rfl, hleft⟩ := ih arg (by simp) hred
    exact ⟨.arg id before c after, x, rfl, fun u hu => by simpa using hbefore u hu, hleft⟩

/-! ### Finding the place -/

/-- The redex in this place is the one that the account of a step names. -/
theorem Context.Selects.selected?_eq {c : Context} {x : Redex} {t : Term} (h : c.Selects x t) :
    t.selected? = some x := by
  obtain ⟨rfl, hleft⟩ := h
  induction c with
  | hole =>
    simp [fill, Redex.term, Term.selected?, Term.selected?_of_normal x.ready, x.ready, x.applied]
  | body id inner param ih => simp [fill, Term.selected?, ih hleft]
  | arg id before inner after ih =>
    have hbefore := fun u hu => Term.selected?_of_normal (hleft.1 u hu)
    simp [fill, Term.selected?, Term.argsSelected?_append hbefore, Term.argsSelected?, ih hleft.2]

/-! ### Steps in contexts -/

/-- Arguments in normal form are passed by. -/
theorem stepArgsWith_append {before : List Term} (h : ∀ u ∈ before, u.reducible = false)
    (runParam : Term → Machine → Option Run) (args : List Term) (m : Machine) :
    stepArgsWith runParam (before ++ args) m
      = (stepArgsWith runParam args m).map fun s => { s with result := before ++ s.result } := by
  induction before with
  | nil => cases hs : stepArgsWith runParam args m <;> simp [hs]
  | cons u before ih =>
    rw [List.forall_mem_cons] at h
    simp only [List.cons_append, stepArgsWith, stepWith_of_normal h.1, ih h.2, Bool.false_eq_true,
      if_false]
    cases stepArgsWith runParam args m with
    | none => rfl
    | some s => rfl

/-- **Steps in contexts.** Where nothing on the left of it can be reduced, what is in the hole takes
    the step, and the context stays as it is. -/
theorem stepWith_fill {c : Context} (hc : c.Leftmost) {t : Term} (ht : t.reducible = true)
    (R : ParamRunner) (m : Machine) :
    stepWith R.run (c.fill t) m
      = (stepWith R.run t m).map fun s => { s with result := c.fill s.result } := by
  induction c with
  | hole => cases hs : stepWith R.run t m <;> simp [Context.fill, hs]
  | body id inner param ih =>
    rw [Context.fill, stepWith, ih hc]
    cases hs : stepWith R.run t m with
    | none => rfl
    | some s =>
      have hmoved := (stepWith_moves hs ht).1
      simp [Context.fill, hmoved]
  | arg id before inner after ih =>
    rw [Context.fill, stepWith, stepArgsWith_append hc.1, stepArgsWith, ih hc.2]
    cases hs : stepWith R.run t m with
    | none => rfl
    | some s =>
      have hmoved := (stepWith_moves hs ht).1
      simp [Context.fill, hmoved]

/-- A step fires the redex that is selected. -/
theorem stepWith_of_selects {c : Context} {x : Redex} {t : Term} (h : c.Selects x t)
    (R : ParamRunner) (m : Machine) :
    stepWith R.run t m
      = (betaWith R.run x.id x.body x.param m).map fun p => ⟨c.fill p.1, true, p.2⟩ := by
  obtain ⟨rfl, hleft⟩ := h
  rw [stepWith_fill hleft x.reducible_term, Redex.term, stepWith_redex x.ready x.applied,
    Option.map_map]
  rfl

/-- Fires the redex, its parameter reduced by runs that nest at most `depth` deep. -/
def Redex.fireAt (x : Redex) (depth : Nat) (m : Machine) : Option (Term × Machine) :=
  betaWith (ParamRunner.ofDepth depth).run x.id x.body x.param m

/-- The same for steps at a depth. -/
theorem stepAt_of_selects {c : Context} {x : Redex} {t : Term} (h : c.Selects x t) (depth : Nat)
    (m : Machine) :
    stepAt depth t m = (x.fireAt depth m).map fun p => ⟨c.fill p.1, true, p.2⟩ :=
  stepWith_of_selects h (.ofDepth depth) m

/-- A step says that it was made exactly where the term is not in normal form. -/
theorem stepAt_moved_iff {depth : Nat} {t : Term} {m : Machine} {s : Stepped Term}
    (h : stepAt depth t m = some s) : s.moved = true ↔ t.reducible = true := by
  cases hred : t.reducible with
  | true => simp [(stepWith_moves (R := .ofDepth depth) h hred).1]
  | false =>
    rw [stepAt, stepWith_of_normal hred, Option.some.injEq] at h
    simp [← h]

/-- **The place of a step.** A step that returns says that it was made exactly where the term is
    not in normal form.  From a normal form it always returns, with the term and the state as they
    were.  Any other term has one redex that is reached through bodies and arguments, has a body in
    normal form and has only normal forms on the left of the way to it.  A step returns if firing
    that redex does; it then puts what firing makes in its place, keeps the term around it, and
    leaves the state that firing leaves. -/
theorem step_rewrites_selected (depth : Nat) (t : Term) (m : Machine) :
    (∀ s, stepAt depth t m = some s → (s.moved = true ↔ t.reducible = true)) ∧
    (t.reducible = false → stepAt depth t m = some ⟨t, false, m⟩) ∧
    (t.reducible = true → ∃ (c : Context) (x : Redex),
      c.Selects x t ∧ (∀ c' x', Context.Selects c' x' t → c' = c ∧ x' = x) ∧
        stepAt depth t m = (x.fireAt depth m).map fun p => ⟨c.fill p.1, true, p.2⟩) := by
  refine ⟨fun s hs => stepAt_moved_iff hs, fun hnormal => stepWith_of_normal hnormal _ m,
    fun hred => ?_⟩
  obtain ⟨c, x, hselects⟩ := Term.exists_selects hred
  exact ⟨c, x, hselects, fun c' x' h' => hselects.unique h', stepAt_of_selects hselects depth m⟩

/-- In `f.(x).(y(y.(z(z).w)).v)` the redex of `y` has one in its body, which comes first. -/
theorem step_rewrites_selected_inner :
    let x : Redex := ⟨3, .var 3, .var 4, rfl, rfl⟩
    let c : Context := .arg 0 [.var 1] (.body 2 (.arg 2 [] .hole []) (.var 5)) []
    let m : Machine := ⟨{}, .off⟩
    (c.fill x.term).reducible = true ∧ c.Selects x (c.fill x.term) ∧
      stepAt 1 (c.fill x.term) m = (x.fireAt 1 m).map (fun p => ⟨c.fill p.1, true, p.2⟩) ∧
      (x.fireAt 1 m).map (fun p => c.fill p.1) = some (c.fill (.var 4)) := by
  intro x c m
  have hselects : c.Selects x (c.fill x.term) :=
    ⟨rfl, List.forall_mem_singleton.mpr rfl, List.forall_mem_nil _, trivial⟩
  obtain ⟨c', x', -, hunique, hstep⟩ := (step_rewrites_selected 1 (c.fill x.term) m).2.2 rfl
  obtain ⟨rfl, rfl⟩ := hunique c x hselects
  exact ⟨rfl, hselects, hstep, rfl⟩

end DotLambda
