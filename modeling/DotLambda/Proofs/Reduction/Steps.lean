import DotLambda.Proofs.Reduction.Firings

namespace DotLambda

/-!
# Reduction — what a step and a run can do

Inversion of the reducer: where a step fires, what firing is made of, and how runs are made of
steps.  All that is proved about runs goes through these.

* `Fires` — one step, by the place of the redex that it fires;
* `stepWith_cases` — a step fires, or there is nothing to fire and nothing changes;
* `Fires.stepWith_eq`, `Fires.firingWith_eq`, `stepWith_of_normal` — and back: what can be fired is
  fired, and is what the account of the step says;
* `runWith_induct` — induction along a run;
* `RunSteps`, `runWith_steps`, `runWith_finished` — a run is a chain of steps that ends where none
  applies or where the budget does;
* `runAt_induct` — what passes from runs of parameters to runs holds at every depth;
* `Fires.advances`, `runAt_advances`, `stepAt_advances` — the identities that steps and runs hand
  out.
-/

/-! ### Steps -/

/-- A step from `t` to `t'` that fires `f`: the redex has a body in normal form, and is reached
    through bodies and through the first arguments that are not in normal form.  Its parameter is
    run, and what that leaves is put in for the binder. -/
inductive Fires (R : ParamRunner) : Term → Machine → Firing → Term → Machine → Prop where
  | redex {id : Ident} {body param t' : Term} {m : Machine} {run : Run} {s' : Splice}
      (hbody : body.reducible = false) (hparam : param.isPresent = true)
      (hrun : R.run param (m.beforeParam id) = some run)
      (hsub : body.substitute id { value := run.term, reducer := (run.afterParam id).toReducer }
        = (t', s')) :
      Fires R (.abs id body param) m
        ⟨⟨id, body, param, hbody, hparam⟩, R.firings param (m.beforeParam id), run.term,
          !run.finished⟩
        t' ⟨s'.reducer, (run.afterParam id).journal⟩
  | body {id : Ident} {body param body' : Term} {m m' : Machine} {f : Firing}
      (h : Fires R body m f body' m') :
      Fires R (.abs id body param) m f (.abs id body' param) m'
  | arg {id : Ident} {before after : List Term} {arg arg' : Term} {m m' : Machine} {f : Firing}
      (hbefore : ∀ u ∈ before, u.reducible = false) (h : Fires R arg m f arg' m') :
      Fires R (.app id (before ++ arg :: after)) m f (.app id (before ++ arg' :: after)) m'

/-- Firing a redex is a run of its parameter and a substitution. -/
theorem betaWith_eq (runParam : Term → Machine → Option Run) (id : Ident) (body param : Term)
    (m : Machine) :
    betaWith runParam id body param m = (runParam param (m.beforeParam id)).map fun run =>
      let p := body.substitute id
        { value := run.term, reducer := (run.afterParam id).toReducer }
      (p.1, ⟨p.2.reducer, (run.afterParam id).journal⟩) := by
  unfold betaWith
  rw [show (m.count .beta id).countParameterRun = m.beforeParam id from rfl]
  cases runParam param (m.beforeParam id) with
  | none => rfl
  | some run => rfl

/-- Where a step can lead: to what a redex fired leaves, or nowhere from a normal form. -/
def StepsTo (R : ParamRunner) (t : Term) (m : Machine) (s : Stepped Term) : Prop :=
  (s.moved = true ∧ ∃ f, Fires R t m f s.result s.machine) ∨
    t.reducible = false ∧ s = ⟨t, false, m⟩

/-- A step in arguments is one in the first that is not in normal form, if there is one. -/
theorem stepArgsWith_cases {R : ParamRunner} {args : List Term} {m : Machine}
    {s : Stepped (List Term)}
    (ih : ∀ arg ∈ args, ∀ m s, stepWith R.run arg m = some s → StepsTo R arg m s)
    (h : stepArgsWith R.run args m = some s) :
    (s.moved = true ∧ ∃ before arg after arg' f, args = before ++ arg :: after ∧
        s.result = before ++ arg' :: after ∧ (∀ u ∈ before, u.reducible = false) ∧
        Fires R arg m f arg' s.machine) ∨
      (∀ arg ∈ args, arg.reducible = false) ∧ s = ⟨args, false, m⟩ := by
  induction args generalizing m s with
  | nil =>
    rw [stepArgsWith, Option.some.injEq] at h
    exact .inr ⟨fun _ h => absurd h List.not_mem_nil, h.symm⟩
  | cons arg args ihs =>
    rw [List.forall_mem_cons] at ih
    rw [stepArgsWith] at h
    split at h
    · cases h
    · -- The first argument takes the step if it can; otherwise it is unchanged, and so is the
      -- state in which the others are tried.
      rename_i s₁ hs₁
      rcases ih.1 m s₁ hs₁ with ⟨hmoved, f, hfires⟩ | ⟨hnormal, rfl⟩
      · rw [if_pos hmoved] at h
        cases h
        exact .inl ⟨rfl, [], arg, args, s₁.result, f, rfl, rfl,
          fun _ h => absurd h List.not_mem_nil, hfires⟩
      · rw [if_neg Bool.false_ne_true] at h
        split at h
        · cases h
        · rename_i s₂ hs₂
          cases h
          rcases ihs ih.2 hs₂ with
            ⟨hmoved, before, u, after, u', f, rfl, hresult, hbefore, hfires⟩ | ⟨hargs, rfl⟩
          · exact .inl ⟨hmoved, arg :: before, u, after, u', f, rfl, by rw [hresult]; rfl,
              List.forall_mem_cons.mpr ⟨hnormal, hbefore⟩, hfires⟩
          · exact .inr ⟨List.forall_mem_cons.mpr ⟨hnormal, hargs⟩, rfl⟩

/-- **Steps.** A step fires a redex, or the term is in normal form and nothing changes. -/
theorem stepWith_cases {R : ParamRunner} {t : Term} {m : Machine} {s : Stepped Term}
    (h : stepWith R.run t m = some s) : StepsTo R t m s := by
  induction t generalizing m s with
  | absent =>
    rw [stepWith, Option.some.injEq] at h
    exact .inr ⟨rfl, h.symm⟩
  | var id =>
    rw [stepWith, Option.some.injEq] at h
    exact .inr ⟨rfl, h.symm⟩
  | abs id body param ihb _ =>
    rw [stepWith] at h
    split at h
    · cases h
    · -- The body comes first; the redex fires only when the body is in normal form.
      rename_i s₁ hs₁
      rcases ihb hs₁ with ⟨hmoved, f, hfires⟩ | ⟨hnormal, rfl⟩
      · rw [if_pos hmoved] at h
        cases h
        exact .inl ⟨rfl, f, .body hfires⟩
      · rw [if_neg Bool.false_ne_true] at h
        split at h
        · rename_i hparam
          split at h
          · cases h
          · rename_i t' m' hbeta
            cases h
            rw [betaWith_eq] at hbeta
            obtain ⟨run, hrun, heq⟩ := Option.map_eq_some_iff.mp hbeta
            cases heq
            exact .inl ⟨rfl, _, .redex hnormal hparam hrun rfl⟩
        · rename_i hparam
          cases h
          exact .inr ⟨by simp [Term.reducible, hnormal, hparam], rfl⟩
  | app id args ih =>
    rw [stepWith] at h
    split at h
    · cases h
    · rename_i s₁ hs₁
      cases h
      rcases stepArgsWith_cases (fun arg harg m s => ih arg harg) hs₁ with
        ⟨hmoved, before, arg, after, arg', f, rfl, hresult, hbefore, hfires⟩ | ⟨hargs, rfl⟩
      · rw [hresult]
        exact .inl ⟨hmoved, f, .arg hbefore hfires⟩
      · exact .inr ⟨by rw [Term.reducible, Term.argsReducible_eq_false]; exact hargs, rfl⟩

/-- From a term that is not in normal form, a step is made. -/
theorem stepWith_moves {R : ParamRunner} {t : Term} {m : Machine} {s : Stepped Term}
    (h : stepWith R.run t m = some s) (hred : t.reducible = true) :
    s.moved = true ∧ ∃ f, Fires R t m f s.result s.machine := by
  refine (stepWith_cases h).resolve_right fun hnormal => ?_
  rw [hred] at hnormal
  cases hnormal.1

/-! ### Steps that are made -/

section

variable {runParam : Term → Machine → Option Run}

/-- Arguments in which no step is made are left as they are. -/
theorem stepArgsWith_of_normal {args : List Term} {m : Machine}
    (h : ∀ arg ∈ args, stepWith runParam arg m = some ⟨arg, false, m⟩) :
    stepArgsWith runParam args m = some ⟨args, false, m⟩ := by
  induction args with
  | nil => rfl
  | cons arg args ih =>
    rw [List.forall_mem_cons] at h
    simp only [stepArgsWith, h.1, ih h.2, Bool.false_eq_true, if_false]

/-- A normal form comes back as it is, whatever becomes of parameters. -/
theorem stepWith_of_normal {t : Term} (h : t.reducible = false)
    (runParam : Term → Machine → Option Run) (m : Machine) :
    stepWith runParam t m = some ⟨t, false, m⟩ := by
  induction t with
  | absent => rfl
  | var id => rfl
  | abs id body param ihb _ =>
    simp only [Term.reducible, Bool.or_eq_false_iff] at h
    simp only [stepWith, ihb h.2, h.1, Bool.false_eq_true, if_false]
  | app id args ih =>
    rw [Term.reducible, Term.argsReducible_eq_false] at h
    simp only [stepWith, stepArgsWith_of_normal fun arg harg => ih arg harg (h arg harg)]

/-- A redex with a body in normal form is fired. -/
theorem stepWith_redex {id : Ident} {body param : Term} (hbody : body.reducible = false)
    (hparam : param.isPresent = true) (runParam : Term → Machine → Option Run) (m : Machine) :
    stepWith runParam (.abs id body param) m
      = (betaWith runParam id body param m).map fun p => ⟨p.1, true, p.2⟩ := by
  simp only [stepWith, stepWith_of_normal hbody, hparam, Bool.false_eq_true, if_false, if_true]
  split
  · rename_i hbeta
    rw [hbeta, Option.map_none]
  · rename_i hbeta
    rw [hbeta, Option.map_some]

end

section

variable {R : ParamRunner} {t t' : Term} {m m' : Machine} {f : Firing}

/-- A redex that can be fired is fired: `Fires` says no more than what steps do. -/
theorem Fires.stepWith_eq (h : Fires R t m f t' m') :
    stepWith R.run t m = some ⟨t', true, m'⟩ := by
  induction h with
  | redex hbody hparam hrun hsub =>
    rw [stepWith_redex hbody hparam, betaWith_eq, hrun, Option.map_some, Option.map_some, hsub]
  | body _ ih => simp only [stepWith, ih, if_true]
  | @arg id before after arg arg' m m' f hbefore _ ih =>
    have hargs : stepArgsWith R.run (before ++ arg :: after) m
        = some ⟨before ++ arg' :: after, true, m'⟩ := by
      -- Along the arguments in front, which are in normal form and take no step.
      clear * - hbefore ih
      induction before with
      | nil => simp only [List.nil_append, stepArgsWith, ih, if_true]
      | cons u before ihs =>
        rw [List.forall_mem_cons] at hbefore
        simp only [List.cons_append, stepArgsWith, stepWith_of_normal hbefore.1, ihs hbefore.2,
          Bool.false_eq_true, if_false]
    simp only [stepWith, hargs]

/-- The redex that is fired is the one that is selected. -/
theorem Fires.selected?_eq (h : Fires R t m f t' m') : t.selected? = some f.redex := by
  induction h with
  | redex hbody hparam _ _ =>
    simp [Term.selected?, Term.selected?_of_normal hbody, hbody, hparam]
  | body _ ih => simp [Term.selected?, ih]
  | arg hbefore _ ih =>
    have hnone := fun u hu => Term.selected?_of_normal (hbefore u hu)
    simp [Term.selected?, Term.argsSelected?_append hnone, Term.argsSelected?, ih]

/-- The account of a step is what it fires. -/
theorem Fires.firingWith_eq (h : Fires R t m f t' m') : firingWith R t m = some f := by
  have hfired : (R.run f.redex.param (m.beforeParam f.redex.id)).map (fun run =>
      (⟨f.redex, R.firings f.redex.param (m.beforeParam f.redex.id), run.term, !run.finished⟩ :
        Firing)) = some f := by
    induction h with
    | redex _ _ hrun _ => rw [hrun, Option.map_some]
    | body _ ih => exact ih
    | arg _ _ ih => exact ih
  rw [firingWith, h.selected?_eq, Option.bind_some, hfired]

/-- What fires is not in normal form. -/
theorem Fires.reducible (h : Fires R t m f t' m') : t.reducible = true := by
  rw [← Bool.not_eq_false]
  intro hnormal
  have hselected := h.selected?_eq
  rw [Term.selected?_of_normal hnormal] at hselected
  cases hselected

end

/-! ### Runs -/

/-- A run with budget left steps and goes on. -/
theorem runWith_of_reducible {t : Term} (h : t.reducible = true)
    {step : Term → Machine → Option (Stepped Term)} {budget steps : Nat} {m : Machine} :
    runWith step (budget + 1) steps t m = (step t m).bind fun s =>
      runWith step budget (steps + 1) s.result (s.machine.stepped (steps + 1) s.result) := by
  rw [runWith, if_pos h]
  cases step t m with
  | none => rfl
  | some s => rfl

/-- A run ends at a normal form. -/
theorem runWith_of_normal {t : Term} (h : t.reducible = false)
    {step : Term → Machine → Option (Stepped Term)} {budget steps : Nat} {m : Machine} :
    runWith step budget steps t m = some ⟨t, steps, true, m⟩ := by
  cases budget with
  | zero => rw [runWith, h, Bool.not_false]
  | succ budget => rw [runWith, if_neg (by simp [h])]

/-- A run that has spent its budget is cut off. -/
theorem runWith_spent {t : Term} (h : t.reducible = true)
    {step : Term → Machine → Option (Stepped Term)} {steps : Nat} {m : Machine} :
    runWith step 0 steps t m = some ⟨t, steps, false, m⟩ := by
  rw [runWith, h, Bool.not_true]

/-- Induction along a run, from its end: no step applies, or the budget is spent, or a step is made
    before the rest of the run. -/
theorem runWith_induct {step : Term → Machine → Option (Stepped Term)} {run : Run}
    {P : (budget steps : Nat) → Term → Machine → Prop}
    (normal : ∀ {budget steps t m}, t.reducible = false → run = ⟨t, steps, true, m⟩ →
      P budget steps t m)
    (spent : ∀ {steps t m}, t.reducible = true → run = ⟨t, steps, false, m⟩ → P 0 steps t m)
    (made : ∀ {budget steps t m s}, t.reducible = true → step t m = some s →
      runWith step budget (steps + 1) s.result (s.machine.stepped (steps + 1) s.result)
        = some run →
      P budget (steps + 1) s.result (s.machine.stepped (steps + 1) s.result) →
      P (budget + 1) steps t m)
    {budget steps : Nat} {t : Term} {m : Machine} (h : runWith step budget steps t m = some run) :
    P budget steps t m := by
  induction budget generalizing steps t m with
  | zero =>
    cases hred : t.reducible with
    | false =>
      rw [runWith_of_normal hred, Option.some.injEq] at h
      exact normal hred h.symm
    | true =>
      rw [runWith_spent hred, Option.some.injEq] at h
      exact spent hred h.symm
  | succ budget ih =>
    cases hred : t.reducible with
    | false =>
      rw [runWith_of_normal hred, Option.some.injEq] at h
      exact normal hred h.symm
    | true =>
      rw [runWith_of_reducible hred] at h
      obtain ⟨s, hs, hrest⟩ := Option.bind_eq_some_iff.mp h
      exact made hred hs hrest (ih hrest)

/-- A chain of steps of a run, each of them counted and noted, with the redexes that they fire. -/
inductive RunSteps (R : ParamRunner) :
    Term → Machine → List Firing → Term → Machine → Prop where
  | refl (t : Term) (m : Machine) : RunSteps R t m [] t m
  | head {t t' t'' : Term} {m m' m'' : Machine} {f : Firing} {fs : List Firing} {number : Nat}
      (h : Fires R t m f t' m') (hrest : RunSteps R t' (m'.stepped number t') fs t'' m'') :
      RunSteps R t m (f :: fs) t'' m''

/-- **Runs.** A run is a chain of steps. -/
theorem runWith_steps {R : ParamRunner} {budget steps : Nat} {t : Term} {m : Machine} {run : Run}
    (h : runWith (stepWith R.run) budget steps t m = some run) :
    RunSteps R t m (firingsWith R budget steps t m) run.term run.machine := by
  refine runWith_induct
    (P := fun budget steps t m =>
      RunSteps R t m (firingsWith R budget steps t m) run.term run.machine)
    ?normal ?spent ?made h
  case normal =>
    rintro budget steps t m hnormal rfl
    rw [firingsWith_of_normal hnormal]
    exact .refl t m
  case spent =>
    rintro steps t m - rfl
    exact .refl t m
  case made =>
    intro budget steps t m s hred hs _ ih
    obtain ⟨-, f, hfires⟩ := stepWith_moves hs hred
    rw [firingsWith_of_step hfires.firingWith_eq hs]
    exact .head hfires ih

/-- A run says that it is finished exactly when no step applies to its last term. -/
theorem runWith_finished {step : Term → Machine → Option (Stepped Term)} {budget steps : Nat}
    {t : Term} {m : Machine} {run : Run} (h : runWith step budget steps t m = some run) :
    run.finished = !run.term.reducible := by
  refine runWith_induct (P := fun _ _ _ _ => run.finished = !run.term.reducible)
    ?normal ?spent ?made h
  case normal =>
    rintro budget steps t m hred rfl
    rw [hred, Bool.not_false]
  case spent =>
    rintro steps t m hred rfl
    rw [hred, Bool.not_true]
  case made => exact fun _ _ _ ih => ih

/-- What holds of the runs of parameters, with what they fire, by `P`. -/
def ParamRunner.Satisfies (R : ParamRunner) (P : Term → Machine → List Firing → Run → Prop) :
    Prop :=
  ∀ p m run, R.run p m = some run → P p m (R.firings p m) run

/-- What holds of runs as soon as it holds of the runs of their parameters holds at every
    depth. -/
theorem runAt_induct {P : Term → Machine → List Firing → Run → Prop}
    (h : ∀ (R : ParamRunner) (budget : Nat) (t : Term) (m : Machine) (run : Run), R.Satisfies P →
      runWith (stepWith R.run) budget 0 t m = some run →
      P t m (firingsWith R budget 0 t m) run)
    {depth budget : Nat} {t : Term} {m : Machine} {run : Run}
    (hrun : runAt depth budget t m = some run) : P t m (firingsAt depth budget t m) run := by
  induction depth generalizing budget t m run with
  | zero => cases hrun
  | succ depth ih => exact h (.ofDepth depth) budget t m run (fun p m run hp => ih hp) hrun

/-- A run has finished exactly if its last term is a normal form. -/
theorem runAt_finished {depth budget : Nat} {t : Term} {m : Machine} {run : Run}
    (h : runAt depth budget t m = some run) : run.finished = !run.term.reducible :=
  runAt_induct (P := fun _ _ _ run => run.finished = !run.term.reducible)
    (fun _ _ _ _ _ _ hrun => runWith_finished hrun) h

/-- **Steps at a depth.** A step fires the redex of its account, or this is empty and nothing
    changes. -/
theorem stepAt_cases {depth : Nat} {t : Term} {m : Machine} {s : Stepped Term}
    (h : stepAt depth t m = some s) :
    (s.moved = true ∧ ∃ f, (firingAt depth t m).toList = [f] ∧
        Fires (.ofDepth depth) t m f s.result s.machine) ∨
      t.reducible = false ∧ (firingAt depth t m).toList = [] ∧ s = ⟨t, false, m⟩ := by
  rcases stepWith_cases (R := .ofDepth depth) h with ⟨hmoved, f, hfires⟩ | ⟨hnormal, hs⟩
  · exact .inl ⟨hmoved, f, by rw [firingAt, hfires.firingWith_eq]; rfl, hfires⟩
  · exact .inr ⟨hnormal, by rw [firingAt, firingWith_of_normal hnormal]; rfl, hs⟩

/-! ### The counter along steps and runs -/

/-- Firing a redex hands out nothing before its parameter is run. -/
theorem Machine.advances_beforeParam (m : Machine) (id : Ident) :
    m.toReducer.Advances [] (m.beforeParam id).toReducer :=
  .of_eq rfl rfl rfl

/-- Noting a step hands out nothing. -/
theorem Machine.advances_stepped (m : Machine) (number : Nat) (t : Term) :
    m.toReducer.Advances [] (m.stepped number t).toReducer :=
  .of_eq rfl rfl rfl

/-- Nor does cutting off a parameter. -/
theorem Run.advances_afterParam (run : Run) (id : Ident) :
    run.machine.toReducer.Advances [] (run.afterParam id).toReducer := by
  unfold afterParam
  split
  · exact .refl _
  · exact .of_eq rfl rfl rfl

/-- A run hands out identities for what it fires. -/
def RunAdvances (_ : Term) (m : Machine) (fs : List Firing) (run : Run) : Prop :=
  m.toReducer.Advances (Firing.modelsAll fs) run.machine.toReducer

/-- The run of a parameter, with the counting before and after it. -/
theorem RunAdvances.around {param : Term} {m : Machine} {fs : List Firing} {run : Run} {id : Ident}
    (h : RunAdvances param (m.beforeParam id) fs run) :
    m.toReducer.Advances (Firing.modelsAll fs) (run.afterParam id).toReducer :=
  (m.advances_beforeParam id).head (Reducer.Advances.tail h (run.advances_afterParam id))

section

variable {R : ParamRunner} (hR : R.Satisfies RunAdvances)
include hR

/-- A step hands out identities for the redex that it fires. -/
theorem Fires.advances {t t' : Term} {m m' : Machine} {f : Firing} (h : Fires R t m f t' m') :
    m.toReducer.Advances f.models m'.toReducer := by
  induction h with
  | redex _ _ hrun hsub =>
    exact (hR _ _ _ hrun).around.trans (Term.advances_substitute hsub).reducer
  | body _ ih => exact ih
  | arg _ _ ih => exact ih

/-- A chain of steps hands out identities for what its redexes copy, one after the other. -/
theorem RunSteps.advances {t t' : Term} {m m' : Machine} {fs : List Firing}
    (h : RunSteps R t m fs t' m') : m.toReducer.Advances (Firing.modelsAll fs) m'.toReducer := by
  induction h with
  | refl t m => exact .refl m.toReducer
  | head hfires _ ih =>
    exact (hfires.advances hR).trans ((Machine.advances_stepped _ _ _).head ih)

end

/-- A run hands out identities for the redexes that it fires. -/
theorem runAt_advances {depth budget : Nat} {t : Term} {m : Machine} {run : Run}
    (h : runAt depth budget t m = some run) :
    m.toReducer.Advances (Firing.modelsAll (firingsAt depth budget t m))
      run.machine.toReducer := by
  refine runAt_induct (P := RunAdvances) ?_ h
  intro R budget t m run hparams hrun
  exact (runWith_steps hrun).advances hparams

/-- Parameters are reduced by such runs. -/
theorem ParamRunner.ofDepth_advances (depth : Nat) : (ofDepth depth).Satisfies RunAdvances :=
  fun _ _ _ h => runAt_advances h

/-- A step hands out identities for the redex of its account. -/
theorem stepAt_advances {depth : Nat} {t : Term} {m : Machine} {s : Stepped Term}
    (h : stepAt depth t m = some s) :
    m.toReducer.Advances (Firing.modelsAll (firingAt depth t m).toList) s.machine.toReducer := by
  rcases stepAt_cases h with ⟨_, f, hfiring, hfires⟩ | ⟨_, hfiring, rfl⟩
  · rw [hfiring, Firing.modelsAll_singleton]
    exact hfires.advances (ParamRunner.ofDepth_advances depth)
  · rw [hfiring]
    exact .refl _

end DotLambda
