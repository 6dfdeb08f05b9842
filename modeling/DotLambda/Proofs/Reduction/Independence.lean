import DotLambda.Proofs.Reduction.Likeness
import DotLambda.Proofs.Reduction.Resuming

namespace DotLambda

/-!
# Reduction — independence of identities

A reduction does not look at which identities its term has, nor at what its reducer has done
before.  Two reducers with the same budget that reduce terms which are equal up to renaming go in
step: they make the same steps, count the same and hand out as many identities, though others.

* `Reducer.InStep` — two stretches of work that count the same;
* `Mirror` — two reducers at work on terms that are equal up to renaming;
* `Fires.mirrored`, `runWith_mirrored`, `runAt_mirrored` — steps and runs of the one are steps and
  runs of the other;
* `Reducer.normalize_independent` — so are reductions.
-/

open Term (Renamed)

/-! ### Counting in step -/

namespace Reducer

variable {r r' r'' q q' q'' : Reducer}

/-- From `r` to `r'` and from `q` to `q'` every counter grew by as much. -/
def InStep (r r' q q' : Reducer) : Prop :=
  ∃ d, r'.stats = r.stats.add d ∧ q'.stats = q.stats.add d

namespace InStep

/-- Reducers that do nothing stay in step. -/
theorem refl (r q : Reducer) : InStep r r q q :=
  ⟨{}, (Stats.add_zero _).symm, (Stats.add_zero _).symm⟩

/-- Reducers that are in step twice are in step all the way. -/
theorem trans (h₁ : InStep r r' q q') (h₂ : InStep r' r'' q' q'') : InStep r r'' q q'' := by
  obtain ⟨d₁, hr₁, hq₁⟩ := h₁
  obtain ⟨d₂, hr₂, hq₂⟩ := h₂
  refine ⟨d₁.add d₂, ?_, ?_⟩
  · rw [hr₂, hr₁, Stats.add_assoc]
  · rw [hq₂, hq₁, Stats.add_assoc]

/-- Both sides count the same. -/
theorem of_counted {f : Stats → Stats} (hf : ∀ s : Stats, f s = s.add (f {}))
    (hr : r'.stats = f r.stats) (hq : q'.stats = f q.stats) : InStep r r' q q' :=
  ⟨f {}, hr.trans (hf _), hq.trans (hf _)⟩

end InStep

end Reducer

/-! ### Two reducers -/

/-- Two reducers with the same budget, at work on terms that fit them and that are equal up to
    renaming. -/
structure Mirror (Γ : List (Ident × Ident)) (t : Term) (r : Reducer) (u : Term) (q : Reducer) :
    Prop where
  renamed : Renamed Γ t u
  left : t.Fits r
  right : u.Fits q
  budget : r.budget = q.budget

/-- Two runs that go in step, hand out as many identities and end with terms that are equal up to
    renaming. -/
structure Run.Mirrored (Γ : List (Ident × Ident)) (r : Reducer) (fs : List Firing) (run : Run)
    (q : Reducer) (gs : List Firing) (run' : Run) : Prop where
  steps : run'.steps = run.steps
  finished : run'.finished = run.finished
  renamed : Renamed Γ run.term run'.term
  inStep : r.InStep run.machine.toReducer q run'.machine.toReducer
  handed : (Firing.modelsAll gs).length = (Firing.modelsAll fs).length

/-- A run of a parameter by one reducer is mirrored by every other that has room for it. -/
def ParamRunner.Mirrors (R : ParamRunner) : Prop :=
  ∀ {Γ p m u n run}, R.run p m = some run → Mirror Γ p m.toReducer u n.toReducer →
    m.toReducer.Unwrapped (Firing.modelsAll (R.firings p m)) →
    n.toReducer.Unwrapped (Firing.modelsAll (R.firings p m)) →
    ∃ run', R.run u n = some run' ∧
      run.Mirrored Γ m.toReducer (R.firings p m) n.toReducer (R.firings u n) run'

/-! ### Steps -/

/-- The value of a redex is fit to be put in for its binder. -/
theorem RunReduct.clean {id : Ident} {body param : Term} {m : Machine} {fs : List Firing}
    {run : Run} (h : RunReduct param (m.beforeParam id) fs run)
    (ht : (Term.abs id body param).Fits m.toReducer) (hp : param.isPresent = true)
    (hu : m.toReducer.Unwrapped
      (Firing.modelsAll fs ++ run.term.copyModels ((body.sites id).length - 1))) :
    Splice.Clean { value := run.term, reducer := (run.afterParam id).toReducer } (body.sites id) id
      body.binders body.idents := by
  have hadv := h.advances.around
  have hvalue := h.ofParam (ht.param hp) hu.left
  have hfits := hvalue.fits (ht.param hp) hadv hu.left
  exact ⟨⟨hfits.toProper, hfits.low⟩, hvalue.hosted ht hadv hu.left, hu.right hadv⟩

/-- Firing a redex counts the same for any binder. -/
theorem Machine.inStep_beforeParam (m n : Machine) (i j : Ident) :
    m.toReducer.InStep (m.beforeParam i).toReducer n.toReducer (n.beforeParam j).toReducer := by
  have hfired : m.toReducer.InStep (m.count .beta i).toReducer n.toReducer
      (n.count .beta j).toReducer :=
    .of_counted (fun s => s.count_eq_add .beta) rfl rfl
  exact hfired.trans (.of_counted Stats.countParameterRun_eq_add rfl rfl)

/-- So does cutting off its parameter, if it is cut off on both sides. -/
theorem Run.inStep_afterParam {run run' : Run} (h : run'.finished = run.finished) (i j : Ident) :
    run.machine.toReducer.InStep (run.afterParam i).toReducer run'.machine.toReducer
      (run'.afterParam j).toReducer := by
  unfold afterParam
  rw [h]
  split
  · exact .refl _ _
  · exact .of_counted (fun s => s.count_eq_add .parameterExhausted) rfl rfl

section

variable {R : ParamRunner} (hmirrors : R.Mirrors) (hR : R.Satisfies RunReduct)
include hmirrors hR

/-- **Steps.** A step of one reducer is mirrored by a step of the other. -/
theorem Fires.mirrored {Γ : List (Ident × Ident)} {t t' u : Term} {m m' n : Machine} {f : Firing}
    (h : Fires R t m f t' m') (hm : Mirror Γ t m.toReducer u n.toReducer)
    (hu : m.toReducer.Unwrapped f.models) (hroom : n.toReducer.Unwrapped f.models) :
    ∃ g u' n', Fires R u n g u' n' ∧ Renamed Γ t' u' ∧
      m.toReducer.InStep m'.toReducer n.toReducer n'.toReducer ∧
      g.models.length = f.models.length := by
  induction h generalizing Γ u with
  | @redex id body param t' m run s' hnormal hparam hrun hsub =>
    obtain ⟨hrenamed, hleft, hright, hbudget⟩ := hm
    cases hrenamed with
    | @abs _ _ j _ ubody _ uparam _ hbodies hparams =>
      have huparam : uparam.isPresent = true := hparams.isPresent_eq ▸ hparam
      have hunormal : ubody.reducible = false := hbodies.reducible_eq ▸ hnormal
      -- The run of the parameter is mirrored, and what it gives is put in on the other side too.
      obtain ⟨run', hrun', hmirrored⟩ := hmirrors (n := n.beforeParam j) hrun
        ⟨hparams, (hleft.param hparam).mono (le_refl m.next),
          (hright.param huparam).mono (le_refl n.next), hbudget⟩ hu.left hroom.left
      rcases hsub' : ubody.substitute j
        { value := run'.term, reducer := (run'.afterParam j).toReducer } with ⟨u', q'⟩
      have hsites : body.sites id = ubody.sites j :=
        hbodies.sites_eq (.here id j Γ) hleft.toApart.abs.2.2.1.1 hright.toApart.abs.2.2.1.1
      have hhanded : (Firing.models ⟨⟨j, ubody, uparam, hunormal, huparam⟩,
            R.firings uparam (n.beforeParam j), run'.term, !run'.finished⟩).length
          = (Firing.models ⟨⟨id, body, param, hnormal, hparam⟩,
            R.firings param (m.beforeParam id), run.term, !run.finished⟩).length := by
        rw [Firing.models, Firing.models, List.length_append, List.length_append,
          Term.length_copyModels, Term.length_copyModels, hmirrored.handed, hsites,
          hmirrored.renamed.length_binders_eq]
      have hputIn : (run.afterParam id).toReducer.InStep s'.reducer
          (run'.afterParam j).toReducer q'.reducer := by
        refine .of_counted (f := (Stats.countAll · (body.sites id)))
          (fun s => s.countAll_eq_add _) (Term.stats_substitute hsub) ?_
        rw [hsites]
        exact Term.stats_substitute hsub'
      refine ⟨_, u', _, .redex hunormal huparam hrun' hsub', ?_, ?_, hhanded⟩
      · exact Renamed.substitute hsub hbodies hsub' (.here id j Γ) hmirrored.renamed
          ((hR _ _ _ hrun).clean hleft hparam hu)
          ((hR _ _ _ hrun').clean hright huparam (hroom.congr hhanded))
      · exact (m.inStep_beforeParam n id j).trans (hmirrored.inStep.trans
          ((Run.inStep_afterParam hmirrored.finished id j).trans hputIn))
  | body _ ih =>
    obtain ⟨hrenamed, hleft, hright, hbudget⟩ := hm
    cases hrenamed with
    | abs _ hbodies hparams =>
      obtain ⟨g, u', n', hfires, hrenamed, hcounts⟩ :=
        ih ⟨hbodies, hleft.body, hright.body, hbudget⟩ hu hroom
      exact ⟨g, _, n', .body hfires, .abs trivial hrenamed hparams, hcounts⟩
  | arg hnormal _ ih =>
    obtain ⟨hrenamed, hleft, hright, hbudget⟩ := hm
    cases hrenamed with
    | app hhead hargs =>
      obtain ⟨before', arg', after', rfl, hbefore, harg, hafter⟩ := hargs.split
      obtain ⟨g, u', n', hfires, hrenamed, hcounts⟩ :=
        ih ⟨harg, hleft.arg, hright.arg, hbudget⟩ hu hroom
      -- The arguments in front are in normal form on both sides.
      have hnormal' := (Term.Alike.app hhead hbefore).reducible_eq
      rw [Term.reducible, Term.reducible, Term.argsReducible_eq_false.mpr hnormal, eq_comm,
        Term.argsReducible_eq_false] at hnormal'
      exact ⟨g, _, n', .arg hnormal' hfires, .app hhead (hbefore.append (.cons hrenamed hafter)),
        hcounts⟩

omit hmirrors in
/-- The terms after a step that is mirrored fit their reducers again. -/
theorem Mirror.fired {Γ : List (Ident × Ident)} {t t' u u' : Term} {m m' n n' : Machine}
    {f g : Firing} (hm : Mirror Γ t m.toReducer u n.toReducer) (h : Fires R t m f t' m')
    (h' : Fires R u n g u' n') (hrenamed : Renamed Γ t' u')
    (hu : m.toReducer.Unwrapped f.models) (hu' : n.toReducer.Unwrapped g.models) :
    Mirror Γ t' m'.toReducer u' n'.toReducer := by
  have hadv := h.advances hR.advances
  have hadv' := h'.advances hR.advances
  refine ⟨hrenamed, ?_, ?_, by rw [hadv.budget, hadv'.budget, hm.budget]⟩
  · exact (h.reduct hR hm.left hu).fits hm.left hadv hu
  · exact (h'.reduct hR hm.right hu').fits hm.right hadv' hu'

end

/-! ### Runs -/

/-- Noting a step counts nothing. -/
theorem Machine.inStep_stepped (m n : Machine) (number : Nat) (t u : Term) :
    m.toReducer.InStep (m.stepped number t).toReducer n.toReducer
      (n.stepped number u).toReducer :=
  .of_counted Stats.countStep_eq_add rfl rfl

/-- Machines stay alike when a step is noted. -/
theorem Mirror.stepped {Γ : List (Ident × Ident)} {t u : Term} {m n : Machine}
    (h : Mirror Γ t m.toReducer u n.toReducer) (number : Nat) :
    Mirror Γ t (m.stepped number t).toReducer u (n.stepped number u).toReducer :=
  ⟨h.renamed, h.left.mono (le_refl m.next), h.right.mono (le_refl n.next), h.budget⟩

/-- **Runs.** A run of one reducer is mirrored by a run of the other. -/
theorem runWith_mirrored {R : ParamRunner} (hmirrors : R.Mirrors) (hR : R.Satisfies RunReduct)
    {budget steps : Nat} {Γ : List (Ident × Ident)} {t u : Term} {m n : Machine} {run : Run}
    (h : runWith (stepWith R.run) budget steps t m = some run)
    (hm : Mirror Γ t m.toReducer u n.toReducer)
    (hu : m.toReducer.Unwrapped (Firing.modelsAll (firingsWith R budget steps t m)))
    (hroom : n.toReducer.Unwrapped (Firing.modelsAll (firingsWith R budget steps t m))) :
    ∃ run', runWith (stepWith R.run) budget steps u n = some run' ∧
      run.Mirrored Γ m.toReducer (firingsWith R budget steps t m) n.toReducer
        (firingsWith R budget steps u n) run' := by
  refine runWith_induct (P := fun budget steps t m => ∀ {u n},
    Mirror Γ t m.toReducer u n.toReducer →
    m.toReducer.Unwrapped (Firing.modelsAll (firingsWith R budget steps t m)) →
    n.toReducer.Unwrapped (Firing.modelsAll (firingsWith R budget steps t m)) →
    ∃ run', runWith (stepWith R.run) budget steps u n = some run' ∧
      run.Mirrored Γ m.toReducer (firingsWith R budget steps t m) n.toReducer
        (firingsWith R budget steps u n) run') ?normal ?spent ?made h hm hu hroom
  case normal =>
    rintro budget steps t m hred rfl u n hm - -
    have hured : u.reducible = false := hm.renamed.reducible_eq ▸ hred
    refine ⟨_, runWith_of_normal hured, rfl, rfl, hm.renamed, .refl _ _, ?_⟩
    rw [firingsWith_of_normal hured, firingsWith_of_normal hred]
  case spent =>
    rintro steps t m hred rfl u n hm - -
    have hured : u.reducible = true := hm.renamed.reducible_eq ▸ hred
    exact ⟨_, runWith_spent hured, rfl, rfl, hm.renamed, .refl _ _, rfl⟩
  case made =>
    intro budget steps t m s hred hstep _ ih u n hm hu hroom
    obtain ⟨-, f, hfires⟩ := stepWith_moves hstep hred
    rw [firingsWith_of_step hfires.firingWith_eq hstep, Firing.modelsAll] at hu hroom
    obtain ⟨g, u', n', hfires', hrenamed, hinStep, hhanded⟩ :=
      hfires.mirrored hmirrors hR hm hu.left hroom.left
    have hm' := hm.fired hR hfires hfires' hrenamed hu.left (hroom.left.congr hhanded)
    -- Both reducers count the step and go on.
    have hadv := (hfires.advances hR.advances).tail
      (s.machine.advances_stepped (steps + 1) s.result)
    have hadv' := (hfires'.advances hR.advances).tail (n'.advances_stepped (steps + 1) u')
    have hrest : n.toReducer.Unwrapped (g.models ++ Firing.modelsAll
        (firingsWith R budget (steps + 1) s.result (s.machine.stepped (steps + 1) s.result))) :=
      hroom.congr (by rw [List.length_append, List.length_append, hhanded])
    obtain ⟨run', hrun', hmirrored⟩ := ih (n := n'.stepped (steps + 1) u') (hm'.stepped (steps + 1))
      (hu.right hadv) (hrest.right hadv')
    have hinStep' := hinStep.trans (s.machine.inStep_stepped n' (steps + 1) s.result u')
    rw [firingsWith_of_step hfires.firingWith_eq hstep,
      firingsWith_of_step hfires'.firingWith_eq hfires'.stepWith_eq]
    refine ⟨run', ?_, { hmirrored with inStep := hinStep'.trans hmirrored.inStep, handed := ?_ }⟩
    · rw [runWith_of_reducible hfires'.reducible, hfires'.stepWith_eq, Option.bind_some]
      exact hrun'
    · rw [Firing.modelsAll, Firing.modelsAll, List.length_append, List.length_append, hhanded,
        hmirrored.handed]

/-- Runs are mirrored at every depth. -/
theorem runAt_mirrored {depth budget : Nat} {Γ : List (Ident × Ident)} {t u : Term}
    {m n : Machine} {run : Run} (h : runAt depth budget t m = some run)
    (hm : Mirror Γ t m.toReducer u n.toReducer)
    (hu : m.toReducer.Unwrapped (Firing.modelsAll (firingsAt depth budget t m)))
    (hroom : n.toReducer.Unwrapped (Firing.modelsAll (firingsAt depth budget t m))) :
    ∃ run', runAt depth budget u n = some run' ∧
      run.Mirrored Γ m.toReducer (firingsAt depth budget t m) n.toReducer
        (firingsAt depth budget u n) run' := by
  induction depth generalizing budget Γ t u m n run with
  | zero => cases h
  | succ depth ih =>
    refine runWith_mirrored (R := .ofDepth depth) ?_ (ParamRunner.ofDepth_reduct depth) h hm hu
      hroom
    -- Parameters are run under the budget of their reducer, which is the same on both sides.
    intro Γ p m u n run hp hm hu hroom
    show ∃ run', runAt depth n.budget u n = some run' ∧ run.Mirrored Γ m.toReducer
      (firingsAt depth m.budget p m) n.toReducer (firingsAt depth n.budget u n) run'
    rw [← hm.budget]
    exact ih hp hm hu hroom

/-! ### Reductions -/

/-- Outcomes of the same kind, after the same steps, with terms that are equal up to renaming. -/
inductive OutcomesAlike : Except Divergence Term → Except Divergence Term → Prop where
  | ok {t u : Term} (h : Renamed [] t u) : OutcomesAlike (.ok t) (.ok u)
  | error (steps : Nat) {t u : Term} (h : Renamed [] t u) :
      OutcomesAlike (.error ⟨steps, t⟩) (.error ⟨steps, u⟩)

/-- Mirrored runs have outcomes that are alike. -/
theorem Run.Mirrored.outcome {r q : Reducer} {fs gs : List Firing} {run run' : Run}
    (h : run.Mirrored [] r fs q gs run') :
    OutcomesAlike run.outcome run'.outcome := by
  unfold Run.outcome
  rw [h.finished, h.steps]
  split
  · exact .ok h.renamed
  · exact .error _ h.renamed

namespace Reducer

/-- A call on `t` may hand out `room` identities before the counter comes around. -/
structure HasRoom (r : Reducer) (t : Term) (room : Nat) : Prop where
  skipped : t.greatest + 1 < 2 ^ 63
  handed : (r.skipPast t).next + room < 2 ^ 63

/-- How many identities a reduction of `t` hands out. -/
def numHanded (r : Reducer) (depth n : Nat) (t : Term) : Nat :=
  (Firing.modelsAll (r.normalizeFirings depth n t)).length

/-- A reduction of `t` returns and hands out `room` identities at most. -/
def ReturnsWithin (room : Nat) (r : Reducer) (depth n : Nat) (t : Term)
    (outcome : Except Divergence Term) (r' : Reducer) : Prop :=
  r.normalize depth n t = some (outcome, r') ∧ r.numHanded depth n t ≤ room

section

variable {r r' q : Reducer} {t u : Term} {room depth n : Nat} {outcome : Except Divergence Term}

/-- Room for what is fired keeps the counter from coming around. -/
theorem HasRoom.countsOn {fs : List Firing} (h : r.HasRoom t room)
    (hle : (Firing.modelsAll fs).length ≤ room) : r.CountsOn t fs := by
  obtain ⟨hskipped, hhanded⟩ := h
  exact ⟨hskipped, by lia⟩

/-- A reduction by one reducer is mirrored by one of the other. -/
theorem ReturnsWithin.mirrored (h : r.ReturnsWithin room depth n t outcome r')
    (ht : t.Proper) (hu : u.Proper) (hrenamed : Renamed [] t u) (hbudget : r.budget = q.budget)
    (hr : r.HasRoom t room) (hq : q.HasRoom u room) :
    ∃ outcome' q', q.ReturnsWithin room depth n u outcome' q' ∧ OutcomesAlike outcome outcome' ∧
      r.InStep r' q q' ∧ q.numHanded depth n u = r.numHanded depth n t := by
  obtain ⟨h, hle⟩ := h
  -- The other reducer has room for what this one hands out.
  have hc : r.CountsOn t (r.normalizeFirings depth n t) := hr.countsOn hle
  have hcq : q.CountsOn u (r.normalizeFirings depth n t) := hq.countsOn hle
  obtain ⟨run, hrun, rfl, rfl⟩ := normalize_runs h
  obtain ⟨run', hrun', hmirrored⟩ := runAt_mirrored (n := ⟨q.skipPast u, .off⟩) hrun
    ⟨hrenamed, hc.fits ht, hcq.fits hu, hbudget⟩ hc.unwrapped hcq.unwrapped
  refine ⟨run'.outcome, run'.machine.toReducer, ⟨?_, hmirrored.handed.trans_le hle⟩,
    hmirrored.outcome, hmirrored.inStep, hmirrored.handed⟩
  rw [normalize_eq_runAt, hrun', Option.map_some]

end

/-- **Independence.** Two reducers with the same budget, whatever their counters, names, statistics
    and traces, reduce terms that are equal up to renaming in the same way: the one returns where
    the other does, after handing out as many identities; then both succeed or both give up after
    the same steps, with terms that are equal up to renaming, and each of their counters has grown
    by as much. -/
theorem normalize_independent {t u : Term} (ht : t.Proper) (hu : u.Proper)
    (hrenamed : Renamed [] t u) {r q : Reducer} (hbudget : r.budget = q.budget) {room : Nat}
    (hr : r.HasRoom t room) (hq : q.HasRoom u room) (depth n : Nat) :
    ((∃ outcome r', r.ReturnsWithin room depth n t outcome r') ↔
      ∃ outcome q', q.ReturnsWithin room depth n u outcome q') ∧
    ∀ outcome r' outcome' q', r.ReturnsWithin room depth n t outcome r' →
      q.normalize depth n u = some (outcome', q') →
      OutcomesAlike outcome outcome' ∧ r.InStep r' q q' ∧
        q.numHanded depth n u = r.numHanded depth n t := by
  refine ⟨⟨?_, ?_⟩, ?_⟩
  · rintro ⟨outcome, r', h⟩
    obtain ⟨outcome', q', h', -⟩ := h.mirrored ht hu hrenamed hbudget hr hq
    exact ⟨outcome', q', h'⟩
  · rintro ⟨outcome, q', h⟩
    obtain ⟨outcome', r', h', -⟩ := h.mirrored hu ht hrenamed.swap hbudget.symm hq hr
    exact ⟨outcome', r', h'⟩
  · intro outcome r' outcome' q' h h'
    obtain ⟨_, _, hmirror, halike, hcounts⟩ := h.mirrored ht hu hrenamed hbudget hr hq
    rw [hmirror.1, Option.some.injEq, Prod.mk.injEq] at h'
    obtain ⟨rfl, rfl⟩ := h'
    exact ⟨halike, hcounts⟩

/-- `x(x.x.w).y(z(y.z))` under two sets of identities, by a new reducer and by one that has names,
    counts and a trace: given up after two steps, when the second use of the parameter has become a
    copy, both have the same term but for the identities. -/
theorem normalize_independent_copied :
    let t : Term :=
      .abs 0 (.app 0 [.var 0, .var 9]) (.abs 1 (.abs 2 (.app 1 [.var 2]) .absent) .absent)
    let u : Term :=
      .abs 7 (.app 7 [.var 7, .var 9]) (.abs 3 (.abs 5 (.app 3 [.var 5]) .absent) .absent)
    let q : Reducer :=
      { next := 40, names := #["x"], stats := { fired := 3 }, trace := some (.ofCapacity 2) }
    let copied (i j k : Ident) : Term :=
      .abs i (.app i [.var 9]) (.abs j (.abs k (.app j [.var k]) .absent) .absent)
    t.Proper ∧ u.Proper ∧ Renamed [] t u ∧ HasRoom {} t 2 ∧ q.HasRoom u 2 ∧
      ∃ r' q', ReturnsWithin 2 {} 3 2 t (.error ⟨2, copied 1 10 11⟩) r' ∧
        q.normalize 3 2 u = some (.error ⟨2, copied 3 40 41⟩, q') ∧
        OutcomesAlike (.error ⟨2, copied 1 10 11⟩) (.error ⟨2, copied 3 40 41⟩) ∧
        InStep {} r' q q' ∧ q.numHanded 3 2 u = numHanded {} 3 2 t := by
  intro t u q copied
  have ht : t.Proper := ⟨⟨by decide, by decide⟩, rfl⟩
  have hu : u.Proper := ⟨⟨by decide, by decide⟩, rfl⟩
  have hfree : Linked [(0, 7)] 9 9 := .outside (by decide) (by decide) (.free 9)
  have hrenamed : Renamed [] t u :=
    .abs trivial (.app (.here 0 7) (.cons (.var (.here 0 7)) (.cons (.var hfree) (.nil _))))
      (.abs trivial (.abs trivial (.app (.outside (by decide) (by decide) (.here 1 3))
        (.cons (.var (.here 2 5)) (.nil _))) (.absent _)) (.absent _))
  have hr : HasRoom {} t 2 := ⟨by decide, by decide⟩
  have hq : q.HasRoom u 2 := ⟨by decide, by decide⟩
  have hbudget : budget {} = q.budget := rfl
  have hwithin : numHanded {} 3 2 t ≤ 2 := by decide +kernel
  refine ⟨ht, hu, hrenamed, hr, hq, _, _, ⟨rfl, hwithin⟩, rfl, ?_⟩
  exact (normalize_independent ht hu hrenamed hbudget hr hq 3 2).2 _ _ _ _ ⟨rfl, hwithin⟩ rfl

end Reducer

end DotLambda
