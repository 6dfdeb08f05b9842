import DotLambda.Proofs.Reduction.Calls
import DotLambda.Proofs.Reduction.Sites

namespace DotLambda

/-!
# Reduction — what the counters say

The redexes that a run fires form trees: a redex has below it those that were fired while its
parameter was reduced.  The counters of a reducer are numbers of nodes of these trees, modulo the
size of a machine word, and what relates the counters to each other is a fact about trees.

* `Firing.tally` — weights of a redex and of those below it, added up;
* `Stats.Covers` — how far the counters have moved;
* `Fires.covers`, `RunSteps.covers`, `runAt_covers` — steps and runs;
* `Reducer.Call.covers_serve`, `Reducer.covers_serveAll` — calls;
* `Reducer.counters_add_up` — what holds of the counters after any calls on a new reducer.
-/

/-! ### Trees of redexes -/

namespace Firing

mutual

/-- The weights of a redex and of all those below it, added up.  What a redex weighs is told by
    whether its parameter was cut off. -/
def tally (weight : Bool → Nat) : Firing → Nat
  | ⟨_, nested, _, cutOff⟩ => weight cutOff + tallyAll weight nested

/-- The weights of redexes and of all those below them, added up. -/
def tallyAll (weight : Bool → Nat) : List Firing → Nat
  | [] => 0
  | f :: fs => tally weight f + tallyAll weight fs

end

/-- The number of redexes, those below included. -/
def redexes (fs : List Firing) : Nat :=
  tallyAll (fun _ => 1) fs

/-- The number of redexes whose parameters were cut off, those below included. -/
def cutOffs (fs : List Firing) : Nat :=
  tallyAll Bool.toNat fs

/-- The weights of redexes fired one after the other add up. -/
theorem tallyAll_append (weight : Bool → Nat) (fs gs : List Firing) :
    tallyAll weight (fs ++ gs) = tallyAll weight fs + tallyAll weight gs := by
  induction fs with
  | nil => simp [tallyAll]
  | cons f fs ih => simp [tallyAll, ih, Nat.add_assoc]

/-- A redex weighs what it does and what those fired in its parameter do. -/
theorem tallyAll_cons (weight : Bool → Nat) (f : Firing) (fs : List Firing) :
    tallyAll weight (f :: fs)
      = weight f.cutOff + tallyAll weight f.nested + tallyAll weight fs := by
  obtain ⟨_, nested, _, cutOff⟩ := f
  rw [tallyAll, tally]

mutual

/-- Heavier weights give a heavier tally. -/
theorem tally_le {weight weight' : Bool → Nat} (h : ∀ b, weight b ≤ weight' b) :
    ∀ f : Firing, tally weight f ≤ tally weight' f
  | ⟨_, nested, _, cutOff⟩ => by
    have := tallyAll_le h nested
    have := h cutOff
    simp only [tally]
    omega

/-- Greater weights add up to more. -/
theorem tallyAll_le {weight weight' : Bool → Nat} (h : ∀ b, weight b ≤ weight' b) :
    ∀ fs : List Firing, tallyAll weight fs ≤ tallyAll weight' fs
  | [] => by simp [tallyAll]
  | f :: fs => by
    have := tally_le h f
    have := tallyAll_le h fs
    simp only [tallyAll]
    omega

end

/-- No more parameters are cut off than redexes fired. -/
theorem cutOffs_le_redexes (fs : List Firing) : cutOffs fs ≤ redexes fs :=
  tallyAll_le (fun b => by cases b <;> simp) fs

theorem redexes_append (fs gs : List Firing) : redexes (fs ++ gs) = redexes fs + redexes gs :=
  tallyAll_append _ fs gs

theorem cutOffs_append (fs gs : List Firing) : cutOffs (fs ++ gs) = cutOffs fs + cutOffs gs :=
  tallyAll_append _ fs gs

theorem redexes_cons (f : Firing) (fs : List Firing) :
    redexes (f :: fs) = 1 + redexes f.nested + redexes fs :=
  tallyAll_cons _ f fs

/-- All redexes are at least those that are fired outside of parameters. -/
theorem length_le_redexes (fs : List Firing) : fs.length ≤ redexes fs := by
  induction fs with
  | nil => simp
  | cons f fs ih =>
    rw [List.length_cons, redexes_cons]
    omega

/-- Without redexes below, the redexes are all there are. -/
theorem redexes_eq_length {fs : List Firing} (h : ∀ f ∈ fs, f.nested = []) :
    redexes fs = fs.length := by
  induction fs with
  | nil => rfl
  | cons f fs ih =>
    rw [List.forall_mem_cons] at h
    rw [redexes_cons, ih h.2, h.1, List.length_cons]
    simp only [redexes, tallyAll]
    omega

end Firing

/-! ### Counters along a run -/

/-- From `s` to `s'` the redexes of `fs` were fired, with those below them, and `steps` steps were
    counted. -/
structure Stats.Covers (s s' : Stats) (fs : List Firing) (steps : Nat) : Prop where
  fired : s'.fired = s.fired + .ofNat (Firing.redexes fs)
  parameterRuns : s'.parameterRuns = s.parameterRuns + .ofNat (Firing.redexes fs)
  parametersExhausted :
    s'.parametersExhausted = s.parametersExhausted + .ofNat (Firing.cutOffs fs)
  reductions : s'.reductions = s.reductions + .ofNat steps

namespace Stats

/-- Nothing is counted where nothing is done. -/
theorem Covers.refl (s : Stats) : s.Covers s [] 0 where
  fired := (UInt64.add_zero _).symm
  parameterRuns := (UInt64.add_zero _).symm
  parametersExhausted := (UInt64.add_zero _).symm
  reductions := (UInt64.add_zero _).symm

/-- What is counted in two stretches adds up. -/
theorem Covers.trans {s s₁ s₂ : Stats} {fs gs : List Firing} {j k : Nat}
    (h₁ : s.Covers s₁ fs j) (h₂ : s₁.Covers s₂ gs k) : s.Covers s₂ (fs ++ gs) (j + k) where
  fired := by
    rw [h₂.fired, h₁.fired, Firing.redexes_append, UInt64.ofNat_add, UInt64.add_assoc]
  parameterRuns := by
    rw [h₂.parameterRuns, h₁.parameterRuns, Firing.redexes_append, UInt64.ofNat_add,
      UInt64.add_assoc]
  parametersExhausted := by
    rw [h₂.parametersExhausted, h₁.parametersExhausted, Firing.cutOffs_append, UInt64.ofNat_add,
      UInt64.add_assoc]
  reductions := by rw [h₂.reductions, h₁.reductions, UInt64.ofNat_add, UInt64.add_assoc]

/-- A step of the run is counted. -/
theorem Covers.countStep {s s' : Stats} {fs : List Firing} {steps : Nat}
    (h : s.Covers s' fs steps) : s.Covers s'.countStep fs (steps + 1) where
  fired := h.fired
  parameterRuns := h.parameterRuns
  parametersExhausted := h.parametersExhausted
  reductions := by
    rw [UInt64.ofNat_add, ← UInt64.add_assoc, ← h.reductions]
    rfl

/-- Around the run of its parameter, the redex itself is counted. -/
theorem Covers.fire {s s' s'' : Stats} {f : Firing} {steps : Nat}
    (h : (s.count .beta).countParameterRun.Covers s' f.nested steps)
    (hs'' : s'' = if f.cutOff then s'.count .parameterExhausted else s') :
    s.Covers s'' [f] steps := by
  rw [hs'']
  have hone (a b : UInt64) (n : Nat) (hb : b = a + 1 + .ofNat n) : b = a + .ofNat (1 + n + 0) := by
    rw [hb, Nat.add_zero, UInt64.ofNat_add, ← UInt64.add_assoc]
    rfl
  have hredexes : Firing.redexes [f] = 1 + Firing.redexes f.nested + 0 := Firing.redexes_cons f []
  have hfired : s'.fired = s.fired + .ofNat (Firing.redexes [f]) :=
    hredexes ▸ hone _ _ _ h.fired
  have hruns : s'.parameterRuns = s.parameterRuns + .ofNat (Firing.redexes [f]) :=
    hredexes ▸ hone _ _ _ h.parameterRuns
  have hcut : Firing.cutOffs [f] = f.cutOff.toNat + Firing.cutOffs f.nested + 0 :=
    Firing.tallyAll_cons _ f []
  -- Only the last counter tells whether the parameter was cut off.
  cases hf : f.cutOff with
  | false =>
    refine ⟨hfired, hruns, ?_, h.reductions⟩
    rw [hcut, hf, Bool.toNat_false, Nat.zero_add]
    exact h.parametersExhausted
  | true =>
    refine ⟨hfired, hruns, ?_, h.reductions⟩
    rw [hcut, hf, Bool.toNat_true, Nat.add_zero, Nat.add_comm, UInt64.ofNat_add,
      ← UInt64.add_assoc]
    exact congrArg (· + 1) h.parametersExhausted

end Stats

/-- A substitution counts the uses that it replaces and fires nothing. -/
theorem Term.covers_substitute {id : Ident} {t t' : Term} {s s' : Splice}
    (h : t.substitute id s = (t', s')) : s.reducer.stats.Covers s'.reducer.stats [] 0 := by
  have hbeta : (t.sites id).count .beta = 0 := count_sites_of_ne (by decide) (by decide) t
  have hcut : (t.sites id).count .parameterExhausted = 0 :=
    count_sites_of_ne (by decide) (by decide) t
  have hkept := Stats.Covers.refl s.reducer.stats
  rw [stats_substitute h, Stats.countAll_eq_counts, hbeta, hcut]
  exact ⟨rfl, hkept.parameterRuns, rfl, hkept.reductions⟩

/-- Of the end of a parameter's run only a cut-off is counted. -/
theorem Run.stats_afterParam (run : Run) (id : Ident) :
    (run.afterParam id).stats
      = if !run.finished then run.machine.stats.count .parameterExhausted
        else run.machine.stats := by
  unfold afterParam
  cases run.finished with
  | false => rfl
  | true => rfl

/-- A run counts all redexes that are fired, those below included, and all of them as steps. -/
def RunCovers (_ : Term) (m : Machine) (fs : List Firing) (run : Run) : Prop :=
  m.stats.Covers run.machine.stats fs (Firing.redexes fs)

section

variable {R : ParamRunner} (hR : R.Satisfies RunCovers)
include hR

/-- **One step.** A step counts the redex that it fires and those below it; the steps counted are
    those of its parameter. -/
theorem Fires.covers {t t' : Term} {m m' : Machine} {f : Firing} (h : Fires R t m f t' m') :
    m.stats.Covers m'.stats [f] (Firing.redexes f.nested) := by
  induction h with
  | @redex id body param t' m run s' hbody hparam hrun hsub =>
    -- The counters move in three stretches: the redex and its parameter's run are counted, the run
    -- is made, and what it leaves is put in.
    have hfired := Stats.Covers.fire
      (f := ⟨⟨id, body, param, hbody, hparam⟩, _, run.term, !run.finished⟩) (hR _ _ _ hrun)
      (run.stats_afterParam id)
    exact hfired.trans (Term.covers_substitute hsub)
  | body _ ih => exact ih
  | arg _ _ ih => exact ih

/-- A chain of steps counts each of them after those of its parameter. -/
theorem RunSteps.covers {t t' : Term} {m m' : Machine} {fs : List Firing}
    (h : RunSteps R t m fs t' m') : m.stats.Covers m'.stats fs (Firing.redexes fs) := by
  induction h with
  | refl t m => exact .refl _
  | @head t t' t'' m m' m'' f fs number hfires _ ih =>
    have hall := (hfires.covers hR).countStep.trans ih
    rwa [Firing.redexes_cons, Nat.add_comm 1]

end

/-- **Runs.** Runs count what they fire, however deep they nest. -/
theorem runAt_covers {depth budget : Nat} {t : Term} {m : Machine} {run : Run}
    (h : runAt depth budget t m = some run) :
    m.stats.Covers run.machine.stats (firingsAt depth budget t m)
      (Firing.redexes (firingsAt depth budget t m)) := by
  refine runAt_induct (P := RunCovers) ?_ h
  intro R budget t m run hparams hrun
  exact (runWith_steps hrun).covers hparams

theorem ParamRunner.ofDepth_covers (depth : Nat) : (ofDepth depth).Satisfies RunCovers :=
  fun _ _ _ h => runAt_covers h

/-- The steps of a run are the redexes at the top. -/
theorem runWith_length {R : ParamRunner} {budget steps : Nat} {t : Term} {m : Machine} {run : Run}
    (h : runWith (stepWith R.run) budget steps t m = some run) :
    run.steps = steps + (firingsWith R budget steps t m).length := by
  refine runWith_induct (P := fun budget steps t m =>
    run.steps = steps + (firingsWith R budget steps t m).length) ?normal ?spent ?made h
  case normal =>
    rintro budget steps t m hnormal rfl
    rw [firingsWith_of_normal hnormal]
    rfl
  case spent =>
    rintro steps t m - rfl
    rfl
  case made =>
    intro budget steps t m s hred hs _ ih
    obtain ⟨-, f, hfires⟩ := stepWith_moves hs hred
    rw [ih, firingsWith_of_step hfires.firingWith_eq hs, List.length_cons]
    omega

/-- A run has a step for each redex that it fires outside of parameters. -/
theorem runAt_length {depth budget : Nat} {t : Term} {m : Machine} {run : Run}
    (h : runAt depth budget t m = some run) :
    run.steps = (firingsAt depth budget t m).length := by
  refine runAt_induct (P := fun _ _ fs run => run.steps = fs.length) ?_ h
  intro R budget t m run _ hrun
  rw [runWith_length hrun, Nat.zero_add]

/-! ### Parameters that may take no step -/

/-- Without a budget nothing is fired. -/
theorem firingsAt_zero (depth : Nat) (t : Term) (m : Machine) : firingsAt depth 0 t m = [] := by
  cases depth with
  | zero => rfl
  | succ depth => rfl

/-- Without a budget for parameters nothing is fired in one. -/
theorem Fires.nested_eq_nil {depth : Nat} {t t' : Term} {m m' : Machine} {f : Firing}
    (h : Fires (.ofDepth depth) t m f t' m') (hm : m.budget = 0) : f.nested = [] := by
  induction h with
  | @redex id body param t' m run s' _ _ _ _ =>
    have hbudget : (m.beforeParam id).budget = 0 := hm
    show firingsAt depth (m.beforeParam id).budget param (m.beforeParam id) = []
    rw [hbudget, firingsAt_zero]
  | body _ ih => exact ih hm
  | arg _ _ ih => exact ih hm

/-- Nor is anything along a chain of steps. -/
theorem RunSteps.nested_eq_nil {depth : Nat} {t t' : Term} {m m' : Machine} {fs : List Firing}
    (h : RunSteps (.ofDepth depth) t m fs t' m') (hm : m.budget = 0) :
    ∀ f ∈ fs, f.nested = [] := by
  induction h with
  | refl => exact fun _ hf => absurd hf List.not_mem_nil
  | head hfires _ ih =>
    -- The budget stays what it was along the run.
    have hkept := (hfires.advances (ParamRunner.ofDepth_advances depth)).budget
    exact List.forall_mem_cons.mpr ⟨hfires.nested_eq_nil hm, ih (hkept.trans hm)⟩

/-- Where parameters may take no step, a run fires one redex for each of its steps. -/
theorem redexes_firingsAt {depth budget : Nat} {t : Term} {m : Machine} {run : Run}
    (h : runAt depth budget t m = some run) (hm : m.budget = 0) :
    Firing.redexes (firingsAt depth budget t m) = (firingsAt depth budget t m).length := by
  cases depth with
  | zero => rfl
  | succ depth =>
    exact Firing.redexes_eq_length ((runWith_steps (R := .ofDepth depth) h).nested_eq_nil hm)

/-! ### Calls -/

namespace Reducer

/-- **One call.** All redexes are counted, and all of them as steps but the one that a call for a
    step fires. -/
theorem Call.covers_serve {call : Call} {r r' : Reducer} {reply : Reply}
    (h : call.serve r = some (reply, r')) :
    ∃ steps, r.stats.Covers r'.stats (call.firings r) steps ∧
      Firing.redexes (call.firings r) = steps + reply.moved.toNat := by
  cases call with
  | set setting =>
    cases h
    exact ⟨0, setting.stats_apply r ▸ .refl _, rfl⟩
  | step depth t =>
    obtain ⟨t', moved, rfl, hstep⟩ := serve_step h
    obtain ⟨s, hs, -, hmoved, rfl⟩ := step_cases hstep
    rcases stepAt_cases hs with ⟨hfired, f, hfiring, hfires⟩ | ⟨-, hfiring, rfl⟩
    · -- The redex of the call is counted as fired, but only those below it as steps.
      have hcovers := hfires.covers (ParamRunner.ofDepth_covers depth)
      refine ⟨Firing.redexes f.nested, ?_, ?_⟩
      · rw [firings, stepFirings, hfiring]
        exact hcovers
      · rw [firings, stepFirings, hfiring, Firing.redexes_cons, ← hmoved, hfired, Nat.add_comm 1]
        rfl
    · refine ⟨0, ?_, ?_⟩
      · rw [firings, stepFirings, hfiring]
        exact .refl _
      · rw [firings, stepFirings, hfiring, ← hmoved]
        rfl
  | normalize depth maxSteps t =>
    obtain ⟨outcome, rfl, hnorm⟩ := serve_normalize h
    obtain ⟨run, hrun, -, rfl⟩ := normalize_runs hnorm
    exact ⟨_, runAt_covers hrun, rfl⟩

/-- The number of calls for a step that made one. -/
def stepsMade (log : List Served) : Nat :=
  log.countP fun s => s.reply.moved

/-- The last call made a step if it says so. -/
theorem stepsMade_concat (log : List Served) (call : Call) (r : Reducer) (reply : Reply) :
    stepsMade (log ++ [⟨call, r, reply⟩]) = stepsMade log + reply.moved.toNat := by
  rw [stepsMade, List.countP_append, List.countP_singleton, ← stepsMade]
  cases reply.moved with
  | false => rfl
  | true => rfl

/-- **All calls.** The counters move by what the calls fire, which are the steps that are counted
    and those that were asked for one by one. -/
theorem covers_serveAll {calls : List Call} {log : List Served} {r₀ r : Reducer}
    (h : serveAll calls r₀ = some (log, r)) :
    ∃ steps, r₀.stats.Covers r.stats (allFirings log) steps ∧
      Firing.redexes (allFirings log) = steps + stepsMade log := by
  refine serveAll_induct (P := fun log r => ∃ steps,
    r₀.stats.Covers r.stats (allFirings log) steps ∧
      Firing.redexes (allFirings log) = steps + stepsMade log) ?start ?serve h
  case start => exact ⟨0, .refl _, rfl⟩
  case serve =>
    rintro log r call reply r' ⟨steps, hcovers, hcount⟩ hserve
    obtain ⟨steps', hcovers', hcount'⟩ := Call.covers_serve hserve
    refine ⟨steps + steps', ?_, ?_⟩
    · rw [allFirings_concat]
      exact hcovers.trans hcovers'
    · rw [allFirings_concat, stepsMade_concat, Firing.redexes_append, hcount, hcount']
      omega

/-- **The counters.** Calls on a new reducer, on arbitrary terms and with arbitrary budgets, leave
    it with as many redexes fired as parameters run, and with as many of both as there are steps and
    calls that made one together.  While these numbers fit into a word, no more parameters are cut
    off than are run, and a reduction raises the counter of steps by its own steps at least, and by
    no more than these where parameters may take none. -/
theorem counters_add_up {calls : List Call} {log : List Served} {r : Reducer}
    (h : serveAll calls {} = some (log, r)) :
    r.stats.fired = .ofNat (Firing.redexes (allFirings log)) ∧
    r.stats.fired = r.stats.parameterRuns ∧
    r.stats.parameterRuns = r.stats.reductions + .ofNat (stepsMade log) ∧
    (Firing.redexes (allFirings log) < UInt64.size →
      r.stats.parametersExhausted ≤ r.stats.parameterRuns) ∧
    ∀ depth maxSteps t outcome r', r.normalize depth maxSteps t = some (outcome, r') →
      ∃ run, runAt depth maxSteps t ⟨r.skipPast t, .off⟩ = some run ∧ outcome = run.outcome ∧
        r' = run.machine.toReducer ∧
        (Firing.redexes (allFirings log ++ r.normalizeFirings depth maxSteps t) < UInt64.size →
          r.stats.reductions.toNat + run.steps ≤ r'.stats.reductions.toNat ∧
          (r.budget = 0 →
            r'.stats.reductions.toNat = r.stats.reductions.toNat + run.steps)) := by
  obtain ⟨steps, hcovers, hcount⟩ := covers_serveAll h
  have hfired : r.stats.fired = .ofNat (Firing.redexes (allFirings log)) :=
    hcovers.fired.trans (UInt64.zero_add _)
  have hruns : r.stats.parameterRuns = .ofNat (Firing.redexes (allFirings log)) :=
    hcovers.parameterRuns.trans (UInt64.zero_add _)
  have hcut : r.stats.parametersExhausted = .ofNat (Firing.cutOffs (allFirings log)) :=
    hcovers.parametersExhausted.trans (UInt64.zero_add _)
  have hsteps : r.stats.reductions = .ofNat steps := hcovers.reductions.trans (UInt64.zero_add _)
  -- The equations hold modulo the size of a word; the inequalities need numbers that fit into one.
  refine ⟨hfired, hfired.trans hruns.symm, ?_, fun hfits => ?_, ?_⟩
  · rw [hruns, hsteps, hcount, UInt64.ofNat_add]
  · have hle := Firing.cutOffs_le_redexes (allFirings log)
    rw [hcut, hruns, UInt64.le_iff_toNat_le, UInt64.toNat_ofNat_of_lt' hfits,
      UInt64.toNat_ofNat_of_lt' (Nat.lt_of_le_of_lt hle hfits)]
    exact hle
  · intro depth maxSteps t outcome r' hnorm
    obtain ⟨run, hrun, houtcome, rfl⟩ := normalize_runs hnorm
    refine ⟨run, hrun, houtcome, rfl, fun hfits => ?_⟩
    have hmore := runAt_covers hrun
    have hown := runAt_length hrun
    have hlength := Firing.length_le_redexes (firingsAt depth maxSteps t ⟨r.skipPast t, .off⟩)
    rw [Firing.redexes_append, hcount, normalizeFirings] at hfits
    have hbefore : r.stats.reductions.toNat = steps := by
      rw [hsteps, UInt64.toNat_ofNat_of_lt' (by omega)]
    have hafter : run.machine.stats.reductions.toNat
        = steps + Firing.redexes (firingsAt depth maxSteps t ⟨r.skipPast t, .off⟩) := by
      rw [hmore.reductions, show (Reducer.skipPast r t).stats.reductions = .ofNat steps from hsteps,
        ← UInt64.ofNat_add, UInt64.toNat_ofNat_of_lt' (by omega)]
    refine ⟨by omega, fun hbudget => ?_⟩
    have hnone := redexes_firingsAt hrun hbudget
    omega

/-- A step on `x(x).(y(y).z(z))` fires a redex below the one that it fires.  A reduction of the same
    term then cuts its parameter off, and counts its own two steps. -/
theorem counters_add_up_nested :
    let t : Term := .abs 0 (.var 0) (.abs 1 (.var 1) (.abs 2 (.var 2) .absent))
    ∃ log r outcome r', serveAll [.step 2 t, .set (.budget 0)] {} = some (log, r) ∧
      Firing.redexes (allFirings log) = 2 ∧ stepsMade log = 1 ∧ r.budget = 0 ∧
      r.normalize 2 5 t = some (outcome, r') ∧
      r.stats.parameterRuns = r.stats.reductions + 1 ∧
      r.stats.parametersExhausted ≤ r.stats.parameterRuns ∧
      r'.stats.parametersExhausted = 1 ∧
      r'.stats.reductions.toNat = r.stats.reductions.toNat + 2 := by
  intro t
  have hall : serveAll [.step 2 t, .set (.budget 0)] {} = some (_, _) := rfl
  obtain ⟨-, -, hruns, hcut, hnorm⟩ := counters_add_up hall
  obtain ⟨run, hrun, -, -, hraised⟩ := hnorm 2 5 t _ _ rfl
  cases hrun
  exact ⟨_, _, _, _, hall, rfl, rfl, rfl, rfl, hruns, hcut (by decide +kernel), rfl,
    (hraised (by decide +kernel)).2 rfl⟩

end Reducer

end DotLambda
