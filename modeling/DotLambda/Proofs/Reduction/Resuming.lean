import DotLambda.Proofs.Reduction.Drawn
import DotLambda.Proofs.Reduction.Nesting
import DotLambda.Proofs.Reduction.Unseen

namespace DotLambda

/-!
# Reduction — one call or many

A reduction does what calls for single steps do, and one that was given up can be taken up again.

* `Reducer.stepUpTo`, `Reducer.stepUpToFirings` — calls for steps, one after the other, and what
  they fire;
* `runWith_add`, `runWith_of_finished`, `runWith_cut` — runs under other budgets;
* `runWith_offset` — without a journal, a run does not look at the number of its first step;
* `Reducer.stepUpTo_of_run`, `Reducer.run_of_stepUpTo` — a run is such a sequence of calls;
* `Reducer.normalize_resumes` — the two ways to go on agree.
-/

/-! ### Calls for steps -/

/-- Calls for steps on one reducer, until none was made or `limit` have been: how many were made,
    the last term, and the reducer after the calls. -/
def Reducer.stepUpTo (depth : Nat) :
    (limit : Nat) → Term → Reducer → Option (Nat × Term × Reducer)
  | 0, t, r => some (0, t, r)
  | limit + 1, t, r =>
    match r.step depth t with
    | none => none
    | some ((t', false), r') => some (0, t', r')
    | some ((t', true), r') =>
      (stepUpTo depth limit t' r').map fun (made, last) => (made + 1, last)

/-- The redexes that these calls fire. -/
def Reducer.stepUpToFirings (depth : Nat) : (limit : Nat) → Term → Reducer → List Firing
  | 0, _, _ => []
  | limit + 1, t, r =>
    match r.step depth t with
    | some ((t', true), r') => r.stepFirings depth t ++ stepUpToFirings depth limit t' r'
    | _ => r.stepFirings depth t

/-! ### Runs under other budgets -/

section

variable {step : Term → Machine → Option (Stepped Term)} {budget steps : Nat} {t : Term}
  {m : Machine} {run : Run}

/-- A run makes no more steps than its budget allows, and all of these if it is not finished. -/
theorem runWith_count (h : runWith step budget steps t m = some run) :
    steps ≤ run.steps ∧ run.steps ≤ steps + budget ∧
      (run.finished = false → run.steps = steps + budget) := by
  refine runWith_induct (P := fun budget steps _ _ => steps ≤ run.steps ∧
    run.steps ≤ steps + budget ∧ (run.finished = false → run.steps = steps + budget))
    ?normal ?spent ?made h
  case normal =>
    rintro budget steps t m - rfl
    exact ⟨Nat.le_refl _, Nat.le_add_right _ _, fun hcut => by cases hcut⟩
  case spent =>
    rintro steps t m - rfl
    exact ⟨Nat.le_refl _, Nat.le_refl _, fun _ => rfl⟩
  case made =>
    rintro budget steps t m s - - - ⟨hlow, hhigh, hall⟩
    exact ⟨by omega, by omega, fun hcut => by have := hall hcut; omega⟩

/-- With a greater budget, a run that was cut off goes on from where it stood. -/
theorem runWith_add (h : runWith step budget steps t m = some run) (hcut : run.finished = false)
    (more : Nat) :
    runWith step (budget + more) steps t m = runWith step more run.steps run.term run.machine := by
  refine runWith_induct (P := fun budget steps t m =>
    runWith step (budget + more) steps t m = runWith step more run.steps run.term run.machine)
    ?normal ?spent ?made h
  case normal =>
    rintro budget steps t m - rfl
    cases hcut
  case spent =>
    rintro steps t m - rfl
    rw [Nat.zero_add]
  case made =>
    intro budget steps t m s hred hs _ ih
    rw [Nat.succ_add, runWith_of_reducible hred, hs, Option.bind_some, ih]

/-- A run that is finished is the same under every budget that allows its steps. -/
theorem runWith_of_finished (h : runWith step budget steps t m = some run)
    (hdone : run.finished = true) {budget' : Nat} (hle : run.steps ≤ steps + budget') :
    runWith step budget' steps t m = some run := by
  refine runWith_induct (P := fun _ steps t m => ∀ budget', run.steps ≤ steps + budget' →
    runWith step budget' steps t m = some run) ?normal ?spent ?made h budget' hle
  case normal =>
    rintro budget steps t m hred rfl budget' -
    exact runWith_of_normal hred
  case spent =>
    rintro steps t m - rfl
    cases hdone
  case made =>
    intro budget steps t m s hred hs hrest ih budget' hle
    -- At least one step is made, so the other budget allows one.
    have hone := (runWith_count hrest).1
    obtain ⟨budget', rfl⟩ : ∃ b, budget' = b + 1 := ⟨budget' - 1, by omega⟩
    rw [runWith_of_reducible hred, hs, Option.bind_some]
    exact ih budget' (by omega)

/-- Under a budget that does not allow its steps, a run is cut off. -/
theorem runWith_cut (h : runWith step budget steps t m = some run) {budget' : Nat}
    (hlt : steps + budget' < run.steps) :
    ∃ run', runWith step budget' steps t m = some run' ∧ run'.finished = false := by
  refine runWith_induct (P := fun _ steps t m => ∀ budget', steps + budget' < run.steps →
    ∃ run', runWith step budget' steps t m = some run' ∧ run'.finished = false)
    ?normal ?spent ?made h budget' hlt
  case normal =>
    rintro budget steps t m - rfl budget' hlt
    exact absurd hlt (by simp)
  case spent =>
    rintro steps t m - rfl budget' hlt
    exact absurd hlt (by simp)
  case made =>
    intro budget steps t m s hred hs _ ih budget' hlt
    cases budget' with
    | zero => exact ⟨_, runWith_spent hred, rfl⟩
    | succ budget' =>
      rw [runWith_of_reducible hred, hs, Option.bind_some]
      exact ih budget' (by omega)

end

/-! ### Without a journal -/

/-- A run starts no journal. -/
def RunQuiet (_ : Term) (m : Machine) (_ : List Firing) (run : Run) : Prop :=
  m.journal = .off → run.machine.journal = .off

/-- A journal that is off stays off. -/
theorem Machine.journal_note {m : Machine} (h : m.journal = .off) (e : Event) :
    (m.note e).journal = .off := by
  show m.journal.record e = .off
  rw [h]
  rfl

section

variable {R : ParamRunner} (hR : R.Satisfies RunQuiet)
include hR

/-- Firing a redex does not turn it on. -/
theorem Fires.quiet {t t' : Term} {m m' : Machine} {f : Firing} (h : Fires R t m f t' m')
    (hm : m.journal = .off) : m'.journal = .off := by
  induction h with
  | @redex id body param t' m run s' _ _ hrun _ =>
    have hoff := hR _ _ _ hrun hm
    show (run.afterParam id).journal = .off
    unfold Run.afterParam
    split
    · exact hoff
    · exact Machine.journal_note hoff _
  | body _ ih => exact ih hm
  | arg _ _ ih => exact ih hm

/-- Nor does firing one after the other. -/
theorem RunSteps.quiet {t t' : Term} {m m' : Machine} {fs : List Firing}
    (h : RunSteps R t m fs t' m') (hm : m.journal = .off) : m'.journal = .off := by
  induction h with
  | refl => exact hm
  | head hfires _ ih => exact ih (Machine.journal_note (hfires.quiet hR hm) _)

end

/-- **Runs.** A run without a journal ends without one. -/
theorem runAt_quiet {depth budget : Nat} {t : Term} {m : Machine} {run : Run}
    (h : runAt depth budget t m = some run) (hm : m.journal = .off) :
    run.machine.journal = .off := by
  refine runAt_induct (P := RunQuiet) ?_ h hm
  intro R budget t m run hparams hrun
  exact (runWith_steps hrun).quiet hparams

/-- Nor does a step. -/
theorem stepAt_quiet {depth : Nat} {t : Term} {m : Machine} {s : Stepped Term}
    (h : stepAt depth t m = some s) (hm : m.journal = .off) : s.machine.journal = .off := by
  rcases stepAt_cases h with ⟨-, f, -, hfires⟩ | ⟨-, -, rfl⟩
  · exact hfires.quiet (fun _ _ _ hp => runAt_quiet hp) hm
  · exact hm

/-- Without a journal, all that a run does beside a step is to count it. -/
theorem Machine.stepped_of_quiet {m : Machine} (h : m.journal = .off) (number : Nat) (t : Term) :
    m.stepped number t = ⟨m.toReducer.addReductions 1, .off⟩ := by
  rw [← Machine.journal_note (m := m.countStep) h (.stepped number t)]
  rfl

section

variable {depth budget steps : Nat} {t : Term} {r : Reducer}

/-- Without a journal, all that a run does beside its steps is to count them. -/
theorem runWith_of_quiet (h : t.reducible = true) :
    runWith (stepAt depth) (budget + 1) steps t ⟨r, .off⟩
      = (stepAt depth t ⟨r, .off⟩).bind fun s => runWith (stepAt depth) budget (steps + 1) s.result
          ⟨s.machine.toReducer.addReductions 1, .off⟩ := by
  rw [runWith_of_reducible h]
  refine Option.bind_congr fun s hs => ?_
  rw [Machine.stepped_of_quiet (stepAt_quiet hs rfl)]

/-- Without a journal, a run does not look at the number of its first step. -/
theorem runWith_offset (k : Nat) :
    runWith (stepAt depth) budget (k + steps) t ⟨r, .off⟩
      = (runWith (stepAt depth) budget steps t ⟨r, .off⟩).map fun run =>
          { run with steps := k + run.steps } := by
  induction budget generalizing steps t r with
  | zero => rfl
  | succ budget ih =>
    cases hred : t.reducible with
    | false =>
      rw [runWith_of_normal hred, runWith_of_normal hred]
      rfl
    | true =>
      rw [runWith_of_quiet hred, runWith_of_quiet hred, Option.map_bind]
      refine Option.bind_congr fun s _ => ?_
      rw [Nat.add_assoc]
      exact ih

end

/-- A divergence with `n` steps before those that it counts. -/
def Divergence.after (n : Nat) (d : Divergence) : Divergence :=
  ⟨n + d.steps, d.term⟩

namespace Reducer

/-! ### Counted steps -/

/-- Adding no steps changes nothing. -/
theorem addReductions_zero (r : Reducer) : r.addReductions 0 = r := by
  unfold addReductions
  rw [UInt64.add_zero]

/-- Steps are added up. -/
theorem addReductions_add (r : Reducer) (j k : UInt64) :
    (r.addReductions j).addReductions k = r.addReductions (j + k) := by
  unfold addReductions
  rw [UInt64.add_assoc]

/-! ### Calls and runs -/

section

variable {depth limit made : Nat} {t t' u : Term} {r r' : Reducer}

/-- A step that is made counts, and the rest of the limit is left. -/
theorem stepUpTo_of_moved (h : r.step depth t = some ((t', true), r')) :
    r.stepUpTo depth (limit + 1) t
      = (r'.stepUpTo depth limit t').map fun p => (p.1 + 1, p.2) := by
  rw [stepUpTo, h]

/-- A step that cannot be made ends the steps. -/
theorem stepUpTo_of_still (h : r.step depth t = some ((t', false), r')) :
    r.stepUpTo depth (limit + 1) t = some (0, t', r') := by
  rw [stepUpTo, h]

/-- The redexes of the first step come before those of the others. -/
theorem stepUpToFirings_of_moved (h : r.step depth t = some ((t', true), r')) :
    r.stepUpToFirings depth (limit + 1) t
      = r.stepFirings depth t ++ r'.stepUpToFirings depth limit t' := by
  rw [stepUpToFirings, h]

/-- Either the first call makes no step, or the others follow it. -/
theorem stepUpTo_cases (h : r.stepUpTo depth (limit + 1) t = some (made, u, r')) :
    (r.step depth t = some ((u, false), r') ∧ made = 0) ∨
      ∃ t₁ r₁ rest, r.step depth t = some ((t₁, true), r₁) ∧
        r₁.stepUpTo depth limit t₁ = some (rest, u, r') ∧ made = rest + 1 := by
  cases hstep : r.step depth t with
  | none =>
    rw [stepUpTo, hstep] at h
    cases h
  | some p =>
    obtain ⟨⟨t₁, moved⟩, r₁⟩ := p
    cases moved with
    | false =>
      rw [stepUpTo_of_still hstep] at h
      cases h
      exact .inl ⟨rfl, rfl⟩
    | true =>
      rw [stepUpTo_of_moved hstep] at h
      obtain ⟨⟨rest, u', r''⟩, hrest, heq⟩ := Option.map_eq_some_iff.mp h
      cases heq
      exact .inr ⟨t₁, r₁, rest, rfl, hrest, rfl⟩

/-- Calls for steps do not see a change that no step sees. -/
theorem stepUpTo_change {f : Reducer → Reducer} (hf : Unseen f)
    (h : r.stepUpTo depth limit t = some (made, u, r')) :
    (f r).stepUpTo depth limit t = some (made, u, f r') := by
  induction limit generalizing t r made with
  | zero =>
    cases h
    rfl
  | succ limit ih =>
    have hchange := step_change hf r depth t
    rcases stepUpTo_cases h with ⟨hstep, rfl⟩ | ⟨t₁, r₁, rest, hstep, hrest, rfl⟩
    · rw [hstep] at hchange
      exact stepUpTo_of_still hchange
    · rw [hstep] at hchange
      rw [stepUpTo_of_moved hchange, ih hrest, Option.map_some]

/-- On a normal form, a call leaves all but the counter as it is. -/
theorem step_of_normal (h : t.reducible = false) (r : Reducer) (depth : Nat) :
    r.step depth t = some ((t, false), r.skipPast t) := by
  rw [step, stepAt, stepWith_of_normal h, Option.map_some]

/-- Where the counter is past the identities of a term, a call makes a step of a run. -/
theorem step_of_fires {m' : Machine} {f : Firing}
    (h : Fires (.ofDepth depth) t ⟨r, .off⟩ f t' m') (hskip : r.skipPast t = r) :
    r.step depth t = some ((t', true), m'.toReducer) ∧ r.stepFirings depth t = [f] := by
  constructor
  · rw [step, hskip, stepAt_eq, h.stepWith_eq, Option.map_some]
  · rw [stepFirings, hskip, firingAt, h.firingWith_eq, Option.toList_some]

/-- A step leaves a term below the counter below it. -/
theorem drawn_of_fires {m' : Machine} {f : Firing}
    (h : Fires (.ofDepth depth) t ⟨r, .off⟩ f t' m') (ht : t.DrawnFrom r.Known)
    (hu : r.Unwrapped f.models) : t'.DrawnFrom m'.toReducer.Known := by
  have hadv : r.Advances f.models m'.toReducer := h.advances (ParamRunner.ofDepth_advances depth)
  refine h.drawn (fun _ _ _ hp => runAt_drawn hp) (fun i hi => ?_) (ht.mono fun i hi => ?_)
  · exact Known.of_advances hu hadv (.inr hi)
  · exact Known.of_advances hu hadv (.inl hi)

/-- Where the counter does not come around, it is in range. -/
theorem Unwrapped.next_lt {models : List Ident} (hu : r.Unwrapped models) : r.next < 2 ^ 63 := by
  have := hu.2
  lia

/-- **Runs are calls.** A run that starts behind the identities of its term does what calls for
    steps do, and counts them. -/
theorem stepUpTo_of_run {steps : Nat} {run : Run}
    (h : runWith (stepAt depth) limit steps t ⟨r, .off⟩ = some run) (ht : t.DrawnFrom r.Known)
    (hu : r.Unwrapped (Firing.modelsAll (firingsWith (.ofDepth depth) limit steps t ⟨r, .off⟩))) :
    ∃ made r', run.steps = steps + made ∧ r.stepUpTo depth limit t = some (made, run.term, r') ∧
      run.machine.toReducer = r'.addReductions (.ofNat made) := by
  induction limit generalizing steps t r with
  | zero =>
    cases h
    exact ⟨0, r, rfl, rfl, (addReductions_zero r).symm⟩
  | succ limit ih =>
    have hskip := skipPast_of_drawn ht hu.next_lt
    cases hred : t.reducible with
    | false =>
      rw [runWith_of_normal hred, Option.some.injEq] at h
      subst h
      refine ⟨0, r, rfl, ?_, (addReductions_zero r).symm⟩
      rw [stepUpTo_of_still (step_of_normal hred r depth), hskip]
    | true =>
      rw [runWith_of_quiet hred] at h
      obtain ⟨s, hs, hrest⟩ := Option.bind_eq_some_iff.mp h
      obtain ⟨-, f, hfires⟩ := stepWith_moves (R := .ofDepth depth) hs hred
      have hadv := hfires.advances (ParamRunner.ofDepth_advances depth)
      rw [firingsWith_of_step hfires.firingWith_eq hs, Firing.modelsAll,
        Machine.stepped_of_quiet (stepAt_quiet hs rfl)] at hu
      obtain ⟨made, r', hsteps, hcalls, hmachine⟩ :=
        ih hrest (drawn_of_fires hfires ht hu.left) (hu.right (hadv.tail (.of_eq rfl rfl rfl)))
      -- The run has counted the step, and the call has not.
      have hcalls := stepUpTo_change (unseen_addReductions (-1)) hcalls
      rw [addReductions_add, UInt64.add_right_neg, addReductions_zero] at hcalls
      refine ⟨made + 1, r'.addReductions (-1), by omega, ?_, ?_⟩
      · rw [stepUpTo_of_moved (step_of_fires hfires hskip).1, hcalls, Option.map_some]
      · have hone : -1 + UInt64.ofNat (made + 1) = UInt64.ofNat made := by
          rw [UInt64.ofNat_add, UInt64.add_comm, UInt64.add_assoc]
          exact UInt64.add_zero _
        rw [hmachine, addReductions_add, hone]

/-- **Calls are runs.** Where calls for steps return, so does the run. -/
theorem run_of_stepUpTo (h : r.stepUpTo depth limit t = some (made, u, r'))
    (ht : t.DrawnFrom r.Known)
    (hu : r.Unwrapped (Firing.modelsAll (r.stepUpToFirings depth limit t))) (steps : Nat) :
    ∃ run, runWith (stepAt depth) limit steps t ⟨r, .off⟩ = some run := by
  induction limit generalizing steps t r made with
  | zero => exact ⟨_, rfl⟩
  | succ limit ih =>
    have hskip := skipPast_of_drawn ht hu.next_lt
    rcases stepUpTo_cases h with ⟨hstep, -⟩ | ⟨t₁, r₁, rest, hstep, hrest, -⟩
    · exact ⟨_, runWith_of_normal (step_still hstep).2⟩
    · obtain ⟨s, hs, rfl, hmoved, rfl⟩ := step_cases hstep
      rw [hskip] at hs
      obtain ⟨-, f, -, hfires⟩ : s.moved = true ∧ ∃ f, (firingAt depth t ⟨r, .off⟩).toList = [f] ∧
          Fires (.ofDepth depth) t ⟨r, .off⟩ f s.result s.machine :=
        (stepAt_cases hs).resolve_right fun hstill => by simp [hstill.2.2] at hmoved
      have hadv := hfires.advances (ParamRunner.ofDepth_advances depth)
      rw [stepUpToFirings_of_moved hstep, (step_of_fires hfires hskip).2, List.singleton_append,
        Firing.modelsAll] at hu
      obtain ⟨run, hrun⟩ :=
        ih hrest (drawn_of_fires hfires ht hu.left) (hu.right hadv) (steps + 1)
      -- The run counts the step that the call has made.
      refine ⟨run.change (addReductions · 1), ?_⟩
      have hf := unseen_addReductions 1
      have hchange := runWith_change hf (ParamRunner.ofDepth_overlooks hf depth) limit (steps + 1)
        s.result ⟨s.machine.toReducer, .off⟩
      rw [runWith_of_quiet hfires.reducible, hs, Option.bind_some]
      rw [← stepAt_eq, hrun] at hchange
      exact hchange

end

/-! ### Reductions -/

section

variable {depth n : Nat} {t u : Term} {r r' : Reducer} {outcome : Except Divergence Term}
  {fs : List Firing}

/-- A reduction is a run that starts past the identities of the term. -/
theorem normalize_eq (r : Reducer) (depth n : Nat) (t : Term) :
    r.normalize (depth + 1) n t
      = (runWith (stepAt depth) n 0 t ⟨r.skipPast t, .off⟩).map fun run =>
          (run.outcome, run.machine.toReducer) :=
  normalize_eq_runAt r (depth + 1) n t

/-- The run of a reduction that returned. -/
theorem run_of_normalize (h : r.normalize (depth + 1) n t = some (outcome, r')) :
    ∃ run, runWith (stepAt depth) n 0 t ⟨r.skipPast t, .off⟩ = some run ∧
      outcome = run.outcome ∧ r' = run.machine.toReducer := by
  rw [normalize_eq] at h
  obtain ⟨run, hrun, heq⟩ := Option.map_eq_some_iff.mp h
  cases heq
  exact ⟨run, hrun, rfl, rfl⟩

/-- The outcome of a run that was allowed `n` steps. -/
theorem outcome_eq {step : Term → Machine → Option (Stepped Term)} {m : Machine} {run : Run}
    (h : runWith step n 0 t m = some run) :
    run.outcome = if run.term.reducible then .error ⟨n, run.term⟩ else .ok run.term := by
  have hfinished := runWith_finished h
  have hcount := (runWith_count h).2.2
  unfold Run.outcome
  cases hred : run.term.reducible with
  | false =>
    rw [hred, Bool.not_false] at hfinished
    rw [hfinished]
    rfl
  | true =>
    rw [hred, Bool.not_true] at hfinished
    rw [hfinished, hcount hfinished, Nat.zero_add]
    rfl

/-- Behind the identities of a term, all of them are known. -/
theorem CountsOn.drawn (h : r.CountsOn t fs) (hwords : ∀ i ∈ t.idents, -2 ^ 63 ≤ i) :
    t.DrawnFrom (r.skipPast t).Known := by
  refine (Term.drawnFrom_le_greatest (by decide) hwords (le_refl _)).mono fun i hi => ⟨hi.1, ?_⟩
  calc i ≤ t.greatest := hi.2
    _ < Ident.next t.greatest := Ident.lt_next h.skipped
    _ ≤ (r.skipPast t).next := le_max_right _ _

/-- Identities are skipped once. -/
theorem skipPast_skipPast (r : Reducer) (t : Term) : (r.skipPast t).skipPast t = r.skipPast t := by
  unfold skipPast
  rw [max_assoc, max_self]

/-- Every call moves the counter past the identities of the term by itself. -/
theorem stepUpTo_skipPast (r : Reducer) (depth limit : Nat) (t : Term) :
    (r.skipPast t).stepUpTo depth (limit + 1) t = r.stepUpTo depth (limit + 1) t := by
  rw [stepUpTo, stepUpTo, step, skipPast_skipPast, ← step]

/-- So that skipping them beforehand does not change what is fired. -/
theorem stepUpToFirings_skipPast (r : Reducer) (depth limit : Nat) (t : Term) :
    (r.skipPast t).stepUpToFirings depth (limit + 1) t
      = r.stepUpToFirings depth (limit + 1) t := by
  rw [stepUpToFirings, stepUpToFirings, step, stepFirings, skipPast_skipPast, ← step, ← stepFirings]

/-- A reduction reaches what calls for steps reach.  Only where no step is allowed it does more:
    there is no call, but the counter is moved all the same. -/
theorem stepUpTo_of_reduction {run : Run}
    (h : runWith (stepAt depth) n 0 t ⟨r.skipPast t, .off⟩ = some run)
    (hc : r.CountsOn t (r.normalizeFirings (depth + 1) n t))
    (hwords : ∀ i ∈ t.idents, -2 ^ 63 ≤ i) :
    ∃ r'', r.stepUpTo depth n t = some (run.steps, run.term, r'') ∧
      run.machine.toReducer
        = if n = 0 then r.skipPast t else r''.addReductions (.ofNat run.steps) := by
  cases n with
  | zero =>
    cases h
    exact ⟨r, rfl, rfl⟩
  | succ n =>
    obtain ⟨made, r'', hsteps, hcalls, hmachine⟩ :=
      stepUpTo_of_run h (hc.drawn hwords) hc.unwrapped
    rw [Nat.zero_add] at hsteps
    rw [stepUpTo_skipPast] at hcalls
    subst hsteps
    exact ⟨r'', hcalls, hmachine⟩

/-- Where calls for steps return, so does the reduction. -/
theorem normalize_of_stepUpTo {made : Nat} (h : r.stepUpTo depth n t = some (made, u, r'))
    (hc : r.CountsOn t (r.stepUpToFirings depth n t)) (hwords : ∀ i ∈ t.idents, -2 ^ 63 ≤ i) :
    ∃ out, r.normalize (depth + 1) n t = some out := by
  cases n with
  | zero => exact ⟨_, by rw [normalize_eq]; rfl⟩
  | succ n =>
    have hu := hc.unwrapped
    rw [← stepUpTo_skipPast] at h
    rw [← stepUpToFirings_skipPast] at hu
    obtain ⟨run, hrun⟩ := run_of_stepUpTo h (hc.drawn hwords) hu 0
    exact ⟨_, by rw [normalize_eq, hrun, Option.map_some]⟩

/-- A run that diverged was not finished, and says how far it came. -/
theorem outcome_eq_error {run : Run} {d : Divergence} (h : run.outcome = .error d) :
    run.finished = false ∧ d = ⟨run.steps, run.term⟩ := by
  unfold Run.outcome at h
  split at h
  · cases h
  · rename_i hcut
    cases h
    exact ⟨Bool.eq_false_of_not_eq_true hcut, rfl⟩

/-- The term that a reduction ends with is below the counter, so that another reduction takes it up
    with the reducer as it is. -/
theorem skipPast_run {run : Run}
    (h : runWith (stepAt depth) n 0 t ⟨r.skipPast t, .off⟩ = some run)
    (hc : r.CountsOn t (r.normalizeFirings (depth + 1) n t))
    (hwords : ∀ i ∈ t.idents, -2 ^ 63 ≤ i) :
    run.machine.toReducer.skipPast run.term = run.machine.toReducer := by
  have hrun : runAt (depth + 1) n t ⟨r.skipPast t, .off⟩ = some run := h
  obtain ⟨hadv, hdrawn⟩ := runAt_drawn hrun
  have hu := hc.unwrapped
  refine skipPast_of_drawn (hdrawn _ (fun i hi => ?_) ((hc.drawn hwords).mono fun i hi => ?_)) ?_
  · exact Known.of_advances hu hadv (.inr hi)
  · exact Known.of_advances hu hadv (.inl hi)
  · rw [hu.next_eq hadv]
    exact hu.2

/-- A reduction that was given up goes on from where it stood. -/
theorem normalize_add {d : Divergence} (h : r.normalize (depth + 1) n t = some (.error d, r'))
    (hc : r.CountsOn t (r.normalizeFirings (depth + 1) n t))
    (hwords : ∀ i ∈ t.idents, -2 ^ 63 ≤ i) (more : Nat) :
    r.normalize (depth + 1) (n + more) t
      = (r'.normalize (depth + 1) more d.term).map fun p => (p.1.mapError (.after n), p.2) := by
  obtain ⟨run, hrun, houtcome, rfl⟩ := run_of_normalize h
  obtain ⟨hcut, rfl⟩ := outcome_eq_error houtcome.symm
  have hoff : run.machine.journal = .off :=
    runAt_quiet (show runAt (depth + 1) n t _ = some run from hrun) rfl
  have hquiet : run.machine = ⟨run.machine.toReducer, .off⟩ := by rw [← hoff]
  have hsteps := (runWith_count hrun).2.2 hcut
  rw [Nat.zero_add] at hsteps
  rw [normalize_eq, normalize_eq, skipPast_run hrun hc hwords, runWith_add hrun hcut, hquiet,
    hsteps, ← Nat.add_zero n, runWith_offset, Option.map_map, Option.map_map]
  refine Option.map_congr fun rest _ => ?_
  show (Run.outcome { rest with steps := n + rest.steps }, _) = (rest.outcome.mapError _, _)
  unfold Run.outcome
  split
  · rfl
  · rfl

/-- A reduction that succeeds does so in the same way under every budget that allows its steps, and
    is given up under every other. -/
theorem normalize_budgets {run : Run}
    (hrun : runWith (stepAt depth) n 0 t ⟨r.skipPast t, .off⟩ = some run)
    (hnormal : run.term.reducible = false) :
    (∀ n', run.steps ≤ n' →
        r.normalize (depth + 1) n' t = some (run.outcome, run.machine.toReducer)) ∧
      ∀ n' < run.steps, ∃ last r'',
        r.normalize (depth + 1) n' t = some (.error ⟨n', last⟩, r'') := by
  have hdone : run.finished = true := by rw [runWith_finished hrun, hnormal, Bool.not_false]
  constructor
  · intro n' hle
    rw [normalize_eq, runWith_of_finished hrun hdone (by omega), Option.map_some]
  · intro n' hlt
    obtain ⟨cut, hcut, hunfinished⟩ := runWith_cut hrun (by omega : 0 + n' < run.steps)
    have hreducible : cut.term.reducible = true := by
      have hfinished := runWith_finished hcut
      rwa [hunfinished, Bool.false_eq, Bool.not_eq_false'] at hfinished
    refine ⟨cut.term, cut.machine.toReducer, ?_⟩
    rw [normalize_eq, hcut, Option.map_some, outcome_eq hcut, if_pos hreducible]

end

/-- **One call or many.** A reduction in `n` steps at most reaches the term that calls for steps
    reach, and leaves the reducer as they do but for the steps, which it counts; where no step is
    allowed, it moves the counter past the identities of the term as a call would.  It succeeds
    where no step applies to that term, and then does the same under every budget that allows the
    steps made and is given up under every other.  A reduction that was given up and is taken up
    again ends as one reduction does that is allowed the steps of both. -/
theorem normalize_resumes {t : Term} (hwords : ∀ i ∈ t.idents, -2 ^ 63 ≤ i) (r : Reducer)
    (depth : Nat) :
    (∀ n outcome r', r.normalize (depth + 1) n t = some (outcome, r') →
      r.CountsOn t (r.normalizeFirings (depth + 1) n t) →
      ∃ made u r'', r.stepUpTo depth n t = some (made, u, r'') ∧
        outcome = (if u.reducible then .error ⟨n, u⟩ else .ok u) ∧
        r' = (if n = 0 then r.skipPast t else r''.addReductions (.ofNat made)) ∧
        (u.reducible = false →
          (∀ n', made ≤ n' → r.normalize (depth + 1) n' t = some (outcome, r')) ∧
            ∀ n' < made, ∃ last r₁,
              r.normalize (depth + 1) n' t = some (.error ⟨n', last⟩, r₁))) ∧
    (∀ n made u r', r.stepUpTo depth n t = some (made, u, r') →
      r.CountsOn t (r.stepUpToFirings depth n t) →
      ∃ out, r.normalize (depth + 1) n t = some out) ∧
    ∀ m d r', r.normalize (depth + 1) m t = some (.error d, r') →
      r.CountsOn t (r.normalizeFirings (depth + 1) m t) →
      ∀ n, r.normalize (depth + 1) (m + n) t
        = (r'.normalize (depth + 1) n d.term).map fun p => (p.1.mapError (.after m), p.2) := by
  -- From a reduction to steps, from steps to a reduction, and from one reduction to the next.
  refine ⟨?_, ?_, ?_⟩
  · intro n outcome r' h hc
    obtain ⟨run, hrun, rfl, rfl⟩ := run_of_normalize h
    obtain ⟨r'', hcalls, hreducer⟩ := stepUpTo_of_reduction hrun hc hwords
    exact ⟨run.steps, run.term, r'', hcalls, outcome_eq hrun, hreducer, normalize_budgets hrun⟩
  · intro n made u r' h hc
    exact normalize_of_stepUpTo h hc hwords
  · intro m d r' h hc n
    exact normalize_add h hc hwords n

/-- `x(x.x).y(z(y.z))` takes three steps.  Given up after the first and taken up again, its
    reduction leads to the same normal form, which needs a copy, and to the same state. -/
theorem normalize_resumes_copied :
    let t : Term := .abs 0 (.app 0 [.var 0]) (.abs 1 (.abs 2 (.app 1 [.var 2]) .absent) .absent)
    (∀ i ∈ t.idents, -2 ^ 63 ≤ i) ∧
      ∃ d r', normalize 3 1 t {} = some (.error d, r') ∧
        CountsOn {} t (normalizeFirings 3 1 t {}) ∧
        normalize 3 3 t {}
          = (r'.normalize 3 2 d.term).map fun p => (p.1.mapError (.after 1), p.2) := by
  intro t
  have hwords : ∀ i ∈ t.idents, -2 ^ 63 ≤ i := by decide
  have hc : CountsOn {} t (normalizeFirings 3 1 t {}) := ⟨by decide, by decide +kernel⟩
  refine ⟨hwords, _, _, rfl, hc, ?_⟩
  exact (normalize_resumes hwords {} 2).2.2 1 _ _ rfl hc 2

/-- Where no step is allowed, a reduction still moves the counter, and no calls do not. -/
theorem normalize_moves_counter :
    let t : Term := .abs 5 (.var 5) (.var 7)
    (normalize 1 0 t {}).map (·.2.next) = some 8 ∧
      (stepUpTo 0 0 t {}).map (·.2.2.next) = some 0 := by
  decide

end Reducer

end DotLambda
