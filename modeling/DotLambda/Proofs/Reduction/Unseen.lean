import DotLambda.Proofs.Reduction.Contexts
import DotLambda.Proofs.Reduction.Soundness

namespace DotLambda

/-!
# Reduction — what a reducer does not look at

A reducer writes counters and a trace that it never reads.  A change to such a part may be made
before a step or a run as well as after it.

* `Reducer.Unseen` — a change that no operation of a reducer sees;
* `Term.copies_unseen`, `Term.substitutes_unseen` — copies and substitutions do not see it;
* `ParamRunner.Overlooks` — parameters are reduced in the same way with the change;
* `stepAt_change`, `runAt_change` — so steps and runs return with it exactly where they do without;
* `firingAt_change`, `firingsAt_change` — and fire the same redexes;
* `Reducer.step_change`, `Reducer.normalize_change` — the same for calls;
* `Reducer.addReductions`, `Reducer.unseen_addReductions` — the number of steps is such a part.
-/

/-- A change of reducers that none of their operations sees: each does after the change what it
    does before it. -/
structure Reducer.Unseen (f : Reducer → Reducer) : Prop where
  budget (r : Reducer) : (f r).budget = r.budget
  adoptNames (r : Reducer) (names : Names) : (f r).adoptNames names = f (r.adoptNames names)
  withBudget (r : Reducer) (steps : Int) : (f r).withBudget steps = f (r.withBudget steps)
  skipPast (r : Reducer) (t : Term) : (f r).skipPast t = f (r.skipPast t)
  allot (r : Reducer) (model : Ident) :
    (f r).allot model = ((r.allot model).1, f (r.allot model).2)
  count (r : Reducer) (rule : Rule) (binder : Ident) :
    (f r).count rule binder = f (r.count rule binder)
  countStep (r : Reducer) :
    { f r with stats := (f r).stats.countStep } = f { r with stats := r.stats.countStep }
  countParameterRun (r : Reducer) :
    { f r with stats := (f r).stats.countParameterRun }
      = f { r with stats := r.stats.countParameterRun }

variable {f : Reducer → Reducer}

/-! ### Copies -/

/-- A change of the reducer while a term is copied. -/
def Copying.change (f : Reducer → Reducer) (c : Copying) : Copying :=
  ⟨c.renamed, f c.reducer⟩

theorem Copying.renew_change (hf : Reducer.Unseen f) {c c' : Copying} {id new : Ident}
    (h : c.renew id = (new, c')) : (c.change f).renew id = (new, c'.change f) := by
  have hnew := Copying.new_eq_of_renew h
  have hreducer := Copying.reducer_eq_of_renew h
  have hmap : c'.renamed = c.renamed.insert id new := by
    rw [hnew]
    exact (congrArg (fun p => p.2.renamed) h).symm
  have hallot := hf.allot c.reducer id
  show (((f c.reducer).allot id).1,
    (⟨c.renamed.insert id ((f c.reducer).allot id).1, ((f c.reducer).allot id).2⟩ : Copying)) = _
  rw [hallot, Copying.change, hmap, hreducer, hnew]
  rfl

namespace Term

/-- Copies do not depend on what is not seen. -/
theorem copies_unseen (hf : Reducer.Unseen f) :
    (∀ {t c t' c'}, Term.copy t c = (t', c') → t.copy (c.change f) = (t', c'.change f)) ∧
      ∀ {args c args' c'}, copyEach args c = (args', c') →
        copyEach args (c.change f) = (args', c'.change f) := by
  apply copy_induct (P := fun t c t' c' => t.copy (c.change f) = (t', c'.change f))
    (Q := fun args c args' c' => copyEach args (c.change f) = (args', c'.change f))
  case absent => exact fun c => rfl
  case var => exact fun id c => rfl
  case abs =>
    intro id new body param body' param' c c₁ c₂ c₃ _ hn _ hparam hbody
    simp only [copy, hparam, Copying.renew_change hf hn, hbody]
  case app =>
    intro id args args' c c' hargs
    simp only [copy, hargs]
    rfl
  case nil => exact fun c => rfl
  case cons =>
    intro arg arg' args args' c c₁ c₂ _ _ harg hargs
    simp only [copyEach, harg, hargs]

end Term

/-- Nor do duplicates. -/
theorem Reducer.duplicate_unseen (hf : Reducer.Unseen f) {r r' : Reducer} {t t' : Term}
    (h : r.duplicate t = (t', r')) : (f r).duplicate t = (t', f r') := by
  obtain ⟨c', hc, rfl⟩ := copy_of_duplicate h
  have hcopy := (Term.copies_unseen hf).1 hc
  have hchange : Copying.change f { reducer := r } = { reducer := f r } := rfl
  rw [hchange] at hcopy
  simp only [duplicate, hcopy]
  rfl

/-! ### Substitution -/

/-- A change of the reducer while a value is put in. -/
def Splice.change (f : Reducer → Reducer) (s : Splice) : Splice :=
  ⟨s.value, s.used, f s.reducer⟩

theorem Splice.take_change (hf : Reducer.Unseen f) {s s' : Splice} {rule : Rule} {binder : Ident}
    {w : Term} (h : (s.count rule binder).take = (w, s')) :
    ((s.change f).count rule binder).take = (w, s'.change f) := by
  have hcount : (s.change f).count rule binder
      = ⟨s.value, s.used, f (s.reducer.count rule binder)⟩ := by
    rw [← hf.count]
    rfl
  rw [hcount]
  rcases take_cases h with ⟨hused, rfl, rfl⟩ | ⟨hused, r', hdup, rfl⟩
  · rw [hused]
    rfl
  · rw [hused]
    simp only [take, Reducer.duplicate_unseen hf hdup]
    rfl

namespace Term

/-- Nor does substitution. -/
theorem substitutes_unseen (hf : Reducer.Unseen f) (id : Ident) :
    (∀ {t s t' s'}, substitute id t s = (t', s') →
      t.substitute id (s.change f) = (t', s'.change f)) ∧
      ∀ {args s args' s'}, substituteEach id args s = (args', s') →
        substituteEach id args (s.change f) = (args', s'.change f) := by
  apply substitute_induct
    (P := fun t s _ t' s' => t.substitute id (s.change f) = (t', s'.change f))
    (Q := fun args s _ args' s' => substituteEach id args (s.change f) = (args', s'.change f))
  case absent => exact fun s => rfl
  case site =>
    intro s s' w htake
    rw [substitute, if_pos rfl, Splice.take_change hf htake]
  case other =>
    intro i s hi
    rw [substitute, if_neg hi]
  case rebound =>
    intro body param param' s s' hparam
    simp only [substitute, hparam, if_true]
  case abs =>
    intro i body param body' param' s s₁ s₂ hi _ _ hparam hbody
    simp only [substitute, hparam, if_neg hi, hbody]
  case head =>
    intro args args' w s s₁ s₂ htake _ hargs
    simp only [substitute, if_true, Splice.take_change hf htake, hargs]
  case app =>
    intro i args args' s s' hi hargs
    simp only [substitute, if_neg hi, hargs]
  case nil => exact fun s => rfl
  case cons =>
    intro arg arg' args args' s s₁ s₂ _ _ harg hargs
    simp only [substituteEach, harg, hargs]

end Term

/-! ### Steps and runs -/

/-- A change of the reducer of a machine. -/
def Machine.change (f : Reducer → Reducer) (m : Machine) : Machine :=
  ⟨f m.toReducer, m.journal⟩

/-- A change of the reducer after a run. -/
def Run.change (f : Reducer → Reducer) (run : Run) : Run :=
  { run with machine := run.machine.change f }

theorem Machine.beforeParam_change (hf : Reducer.Unseen f) (m : Machine) (id : Ident) :
    (m.change f).beforeParam id = (m.beforeParam id).change f := by
  show (⟨_, _⟩ : Machine) = ⟨f _, _⟩
  rw [show (m.beforeParam id).toReducer
      = { m.toReducer.count .beta id with
          stats := (m.toReducer.count .beta id).stats.countParameterRun } from rfl,
    ← hf.countParameterRun, ← hf.count]
  rfl

theorem Run.afterParam_change (hf : Reducer.Unseen f) (run : Run) (id : Ident) :
    (run.change f).afterParam id = (run.afterParam id).change f := by
  unfold afterParam
  show (if run.finished then _ else _) = _
  split
  · rfl
  · show (⟨(f run.machine.toReducer).count .parameterExhausted id, _⟩ : Machine) = _
    rw [hf.count]
    rfl

theorem Machine.stepped_change (hf : Reducer.Unseen f) (m : Machine) (number : Nat) (t : Term) :
    (m.change f).stepped number t = (m.stepped number t).change f := by
  show (⟨{ f m.toReducer with stats := (f m.toReducer).stats.countStep }, _⟩ : Machine) = _
  rw [hf.countStep]
  rfl

/-- A change of the machine after a step. -/
def Stepped.change {α : Type} (f : Reducer → Reducer) (s : Stepped α) : Stepped α :=
  { s with machine := s.machine.change f }

/-- Parameters are reduced in the same way with the change, and that fires the same redexes. -/
structure ParamRunner.Overlooks (R : ParamRunner) (f : Reducer → Reducer) : Prop where
  run (p : Term) (m : Machine) : R.run p (m.change f) = (R.run p m).map (Run.change f)
  firings (p : Term) (m : Machine) : R.firings p (m.change f) = R.firings p m

section

variable (hf : Reducer.Unseen f)
include hf

section

variable {R : ParamRunner} (hR : R.Overlooks f)
include hR

/-- Firing a redex does not see the change. -/
theorem betaWith_change (id : Ident) (body param : Term) (m : Machine) :
    betaWith R.run id body param (m.change f)
      = (betaWith R.run id body param m).map fun p => (p.1, p.2.change f) := by
  rw [betaWith_eq, betaWith_eq, Machine.beforeParam_change hf, hR.run, Option.map_map,
    Option.map_map]
  refine Option.map_congr fun run _ => ?_
  rcases hsub : body.substitute id
    { value := run.term, reducer := (run.afterParam id).toReducer } with ⟨t', s'⟩
  have hchanged := (Term.substitutes_unseen hf id).1 hsub
  show (fun p : Term × Splice => (p.1, (⟨p.2.reducer, ((run.change f).afterParam id).journal⟩ :
    Machine))) (body.substitute id ⟨run.term, false, ((run.change f).afterParam id).toReducer⟩) = _
  rw [Run.afterParam_change hf]
  show (fun p : Term × Splice => (p.1, (⟨p.2.reducer, (run.afterParam id).journal⟩ : Machine)))
    (body.substitute id (Splice.change f ⟨run.term, false, (run.afterParam id).toReducer⟩)) = _
  rw [hchanged]
  simp only [Function.comp_apply, hsub]
  rfl

/-- **Steps.** Where parameters are reduced in the same way, the change may be made before a step as
    well as after it. -/
theorem stepWith_change (t : Term) (m : Machine) :
    stepWith R.run t (m.change f) = (stepWith R.run t m).map (Stepped.change f) := by
  cases hred : t.reducible with
  | false =>
    rw [stepWith_of_normal hred, stepWith_of_normal hred]
    rfl
  | true =>
    obtain ⟨c, x, hselects⟩ := Term.exists_selects hred
    rw [stepWith_of_selects hselects, stepWith_of_selects hselects, betaWith_change hf hR,
      Option.map_map, Option.map_map]
    rfl

/-- Nor does what a step fires. -/
theorem firingWith_change (t : Term) (m : Machine) :
    firingWith R t (m.change f) = firingWith R t m := by
  unfold firingWith
  refine Option.bind_congr fun x _ => ?_
  rw [Machine.beforeParam_change hf, hR.run, hR.firings, Option.map_map]
  rfl

/-- Nor does a run. -/
theorem runWith_change (budget steps : Nat) (t : Term) (m : Machine) :
    runWith (stepWith R.run) budget steps t (m.change f)
      = (runWith (stepWith R.run) budget steps t m).map (Run.change f) := by
  induction budget generalizing steps t m with
  | zero => rfl
  | succ budget ih =>
    cases hred : t.reducible with
    | false =>
      rw [runWith_of_normal hred, runWith_of_normal hred]
      rfl
    | true =>
      rw [runWith_of_reducible hred, runWith_of_reducible hred, stepWith_change hf hR,
        Option.bind_map, Option.map_bind]
      refine Option.bind_congr fun s _ => ?_
      show runWith _ budget (steps + 1) s.result
        ((s.machine.change f).stepped (steps + 1) s.result) = _
      rw [Machine.stepped_change hf, ih]
      rfl

/-- Nor does what it fires. -/
theorem firingsWith_change (budget steps : Nat) (t : Term) (m : Machine) :
    firingsWith R budget steps t (m.change f) = firingsWith R budget steps t m := by
  induction budget generalizing steps t m with
  | zero => rfl
  | succ budget ih =>
    rw [firingsWith, firingsWith, firingWith_change hf hR, stepWith_change hf hR]
    cases firingWith R t m with
    | none => rfl
    | some g =>
      cases stepWith R.run t m with
      | none => rfl
      | some s =>
        show g :: firingsWith R budget (steps + 1) s.result
          ((s.machine.change f).stepped (steps + 1) s.result) = _
        rw [Machine.stepped_change hf, ih]

end

/-- **Runs.** The change is not seen at any depth. -/
theorem ParamRunner.ofDepth_overlooks (depth : Nat) : (ofDepth depth).Overlooks f := by
  induction depth with
  | zero => exact ⟨fun _ _ => rfl, fun _ _ => rfl⟩
  | succ depth ih =>
    refine ⟨fun p m => ?_, fun p m => ?_⟩
    · show runWith (stepWith (ofDepth depth).run) (f m.toReducer).budget 0 p (m.change f) = _
      rw [hf.budget, runWith_change hf ih]
      rfl
    · show firingsWith (ofDepth depth) (f m.toReducer).budget 0 p (m.change f) = _
      rw [hf.budget, firingsWith_change hf ih]
      rfl

theorem stepAt_change (depth : Nat) (t : Term) (m : Machine) :
    stepAt depth t (m.change f) = (stepAt depth t m).map (Stepped.change f) :=
  stepWith_change hf (ParamRunner.ofDepth_overlooks hf depth) t m

theorem firingAt_change (depth : Nat) (t : Term) (m : Machine) :
    firingAt depth t (m.change f) = firingAt depth t m :=
  firingWith_change hf (ParamRunner.ofDepth_overlooks hf depth) t m

theorem runAt_change (depth budget : Nat) (t : Term) (m : Machine) :
    runAt depth budget t (m.change f) = (runAt depth budget t m).map (Run.change f) := by
  cases depth with
  | zero => rfl
  | succ depth => exact runWith_change hf (ParamRunner.ofDepth_overlooks hf depth) budget 0 t m

theorem firingsAt_change (depth budget : Nat) (t : Term) (m : Machine) :
    firingsAt depth budget t (m.change f) = firingsAt depth budget t m := by
  cases depth with
  | zero => rfl
  | succ depth => exact firingsWith_change hf (ParamRunner.ofDepth_overlooks hf depth) budget 0 t m

end

namespace Reducer

/-! ### Calls -/

section

variable (hf : Unseen f) (r : Reducer) (depth maxSteps : Nat) (t : Term)
include hf

/-- A call for a step makes the same one on a reducer that is changed where it does not look. -/
theorem step_change : (f r).step depth t = (r.step depth t).map fun p => (p.1, f p.2) := by
  have hstep := stepAt_change hf depth t ⟨r.skipPast t, .off⟩
  rw [Machine.change, ← hf.skipPast] at hstep
  rw [step, step, hstep, Option.map_map, Option.map_map]
  rfl

/-- It fires the same redex. -/
theorem stepFirings_change : (f r).stepFirings depth t = r.stepFirings depth t := by
  have hfiring := firingAt_change hf depth t ⟨r.skipPast t, .off⟩
  rw [Machine.change, ← hf.skipPast] at hfiring
  rw [stepFirings, stepFirings, hfiring]

/-- A call for a reduction makes the same one. -/
theorem normalize_change :
    (f r).normalize depth maxSteps t
      = (r.normalize depth maxSteps t).map fun p => (p.1, f p.2) := by
  have hrun := runAt_change hf depth maxSteps t ⟨r.skipPast t, .off⟩
  rw [Machine.change, ← hf.skipPast] at hrun
  rw [normalize_eq_runAt, normalize_eq_runAt, hrun, Option.map_map, Option.map_map]
  rfl

/-- It fires the same redexes. -/
theorem normalizeFirings_change :
    (f r).normalizeFirings depth maxSteps t = r.normalizeFirings depth maxSteps t := by
  have hfirings := firingsAt_change hf depth maxSteps t ⟨r.skipPast t, .off⟩
  rw [Machine.change, ← hf.skipPast] at hfirings
  rw [normalizeFirings, normalizeFirings, hfirings]

end

/-! ### The number of steps -/

/-- The reducer after `n` more steps have been counted. -/
def addReductions (r : Reducer) (n : UInt64) : Reducer :=
  { r with stats := { r.stats with reductions := r.stats.reductions + n } }

/-- The number of steps is counted, and nothing else is done with it. -/
theorem unseen_addReductions (n : UInt64) : Unseen (addReductions · n) where
  budget _ := rfl
  adoptNames _ _ := rfl
  withBudget _ _ := rfl
  skipPast _ _ := rfl
  allot _ _ := rfl
  count r rule binder := by cases rule <;> rfl
  countStep r := by
    have hswap : r.stats.reductions + n + 1 = r.stats.reductions + 1 + n := by
      rw [UInt64.add_assoc, UInt64.add_comm n, UInt64.add_assoc]
    show (⟨_, _, _, ⟨r.stats.reductions + n + 1, _, _, _, _, _⟩, _⟩ : Reducer) = _
    rw [hswap]
    rfl
  countParameterRun _ := rfl

end Reducer

end DotLambda
