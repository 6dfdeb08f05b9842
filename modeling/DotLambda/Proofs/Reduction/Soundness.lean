import DotLambda.Proofs.Reduction.Reducts

namespace DotLambda

/-!
# Reduction — soundness

What the public face of the reducer promises: steps and reductions keep the meaning of a term,
and a reduction that comes to its end gives the normal form.

* `lastTerm` — the term that a reduction ends with, also where it is given up;
* `Reducer.stepFirings`, `Reducer.normalizeFirings` — the redexes that calls fire;
* `Reducer.CountsOn` — a call that does not bring the counter around;
* `Reducer.step_reduct`, `Reducer.normalize_reduct` — what calls return are reducts;
* `Reducer.keeps_meaning` — soundness of both calls.
-/

open Lambda

/-- The term that a reduction ends with: its normal form, or where it was given up. -/
def lastTerm : Except Divergence Term → Term
  | .ok t => t
  | .error d => d.term

/-- What a reduction says about its run. -/
def Run.outcome (run : Run) : Except Divergence Term :=
  if run.finished then .ok run.term else .error ⟨run.steps, run.term⟩

/-- The last term of an outcome is that of the run, whether it finished or not. -/
theorem Run.lastTerm_outcome (run : Run) : lastTerm run.outcome = run.term := by
  unfold outcome
  split
  · rfl
  · rfl

/-- An outcome that is a term is the last one. -/
theorem Run.term_of_outcome {run : Run} {u : Term} (h : run.outcome = .ok u) : u = run.term := by
  rw [← run.lastTerm_outcome, h, lastTerm]

/-- A reduction that is not given up ends with a term to which no step applies. -/
theorem Run.normal_of_outcome {depth budget : Nat} {t u : Term} {m : Machine} {run : Run}
    (h : runAt depth budget t m = some run) (hdone : run.outcome = .ok u) :
    u.reducible = false := by
  have hfinished := runAt_finished h
  unfold outcome at hdone
  split at hdone
  · rename_i hok
    cases hdone
    rwa [hok, Bool.true_eq, Bool.not_eq_true'] at hfinished
  · cases hdone

/-- **Reductions.** A reduction is a run, with its end noted in the journal. -/
theorem Machine.normalize_eq (depth maxSteps : Nat) (t : Term) (m : Machine) :
    Machine.normalize depth maxSteps t m
      = (runAt depth maxSteps t ⟨m.skipPast t, m.journal⟩).map fun run =>
          (run.outcome,
            run.machine.note
              (if run.finished then .normal run.steps else .diverged run.steps)) := by
  have hstart : ({ m with toReducer := m.skipPast t } : Machine) = ⟨m.skipPast t, m.journal⟩ := rfl
  unfold Machine.normalize
  rw [hstart]
  cases runAt depth maxSteps t ⟨m.skipPast t, m.journal⟩ with
  | none => rfl
  | some run =>
    rw [Option.map_some]
    unfold Run.outcome
    show (if run.finished then _ else _) = _
    split
    · rfl
    · rfl

namespace Reducer

variable {r r' : Reducer} {depth maxSteps : Nat} {t t' : Term}

/-! ### Calls -/

/-- The redexes that a call for a step fires, which is one or none. -/
def stepFirings (depth : Nat) (t : Term) (r : Reducer) : List Firing :=
  (firingAt depth t ⟨r.skipPast t, .off⟩).toList

/-- The redexes that a call for a reduction fires. -/
def normalizeFirings (depth maxSteps : Nat) (t : Term) (r : Reducer) : List Firing :=
  firingsAt depth maxSteps t ⟨r.skipPast t, .off⟩

/-- A call on `t` that fires `fs` does not bring the counter around, neither where the identities
    of `t` are skipped nor where new ones are handed out. -/
structure CountsOn (r : Reducer) (t : Term) (fs : List Firing) : Prop where
  skipped : t.greatest + 1 < 2 ^ 63
  handed : (r.skipPast t).next + (Firing.modelsAll fs).length < 2 ^ 63

variable {fs : List Firing}

/-- A call that counts on does not wrap the counter behind the identities of its term. -/
theorem CountsOn.unwrapped (h : r.CountsOn t fs) :
    (r.skipPast t).Unwrapped (Firing.modelsAll fs) := by
  refine ⟨?_, h.handed⟩
  calc -2 ^ 63 ≤ Ident.next t.greatest := Ident.le_next _
    _ ≤ (r.skipPast t).next := le_max_right _ _

/-- Behind the identities of a term, the term fits. -/
theorem CountsOn.fits (h : r.CountsOn t fs) (ht : t.Proper) : t.Fits (r.skipPast t) where
  toProper := ht
  low := by
    intro i hi
    calc i ≤ t.greatest := Term.le_greatest hi
      _ < Ident.next t.greatest := Ident.lt_next h.skipped
      _ ≤ (r.skipPast t).next := le_max_right _ _

/-- A call for a step makes one where the counter is past the identities of the term. -/
theorem step_cases {moved : Bool} (h : r.step depth t = some ((t', moved), r')) :
    ∃ s, stepAt depth t ⟨r.skipPast t, .off⟩ = some s ∧ s.result = t' ∧ s.moved = moved ∧
      s.machine.toReducer = r' := by
  unfold step at h
  obtain ⟨s, hs, heq⟩ := Option.map_eq_some_iff.mp h
  cases heq
  exact ⟨s, hs, rfl, rfl, rfl⟩

/-- A step hands out identities for what it copies, past those of the term. -/
theorem step_advances {moved : Bool} (h : r.step depth t = some ((t', moved), r')) :
    (r.skipPast t).Advances (Firing.modelsAll (r.stepFirings depth t)) r' := by
  obtain ⟨s, hs, -, -, rfl⟩ := step_cases h
  exact stepAt_advances hs

/-- A step leads to a reduct, if the counter does not come around. -/
theorem step_reduct {moved : Bool} (h : r.step depth t = some ((t', moved), r')) (ht : t.Proper)
    (hc : r.CountsOn t (r.stepFirings depth t)) :
    Reduct t (r.skipPast t) (Firing.modelsAll (r.stepFirings depth t)) t' := by
  obtain ⟨s, hs, rfl, -, -⟩ := step_cases h
  have hu := hc.unwrapped
  rcases stepAt_cases hs with ⟨_, f, hfiring, hfires⟩ | ⟨_, hfiring, rfl⟩
  · rw [stepFirings, hfiring, Firing.modelsAll_singleton] at hu ⊢
    exact hfires.reduct (ParamRunner.ofDepth_reduct depth) (hc.fits ht) hu
  · rw [stepFirings, hfiring]
    exact .refl ht _

/-- Where no step was made, none applies, and the term has not changed. -/
theorem step_still (h : r.step depth t = some ((t', false), r')) :
    t' = t ∧ t.reducible = false := by
  obtain ⟨s, hs, rfl, hmoved, -⟩ := step_cases h
  rcases stepAt_cases hs with ⟨hfired, -⟩ | ⟨hnormal, -, rfl⟩
  · rw [hmoved] at hfired
    cases hfired
  · exact ⟨rfl, hnormal⟩

/-- A call for a reduction is a run behind the identities of the term. -/
theorem normalize_eq_runAt (r : Reducer) (depth n : Nat) (t : Term) :
    r.normalize depth n t
      = (runAt depth n t ⟨r.skipPast t, .off⟩).map fun run =>
          (run.outcome, run.machine.toReducer) := by
  rw [normalize, Machine.normalize_eq, Option.map_map]
  rfl

/-- A reduction is a run past the identities of the term. -/
theorem normalize_runs {outcome : Except Divergence Term}
    (h : r.normalize depth maxSteps t = some (outcome, r')) :
    ∃ run, runAt depth maxSteps t ⟨r.skipPast t, .off⟩ = some run ∧ outcome = run.outcome ∧
      r' = run.machine.toReducer := by
  rw [normalize_eq_runAt] at h
  obtain ⟨run, hrun, heq⟩ := Option.map_eq_some_iff.mp h
  cases heq
  exact ⟨run, hrun, rfl, rfl⟩

/-- A reduction hands out identities for what it copies, past those of the term. -/
theorem normalize_advances {outcome : Except Divergence Term}
    (h : r.normalize depth maxSteps t = some (outcome, r')) :
    (r.skipPast t).Advances (Firing.modelsAll (r.normalizeFirings depth maxSteps t)) r' := by
  obtain ⟨run, hrun, -, rfl⟩ := normalize_runs h
  exact runAt_advances hrun

/-- A reduction leads to a reduct, finished or not, if the counter does not come around. -/
theorem normalize_reduct {outcome : Except Divergence Term}
    (h : r.normalize depth maxSteps t = some (outcome, r')) (ht : t.Proper)
    (hc : r.CountsOn t (r.normalizeFirings depth maxSteps t)) :
    Reduct t (r.skipPast t) (Firing.modelsAll (r.normalizeFirings depth maxSteps t))
      (lastTerm outcome) := by
  obtain ⟨run, hrun, rfl, -⟩ := normalize_runs h
  rw [run.lastTerm_outcome]
  exact (runAt_reduct hrun).reduct (hc.fits ht) hc.unwrapped

/-! ### Soundness -/

/-- **Soundness.** A step from a proper term leads to a β-equivalent one, and none is made from a
    normal form only.  Whatever a reduction ends with is β-equivalent to the term.  If it is not
    given up, it ends with the normal form of the term: a normal form, and the only one that is
    β-equivalent to the term. -/
theorem keeps_meaning (ht : t.Proper) (r : Reducer) (depth : Nat) :
    (∀ t' moved r', r.step depth t = some ((t', moved), r') →
      r.CountsOn t (r.stepFirings depth t) →
      Conv t.meaning t'.meaning ∧ (moved = false → t' = t ∧ Normal t.meaning)) ∧
    ∀ maxSteps outcome r', r.normalize depth maxSteps t = some (outcome, r') →
      r.CountsOn t (r.normalizeFirings depth maxSteps t) →
      Conv t.meaning (lastTerm outcome).meaning ∧
        ∀ u, outcome = .ok u →
          Normal u.meaning ∧ ∀ n, Normal n → Conv t.meaning n → n = u.meaning := by
  have hatoms : ∀ i : Ident, (Lambda.atom i : Lambda Ident).IsName := fun i => .atom i
  constructor
  · intro t' moved r' hstep hc
    refine ⟨(step_reduct hstep ht hc).conv .atom, ?_⟩
    rintro rfl
    obtain ⟨rfl, hnormal⟩ := step_still hstep
    exact ⟨rfl, Term.normal_readIn ht.whole hnormal hatoms⟩
  · intro maxSteps outcome r' hnorm hc
    have hreduct := normalize_reduct hnorm ht hc
    refine ⟨hreduct.conv .atom, ?_⟩
    rintro u rfl
    obtain ⟨run, hrun, houtcome, -⟩ := normalize_runs hnorm
    have hnormal : Normal u.meaning :=
      Term.normal_readIn hreduct.whole (Run.normal_of_outcome hrun houtcome.symm) hatoms
    refine ⟨hnormal, fun n hn hconv => ?_⟩
    -- Normal forms of one term are equal.
    exact (hconv.symm.trans (hreduct.conv .atom)).eq_of_normal hn hnormal

/-- In `x(x.x).y(z(y.z))` the parameter is used twice, so its second use is a copy with binders
    of its own, and the first use takes the second as an argument. -/
theorem keeps_meaning_copied :
    let t : Term := .abs 0 (.app 0 [.var 0]) (.abs 1 (.abs 2 (.app 1 [.var 2]) .absent) .absent)
    let u : Term := .abs 2 (.abs 4 (.app 2 [.var 4]) .absent) .absent
    t.Proper ∧ ∃ r', normalize 2 10 t {} = some (.ok u, r') ∧
      CountsOn {} t (normalizeFirings 2 10 t {}) ∧ Conv t.meaning u.meaning ∧ Normal u.meaning := by
  intro t u
  have ht : t.Proper := ⟨⟨by decide, by decide⟩, rfl⟩
  have hc : CountsOn {} t (normalizeFirings 2 10 t {}) := ⟨by decide, by decide +kernel⟩
  obtain ⟨hconv, hnormal⟩ := (keeps_meaning ht {} 2).2 10 (.ok u) _ rfl hc
  exact ⟨ht, _, rfl, hc, hconv, (hnormal u rfl).1⟩

end Reducer

end DotLambda
