import DotLambda.Proofs.Reduction.Soundness
import DotLambda.Reader
import Mathlib

namespace DotLambda

/-!
# Reduction — how deep runs nest

Every run is bounded by its own budget, but a run nests in each redex that is fired, and nothing
bounds how deep.  Which budgets do bound it is the subject of this module.

* `runAt_mono` — an answer stays the same at every greater depth;
* `stepAt_returns`, `runWith_returns` — with one step at most for each parameter, runs nest no
  deeper than terms do;
* `Term.nest` — a redex whose reduction has it as a parameter again;
* `runAt_nest` — with two steps for each parameter its runs nest without end;
* `normalize_returns_iff` — the budgets under which every program comes to an answer.
-/

/-! ### Depth -/

/-- `R'` reduces whatever `R` reduces, in the same way. -/
def ParamRunner.Extends (R' R : ParamRunner) : Prop :=
  ∀ p m run, R.run p m = some run → R'.run p m = some run ∧ R'.firings p m = R.firings p m

section

variable {R R' : ParamRunner} (hR : R'.Extends R)
include hR

/-- What is fired with a runner is fired with one that extends it. -/
theorem Fires.mono {t t' : Term} {m m' : Machine} {f : Firing} (h : Fires R t m f t' m') :
    Fires R' t m f t' m' := by
  induction h with
  | @redex id body param t' m run s' hbody hparam hrun hsub =>
    obtain ⟨hrun', hfirings⟩ := hR _ _ _ hrun
    rw [← hfirings]
    exact .redex hbody hparam hrun' hsub
  | body _ ih => exact .body ih
  | arg hbefore _ ih => exact .arg hbefore ih

/-- So is a step made. -/
theorem stepWith_mono {t : Term} {m : Machine} {s : Stepped Term}
    (h : stepWith R.run t m = some s) : stepWith R'.run t m = some s := by
  rcases stepWith_cases h with ⟨hmoved, f, hfires⟩ | ⟨hnormal, rfl⟩
  · rw [(hfires.mono hR).stepWith_eq, ← hmoved]
  · exact stepWith_of_normal hnormal R'.run m

/-- And so is a run, which fires the same redexes. -/
theorem runWith_mono {budget steps : Nat} {t : Term} {m : Machine} {run : Run}
    (h : runWith (stepWith R.run) budget steps t m = some run) :
    runWith (stepWith R'.run) budget steps t m = some run ∧
      firingsWith R' budget steps t m = firingsWith R budget steps t m := by
  refine runWith_induct
    (P := fun budget steps t m => runWith (stepWith R'.run) budget steps t m = some run ∧
      firingsWith R' budget steps t m = firingsWith R budget steps t m) ?normal ?spent ?made h
  case normal =>
    rintro budget steps t m hred rfl
    exact ⟨runWith_of_normal hred, by rw [firingsWith_of_normal hred, firingsWith_of_normal hred]⟩
  case spent =>
    rintro steps t m hred rfl
    exact ⟨runWith_spent hred, rfl⟩
  case made =>
    intro budget steps t m s hred hs _ ih
    obtain ⟨-, f, hfires⟩ := stepWith_moves hs hred
    constructor
    · rw [runWith_of_reducible hred, stepWith_mono hR hs]
      exact ih.1
    · rw [firingsWith_of_step (hfires.mono hR).firingWith_eq (stepWith_mono hR hs),
        firingsWith_of_step hfires.firingWith_eq hs, ih.2]

end

/-- Running parameters with more nesting extends running them with less. -/
theorem ParamRunner.ofDepth_extends {depth depth' : Nat} (hle : depth ≤ depth') :
    (ofDepth depth').Extends (ofDepth depth) := by
  induction depth generalizing depth' with
  | zero =>
    intro p m run hrun
    cases hrun
  | succ depth ih =>
    obtain ⟨depth', rfl⟩ := Nat.exists_eq_add_of_le' hle
    exact fun p m run hrun => runWith_mono (ih (Nat.le_add_left depth depth')) hrun

/-- **Depth.** A run that gives an answer gives the same at every greater depth, and fires the same
    redexes for it. -/
theorem runAt_mono {depth depth' budget : Nat} (hle : depth ≤ depth') {t : Term} {m : Machine}
    {run : Run} (h : runAt depth budget t m = some run) :
    runAt depth' budget t m = some run ∧
      firingsAt depth' budget t m = firingsAt depth budget t m := by
  cases depth with
  | zero => cases h
  | succ depth =>
    obtain ⟨depth', rfl⟩ := Nat.exists_eq_add_of_le' hle
    exact runWith_mono (ParamRunner.ofDepth_extends (Nat.le_add_left depth depth')) h

/-- A step that returns does not depend on how much deeper parameters may be nested. -/
theorem stepAt_mono {depth depth' : Nat} (hle : depth ≤ depth') {t : Term} {m : Machine}
    {s : Stepped Term} (h : stepAt depth t m = some s) : stepAt depth' t m = some s :=
  stepWith_mono (ParamRunner.ofDepth_extends hle) h

/-! ### One step for each parameter -/

/-- Steps on `t` return at the given depth, if parameters are run for one step at most. -/
def Term.StepReturns (t : Term) (depth : Nat) : Prop :=
  ∀ m : Machine, m.budget ≤ 1 → ∃ s, stepAt depth t m = some s

/-- A term whose steps return with some nesting has steps that return with more. -/
theorem Term.StepReturns.mono {t : Term} {depth depth' : Nat} (hle : depth ≤ depth')
    (h : t.StepReturns depth) : t.StepReturns depth' := by
  intro m hm
  obtain ⟨s, hs⟩ := h m hm
  exact ⟨s, stepAt_mono hle hs⟩

/-- A run of one step at most returns one level above the steps. -/
theorem Term.StepReturns.runAt {t : Term} {depth : Nat} (h : t.StepReturns depth) {m : Machine}
    (hm : m.budget ≤ 1) : ∃ run, runAt (depth + 1) m.budget t m = some run := by
  have hbudget : m.budget = 0 ∨ m.budget = 1 := by omega
  rcases hbudget with h0 | h1
  · rw [h0]
    exact ⟨_, rfl⟩
  · rw [h1]
    by_cases hred : t.reducible = true
    · obtain ⟨s, hs⟩ := h m hm
      refine ⟨⟨s.result, 1, !s.result.reducible, s.machine.stepped 1 s.result⟩, ?_⟩
      show runWith (stepAt depth) 1 0 t m = _
      rw [runWith_of_reducible hred, hs]
      rfl
    · refine ⟨⟨t, 0, true, m⟩, ?_⟩
      show runWith (stepAt depth) 1 0 t m = _
      rw [runWith, if_neg hred]

/-- A step in arguments returns if a step in each of them does. -/
theorem stepArgsWith_returns {R : ParamRunner} {args : List Term} {m : Machine}
    (h : ∀ arg ∈ args, ∃ s, stepWith R.run arg m = some s) :
    ∃ s, stepArgsWith R.run args m = some s := by
  induction args with
  | nil => exact ⟨_, rfl⟩
  | cons arg args ih =>
    rw [List.forall_mem_cons] at h
    obtain ⟨s, hs⟩ := h.1
    obtain ⟨s', hs'⟩ := ih h.2
    rw [stepArgsWith, hs]
    rcases stepWith_cases hs with ⟨hmoved, -⟩ | ⟨-, rfl⟩
    · exact ⟨_, if_pos hmoved⟩
    · simp only [hs', Bool.false_eq_true, if_false]
      exact ⟨_, rfl⟩

/-- Finitely many terms on which steps return have a depth in common. -/
theorem exists_common_depth {args : List Term} (h : ∀ arg ∈ args, ∃ d, arg.StepReturns d) :
    ∃ depth, ∀ arg ∈ args, arg.StepReturns depth := by
  induction args with
  | nil => exact ⟨0, fun _ h => absurd h List.not_mem_nil⟩
  | cons arg args ih =>
    rw [List.forall_mem_cons] at h
    obtain ⟨d₁, h₁⟩ := h.1
    obtain ⟨d₂, h₂⟩ := ih h.2
    refine ⟨max d₁ d₂, List.forall_mem_cons.mpr ⟨h₁.mono (Nat.le_max_left _ _), ?_⟩⟩
    exact fun u hu => (h₂ u hu).mono (Nat.le_max_right _ _)

/-- **Steps.** With one step at most for each parameter, a step on any term returns: a parameter's
    only step fires a redex inside the parameter, so nesting follows the term. -/
theorem stepAt_returns (t : Term) : ∃ depth, t.StepReturns depth := by
  induction t with
  | absent => exact ⟨0, fun m _ => ⟨_, rfl⟩⟩
  | var id => exact ⟨0, fun m _ => ⟨_, rfl⟩⟩
  | abs id body param ihb ihp =>
    obtain ⟨d₁, hbody⟩ := ihb
    obtain ⟨d₂, hparam⟩ := ihp
    refine ⟨max d₁ (d₂ + 1), fun m hm => ?_⟩
    obtain ⟨s, hs⟩ := hbody.mono (Nat.le_max_left d₁ (d₂ + 1)) m hm
    rcases stepAt_cases hs with ⟨-, f, -, hfires⟩ | ⟨hnormal, -, -⟩
    · exact ⟨_, (Fires.body hfires).stepWith_eq⟩
    · cases hp : param.isPresent with
      | false => exact ⟨_, stepWith_of_normal (by simp [Term.reducible, hp, hnormal]) _ _⟩
      | true =>
        -- The parameter makes one step at most, so the depth for steps on it is enough.
        obtain ⟨run, hrun⟩ := hparam.runAt (m := m.beforeParam id) hm
        have hrun := (runAt_mono (Nat.le_max_right d₁ (d₂ + 1)) hrun).1
        exact ⟨_, (Fires.redex (R := .ofDepth _) hnormal hp hrun rfl).stepWith_eq⟩
  | app id args ih =>
    obtain ⟨depth, hargs⟩ := exists_common_depth ih
    refine ⟨depth, fun m hm => ?_⟩
    obtain ⟨s, hs⟩ := stepArgsWith_returns (R := .ofDepth depth) fun arg harg => hargs arg harg m hm
    exact ⟨_, by rw [stepAt_eq, stepWith, hs]⟩

/-- **Runs.** With one step at most for each parameter, every run returns at some depth. -/
theorem runWith_returns (budget steps : Nat) (t : Term) (m : Machine) (hm : m.budget ≤ 1) :
    ∃ depth run, runWith (stepAt depth) budget steps t m = some run := by
  induction budget generalizing steps t m with
  | zero => exact ⟨0, _, rfl⟩
  | succ budget ih =>
    by_cases hred : t.reducible = true
    · -- What the step leaves needs a depth of its own; the greater one serves both.
      obtain ⟨d₁, hstep⟩ := stepAt_returns t
      obtain ⟨s, hs⟩ := hstep m hm
      have hbudget := (stepAt_advances hs).budget
      obtain ⟨d₂, run, hrun⟩ := ih (steps + 1) s.result
        (s.machine.stepped (steps + 1) s.result) (le_of_eq_of_le hbudget hm)
      refine ⟨max d₁ d₂, run, ?_⟩
      rw [runWith_of_reducible hred, stepAt_mono (Nat.le_max_left d₁ d₂) hs]
      exact (runWith_mono (ParamRunner.ofDepth_extends (Nat.le_max_right d₁ d₂)) hrun).1
    · exact ⟨0, _, by rw [runWith, if_neg hred]⟩

/-! ### Two steps for each parameter -/

namespace Term

/-- `x.(x.x)`, with `id` for `x`. -/
def tripled (id : Ident) : Term :=
  app id [app id [var id]]

/-- `x(x.(x.x))`, with `id` for `x`. -/
def nester (id : Ident) : Term :=
  abs id (tripled id) absent

/-- `x(x.(x.x)).y(y.(y.y))`, with `i` for `x` and `j` for `y`. -/
def nest (i j : Ident) : Term :=
  abs i (tripled i) (nester j)

end Term

/-- The duplicate of a nester is a nester. -/
theorem Reducer.duplicate_nester (r : Reducer) (id : Ident) :
    ∃ new r', r.duplicate (Term.nester id) = (Term.nester new, r') := by
  rcases hn : Copying.renew { reducer := r } id with ⟨new, c⟩
  have hid : c.rename id = new := by rw [Copying.rename_of_renew hn, if_pos rfl]
  refine ⟨new, c.reducer, ?_⟩
  simp only [Reducer.duplicate, Term.nester, Term.tripled, Term.copy, Term.copyEach, hn, hid]

/-- The first use of the value is the value, and its argument is made of the two copies. -/
theorem Term.substitute_tripled (i j : Ident) (r : Reducer) :
    ∃ k l s', (tripled i).substitute i { value := nester j, reducer := r }
      = (abs j (tripled j) (nest k l), s') := by
  obtain ⟨k, r₁, hk⟩ := Reducer.duplicate_nester
    ((r.count .substituteApp i).count .substituteApp i) j
  obtain ⟨l, r₂, hl⟩ := Reducer.duplicate_nester (r₁.count .substituteVar i) j
  refine ⟨k, l, ⟨nester j, true, r₂⟩, ?_⟩
  simp only [tripled, substitute, substituteEach, if_true, Splice.count, Splice.take, hk, hl]
  rfl

/-- A run on a normal form has nothing to do. -/
theorem runAt_of_normal {t : Term} (h : t.reducible = false) (depth budget : Nat) (m : Machine) :
    runAt (depth + 1) budget t m = some ⟨t, 0, true, m⟩ := by
  rw [runAt, runWith_of_normal h]

/-- The first step on `nest` leaves a redex with `nest` as its parameter. -/
theorem stepAt_nest {depth : Nat} {i j : Ident} {m : Machine} {s : Stepped Term}
    (h : stepAt depth (.nest i j) m = some s) :
    (∃ k l, s.result = .abs j (.tripled j) (.nest k l)) ∧ s.machine.budget = m.budget := by
  refine ⟨?_, (stepAt_advances h).budget⟩
  rw [stepAt, Term.nest, stepWith_redex rfl rfl, betaWith_eq] at h
  cases depth with
  | zero => cases h
  | succ depth =>
    rw [runAt_of_normal rfl, Option.map_some, Option.map_some, Option.some.injEq] at h
    obtain ⟨k, l, s', hsub⟩ := Term.substitute_tripled i j (m.beforeParam i).toReducer
    exact ⟨k, l, h ▸ congrArg Prod.fst hsub⟩

/-- A redex has no step at a depth where its parameter has no run. -/
theorem stepAt_eq_none_of_param {depth : Nat} {id : Ident} {body param : Term} {m : Machine}
    (hbody : body.reducible = false) (hparam : param.isPresent = true)
    (h : runAt depth m.budget param (m.beforeParam id) = none) :
    stepAt depth (.abs id body param) m = none := by
  rw [stepAt, stepWith_redex hbody hparam, betaWith_eq, Option.map_map, Option.map_eq_none_iff]
  exact h

/-- **Nesting without end.** With two steps for each parameter, a run of two steps on `nest` has no
    answer at any depth: its second step runs `nest` as a parameter. -/
theorem runAt_nest (depth : Nat) {budget : Nat} (hbudget : 2 ≤ budget) (i j : Ident) {m : Machine}
    (hm : 2 ≤ m.budget) : runAt depth budget (.nest i j) m = none := by
  induction depth generalizing budget i j m with
  | zero => rfl
  | succ depth ih =>
    obtain ⟨budget, rfl⟩ := Nat.exists_eq_add_of_le' hbudget
    show runWith (stepAt depth) (budget + 2) 0 (.nest i j) m = none
    rw [runWith_of_reducible rfl]
    cases hfirst : stepAt depth (.nest i j) m with
    | none => rfl
    | some s =>
      -- The second step would run a copy of `nest` one level down.
      obtain ⟨⟨k, l, hresult⟩, hsame⟩ := stepAt_nest hfirst
      rw [Option.bind_some, hresult, runWith_of_reducible rfl, stepAt_eq_none_of_param rfl rfl]
      · rfl
      · refine ih ?_ k l ?_
        · exact hsame ▸ hm
        · exact hsame ▸ hm

/-! ### Programs -/

/-- A reduction has an answer exactly where its run has one. -/
theorem Reducer.normalize_returns {r : Reducer} {depth maxSteps : Nat} {t : Term} :
    (∃ out, r.normalize depth maxSteps t = some out) ↔
      ∃ run, runAt depth maxSteps t ⟨r.skipPast t, .off⟩ = some run := by
  rw [normalize_eq_runAt]
  constructor
  · rintro ⟨out, h⟩
    obtain ⟨run, hrun, -⟩ := Option.map_eq_some_iff.mp h
    exact ⟨run, hrun⟩
  · rintro ⟨run, hrun⟩
    rw [hrun]
    exact ⟨_, rfl⟩

/-- A program that discards `nest`. -/
def nestingProgram : List Char :=
  "a(b(b)).(x(x.(x.x)).y(y.(y.y)))".toList

/-- The term of `nestingProgram`. -/
def nestingTerm : Term :=
  .abs 2 (.abs 3 (.var 3) .absent) (.nest 1 0)

theorem parse_nestingProgram : parse nestingProgram = .ok (nestingTerm, #["y", "x", "a", "b"]) := by
  cbv

/-- From its first step on, the reduction of `nestingProgram` has no answer, if parameters may
    take two steps. -/
theorem normalize_nestingTerm {r : Reducer} {maxSteps : Nat} (hmax : maxSteps ≠ 0)
    (hbudget : 2 ≤ r.budget) (depth : Nat) : r.normalize depth maxSteps nestingTerm = none := by
  have hrun : runAt depth maxSteps nestingTerm ⟨r.skipPast nestingTerm, .off⟩ = none := by
    cases depth with
    | zero => rfl
    | succ depth =>
      obtain ⟨maxSteps, rfl⟩ := Nat.exists_eq_succ_of_ne_zero hmax
      show runWith (stepAt depth) (maxSteps + 1) 0 nestingTerm _ = none
      rw [runWith_of_reducible rfl, nestingTerm, stepAt_eq_none_of_param rfl rfl]
      · rfl
      · exact runAt_nest depth hbudget 1 0 hbudget
  rw [Option.eq_none_iff_forall_ne_some]
  intro out hout
  obtain ⟨run, hsome⟩ := Reducer.normalize_returns.mp ⟨out, hout⟩
  rw [hrun] at hsome
  cases hsome

/-- **Which budgets bound reduction.** Every program comes to an answer, a normal form or a
    divergence, exactly if no step may be made at all or if a parameter may take one step at
    most. -/
theorem normalize_returns_iff (maxSteps budget : Nat) :
    (∀ text t names, parse text = .ok (t, names) → ∀ r : Reducer, r.budget = budget →
      ∃ depth out, r.normalize depth maxSteps t = some out) ↔ maxSteps = 0 ∨ budget ≤ 1 := by
  constructor
  · intro h
    by_contra hno
    rw [not_or, Nat.not_le] at hno
    have hbudget : 2 ≤ ({ budget } : Reducer).budget := hno.2
    obtain ⟨depth, out, hout⟩ := h _ _ _ parse_nestingProgram { budget } rfl
    rw [normalize_nestingTerm hno.1 hbudget] at hout
    cases hout
  · rintro (rfl | hbudget) text t names _ r rfl
    · exact ⟨1, Reducer.normalize_returns.mpr ⟨_, rfl⟩⟩
    · obtain ⟨depth, run, hrun⟩ :=
        runWith_returns maxSteps 0 t ⟨r.skipPast t, .off⟩ hbudget
      exact ⟨depth + 1, Reducer.normalize_returns.mpr ⟨run, hrun⟩⟩

/-- Under the budgets that are used unless others are asked for, there is a program without an
    answer. -/
theorem nestingProgram_unanswered :
    parse nestingProgram = .ok (nestingTerm, #["y", "x", "a", "b"]) ∧
      ¬ ∃ depth out, Reducer.normalize depth defaultSteps nestingTerm {} = some out := by
  refine ⟨parse_nestingProgram, ?_⟩
  rintro ⟨depth, out, hout⟩
  rw [normalize_nestingTerm (by decide) (by decide)] at hout
  cases hout

end DotLambda
