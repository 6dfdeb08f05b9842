import DotLambda.Proofs.Reduction.Substitution
import DotLambda.Reduction.Normalize

namespace DotLambda

/-!
# Reduction — the redexes that a run fires

Beside every run there is an account of it: the redexes that its steps fire, each with those that
are fired while its parameter is reduced.  No state carries it along.  It is told by the term and
the state that a run starts with, and all that a run counts, traces and hands out is read off it.

* `Redex`, `Term.selected?` — a redex whose body is in normal form, and the one that a step fires;
* `Firing` — a redex that was fired, with those below it;
* `Firing.models` — the models of the identities that are handed out for it;
* `ParamRunner` — how parameters are reduced, and which redexes that fires;
* `firingWith`, `firingsWith` — the redexes that a step and a run fire;
* `firingAt`, `firingsAt` — the same for steps and runs that nest to a given depth.
-/

/-! ### The redex of a step -/

/-- A redex that can be fired: no step applies to its body. -/
structure Redex where
  id : Ident
  body : Term
  param : Term
  ready : body.reducible = false
  applied : param.isPresent = true

namespace Term

mutual

/-- The redex that a step fires: one in the body comes before the abstraction itself, and one in an
    argument before those in the arguments behind it. -/
def selected? : Term → Option Redex
  | absent => none
  | var _ => none
  | abs id body param =>
    (selected? body).or
      (if h : body.reducible = false ∧ param.isPresent = true then
        some ⟨id, body, param, h.1, h.2⟩
      else none)
  | app _ args => argsSelected? args

/-- The same for the first argument that has such a redex. -/
def argsSelected? : List Term → Option Redex
  | [] => none
  | arg :: args => (selected? arg).or (argsSelected? args)

end

/-- Arguments in which nothing is selected are passed over. -/
theorem argsSelected?_append {before : List Term} (h : ∀ u ∈ before, u.selected? = none)
    (args : List Term) : argsSelected? (before ++ args) = argsSelected? args := by
  induction before with
  | nil => rfl
  | cons u before ih =>
    rw [List.forall_mem_cons] at h
    rw [List.cons_append, argsSelected?, h.1, ih h.2, Option.none_or]

/-- A step fires nothing in a normal form. -/
theorem selected?_of_normal {t : Term} (h : t.reducible = false) : t.selected? = none := by
  induction t with
  | absent => rfl
  | var id => rfl
  | abs id body param ihb _ =>
    simp only [reducible, Bool.or_eq_false_iff] at h
    simp [selected?, ihb h.2, h.1]
  | app id args ih =>
    rw [reducible, argsReducible_eq_false] at h
    have hnone := argsSelected?_append (fun u hu => ih u hu (h u hu)) []
    rwa [List.append_nil] at hnone

end Term

/-! ### Trees of redexes -/

/-- A redex that was fired. -/
structure Firing where
  redex : Redex
  /-- The redexes that the steps of its parameter fired. -/
  nested : List Firing
  /-- What its parameter had become when it was put in for the binder. -/
  value : Term
  /-- Whether the parameter was still reducible when its steps ran out. -/
  cutOff : Bool

namespace Firing

mutual

/-- The models of the identities that are handed out when the redex is fired: those for the steps
    of its parameter, and then those for copies of what this has become, one for each use of the
    binder but the first. -/
def models : Firing → List Ident
  | ⟨redex, nested, value, _⟩ =>
    modelsAll nested ++ value.copyModels ((redex.body.sites redex.id).length - 1)

/-- The same for redexes that are fired one after the other. -/
def modelsAll : List Firing → List Ident
  | [] => []
  | f :: fs => models f ++ modelsAll fs

end

@[simp] theorem modelsAll_singleton (f : Firing) : modelsAll [f] = f.models := by
  rw [modelsAll, modelsAll, List.append_nil]

end Firing

/-! ### The redexes of a run -/

/-- The state in which the run of a parameter starts. -/
def Machine.beforeParam (m : Machine) (id : Ident) : Machine :=
  (m.count .beta id).countParameterRun

/-- The state after the run of a parameter, where a run that was cut off is counted and noted. -/
def Run.afterParam (run : Run) (id : Ident) : Machine :=
  if run.finished then run.machine
  else (run.machine.count .parameterExhausted id).note (.exhausted id run.steps)

/-- The state after a step that a run has counted and noted. -/
def Machine.stepped (m : Machine) (number : Nat) (t : Term) : Machine :=
  m.countStep.note (.stepped number t)

/-- How parameters are reduced. -/
structure ParamRunner where
  run : Term → Machine → Option Run
  /-- The redexes that are fired on the way. -/
  firings : Term → Machine → List Firing

/-- The redex that a step fires, if it returns and makes one. -/
def firingWith (R : ParamRunner) (t : Term) (m : Machine) : Option Firing :=
  t.selected?.bind fun x => (R.run x.param (m.beforeParam x.id)).map fun run =>
    ⟨x, R.firings x.param (m.beforeParam x.id), run.term, !run.finished⟩

/-- The redexes that a run fires, one for each of its steps. -/
def firingsWith (R : ParamRunner) : (budget steps : Nat) → Term → Machine → List Firing
  | 0, _, _, _ => []
  | budget + 1, steps, t, m =>
    match firingWith R t m, stepWith R.run t m with
    | some f, some s =>
      f :: firingsWith R budget (steps + 1) s.result (s.machine.stepped (steps + 1) s.result)
    | _, _ => []

/-- The redexes fired by a run of at most `budget` steps in which runs nest at most `depth` deep. -/
def firingsAt : (depth budget : Nat) → Term → Machine → List Firing
  | 0, _, _, _ => []
  | depth + 1, budget, t, m =>
    let R : ParamRunner :=
      ⟨fun param m => runAt depth m.budget param m, fun param m => firingsAt depth m.budget param m⟩
    firingsWith R budget 0 t m

/-- Parameters are reduced by runs that nest at most `depth` deep, under the budget of their
    reducer. -/
def ParamRunner.ofDepth (depth : Nat) : ParamRunner where
  run param m := runAt depth m.budget param m
  firings param m := firingsAt depth m.budget param m

/-- A step at a depth runs its parameters at that depth. -/
theorem stepAt_eq (depth : Nat) : stepAt depth = stepWith (ParamRunner.ofDepth depth).run := rfl

/-- The redex fired by a step in which runs nest at most `depth` deep. -/
def firingAt (depth : Nat) (t : Term) (m : Machine) : Option Firing :=
  firingWith (.ofDepth depth) t m

section

variable {R : ParamRunner} {t : Term} {m : Machine}

/-- In a normal form nothing is fired. -/
theorem firingWith_of_normal (h : t.reducible = false) : firingWith R t m = none := by
  rw [firingWith, Term.selected?_of_normal h, Option.bind_none]

/-- Nor is anything fired by a run on it. -/
theorem firingsWith_of_normal (h : t.reducible = false) (budget steps : Nat) :
    firingsWith R budget steps t m = [] := by
  cases budget with
  | zero => rfl
  | succ budget => rw [firingsWith, firingWith_of_normal h]

/-- A run fires what its first step fires and then what the rest of the run fires. -/
theorem firingsWith_of_step {f : Firing} {s : Stepped Term} (hf : firingWith R t m = some f)
    (hs : stepWith R.run t m = some s) (budget steps : Nat) :
    firingsWith R (budget + 1) steps t m
      = f :: firingsWith R budget (steps + 1) s.result
          (s.machine.stepped (steps + 1) s.result) := by
  rw [firingsWith, hf, hs]

end

end DotLambda
