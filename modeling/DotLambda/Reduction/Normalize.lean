import DotLambda.Journal
import DotLambda.Reduction.Substitution

namespace DotLambda

/-!
# Reduction — steps to normal form

A step fires the first redex whose body is in normal form, going into bodies and from left
to right through arguments.  Before a redex is fired its parameter is reduced, under a budget
of its own: reducing a parameter is a run of steps inside a step.

* `stepWith`, `runWith` — one step and a run of them, given how parameters are reduced;
* `runAt` — runs with parameters reduced by runs, nested to a given depth at most;
* `Reducer.step`, `Reducer.normalize` — the public face of both.

Runs may nest without end although every one of them is bounded, so depth is an argument of its
own.  Running out of it gives no answer, which is neither a normal form nor a divergence: a
greater depth may give one.
-/

/-- A reducer with a journal of what it does. -/
structure Machine extends Reducer where
  journal : Journal := .off

namespace Machine

/-- Counts and traces the application of a rule. -/
def count (m : Machine) (rule : Rule) (binder : Ident) : Machine :=
  match m with
  | ⟨reducer, journal⟩ => ⟨reducer.count rule binder, journal⟩

/-- Counts a step. -/
def countStep (m : Machine) : Machine :=
  { m with stats := m.stats.countStep }

/-- Counts the start of a parameter's reduction. -/
def countParameterRun (m : Machine) : Machine :=
  { m with stats := m.stats.countParameterRun }

/-- Enters an event in the journal. -/
def note (m : Machine) (e : Event) : Machine :=
  { m with journal := m.journal.record e }

end Machine

/-- Where a step led. -/
structure Stepped (α : Type) where
  /-- What the step made, or what was given where none applies. -/
  result : α
  /-- Whether a step was made. -/
  moved : Bool
  machine : Machine

/-- Where a run of steps led. -/
structure Run where
  /-- The last term. -/
  term : Term
  /-- The number of steps. -/
  steps : Nat
  /-- Whether no step applies any more. -/
  finished : Bool
  machine : Machine

/-! ### One step -/

/-- Fires the redex of `id`: reduces the parameter and puts it in for the binder. -/
def betaWith (runParam : Term → Machine → Option Run) (id : Ident) (body param : Term)
    (m : Machine) : Option (Term × Machine) :=
  match runParam param (m.count .beta id).countParameterRun with
  | none => none
  | some run =>
    let m :=
      if run.finished then run.machine
      else (run.machine.count .parameterExhausted id).note (.exhausted id run.steps)
    match m with
    | ⟨reducer, journal⟩ =>
      -- A parameter that is still reducible goes in as it stands.
      let (t, splice) := body.substitute id { value := run.term, reducer }
      some (t, ⟨splice.reducer, journal⟩)

mutual

/-- Fires the first redex that can be fired, if there is one. -/
def stepWith (runParam : Term → Machine → Option Run) : Term → Machine → Option (Stepped Term)
  | .absent, m => some ⟨.absent, false, m⟩
  | .var id, m => some ⟨.var id, false, m⟩
  | .abs id body param, m =>
    match stepWith runParam body m with
    | none => none
    | some s =>
      if s.moved then some ⟨.abs id s.result param, true, s.machine⟩
      -- The body is in normal form, so this redex comes next.
      else if param.isPresent then
        match betaWith runParam id body param s.machine with
        | none => none
        | some (t, m) => some ⟨t, true, m⟩
      else some ⟨.abs id body param, false, s.machine⟩
  | .app id args, m =>
    match stepArgsWith runParam args m with
    | none => none
    | some s => some ⟨.app id s.result, s.moved, s.machine⟩

/-- Makes a step in the first argument that has one, if any has. -/
def stepArgsWith (runParam : Term → Machine → Option Run) :
    List Term → Machine → Option (Stepped (List Term))
  | [], m => some ⟨[], false, m⟩
  | arg :: args, m =>
    match stepWith runParam arg m with
    | none => none
    | some s =>
      if s.moved then some ⟨s.result :: args, true, s.machine⟩
      else
        match stepArgsWith runParam args s.machine with
        | none => none
        | some s => some ⟨arg :: s.result, s.moved, s.machine⟩

end

/-! ### Runs -/

/-- Makes steps until none applies or `budget` more have been made.  `steps` have been
    made before. -/
def runWith (step : Term → Machine → Option (Stepped Term)) :
    (budget steps : Nat) → Term → Machine → Option Run
  | 0, steps, t, m => some ⟨t, steps, !t.reducible, m⟩
  | budget + 1, steps, t, m =>
    if t.reducible then
      match step t m with
      | none => none
      | some s =>
        let m := s.machine.countStep.note (.stepped (steps + 1) s.result)
        runWith step budget (steps + 1) s.result m
    else some ⟨t, steps, true, m⟩

/-- A run of at most `budget` steps in which runs nest at most `depth` deep, itself included. -/
def runAt : (depth budget : Nat) → Term → Machine → Option Run
  | 0, _, _, _ => none
  | depth + 1, budget, t, m =>
    runWith (stepWith fun param m => runAt depth m.budget param m) budget 0 t m

/-- One step in which runs nest at most `depth` deep. -/
def stepAt (depth : Nat) (t : Term) (m : Machine) : Option (Stepped Term) :=
  stepWith (fun param m => runAt depth m.budget param m) t m

/-! ### Normal forms -/

/-- A reduction that was given up. -/
structure Divergence where
  /-- The steps made. -/
  steps : Nat
  /-- The last term. -/
  term : Term

/-- The wording of a divergence. -/
def Divergence.message (d : Divergence) : String :=
  "reduction did not terminate after " ++ toString d.steps ++ " steps"

/-- Reduces a term until no step applies, in `maxSteps` steps at most. -/
def Machine.normalize (depth maxSteps : Nat) (t : Term) (m : Machine) :
    Option (Except Divergence Term × Machine) :=
  match runAt depth maxSteps t { m with toReducer := m.skipPast t } with
  | none => none
  | some run =>
    if run.finished then some (.ok run.term, run.machine.note (.normal run.steps))
    else some (.error ⟨run.steps, run.term⟩, run.machine.note (.diverged run.steps))

namespace Reducer

/-- Reduces a term until no step applies, in `maxSteps` steps at most. -/
def normalize (depth maxSteps : Nat) (t : Term) (r : Reducer) :
    Option (Except Divergence Term × Reducer) :=
  (Machine.normalize depth maxSteps t ⟨r, .off⟩).map fun (result, m) => (result, m.toReducer)

/-- Makes one step, if one applies: the term after it, and whether it was made. -/
def step (depth : Nat) (t : Term) (r : Reducer) : Option ((Term × Bool) × Reducer) :=
  (stepAt depth t ⟨r.skipPast t, .off⟩).map fun s => ((s.result, s.moved), s.machine.toReducer)

end Reducer

end DotLambda
