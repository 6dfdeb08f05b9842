import DotLambda.Form
import DotLambda.Term

namespace DotLambda

/-!
# The journal

What happens while a program is desugared, read and reduced, for those who want to watch.

* `Event` — what can happen, with its wording, its severity and the stage it comes from;
* `Journal` — the events so far, or nothing when nobody watches.

Nothing reads the journal but the one who asked for it, so keeping it changes no result.
-/

/-- The stages of a run. -/
inductive Stage where
  | desugaring
  | reading
  | reduction
deriving DecidableEq

/-- How much an event matters. -/
inductive Severity where
  | debug
  | info
  | error
deriving DecidableEq

/-- What can happen during a run. -/
inductive Event where
  /-- The definitions and parameter lists of a program were taken out, which left `text`. -/
  | desugared (definitions : Nat) (text : List Char)
  /-- An expression of form `form` is about to be read below `depth` binders. -/
  | reading (depth : Nat) (text : List Char) (form : Form)
  /-- The step number `step` of a run gave `term`. -/
  | stepped (step : Nat) (term : Term)
  /-- The parameter of `binder` was substituted after `steps` steps, still reducible. -/
  | exhausted (binder : Ident) (steps : Nat)
  /-- A normal form was reached. -/
  | normal (steps : Nat)
  /-- The steps allowed were not enough. -/
  | diverged (steps : Nat)

namespace Event

/-- The stage an event comes from. -/
def stage : Event → Stage
  | desugared .. => .desugaring
  | reading .. => .reading
  | _ => .reduction

/-- How much an event matters. -/
def severity : Event → Severity
  | normal _ => .info
  | diverged _ => .error
  | _ => .debug

/-- The depth below which an expression is read, where an event has one. -/
def depth? : Event → Option Nat
  | reading depth .. => some depth
  | _ => none

/-- The wording of an event. -/
def message : Event → String
  | desugared n text => "compiled " ++ toString n ++ " definitions: " ++ String.ofList text
  | reading _ text form => String.ofList text ++ ": " ++ form.name
  | stepped step term =>
    "step " ++ toString step ++ ": " ++ term.numbered
  | exhausted binder steps =>
    "parameter of " ++ toString binder ++ " still reducible after " ++ toString steps ++ " steps"
  | normal steps => "normal form after " ++ toString steps ++ " steps"
  | diverged steps => "no normal form after " ++ toString steps ++ " steps"

/-- An event as a line of a log. -/
def logLine (e : Event) : String :=
  let level := match e.severity with
    | .debug => "DEBUG "
    | .info => "INFO  "
    | .error => "ERROR "
  level ++ e.message ++ "\n"

end Event

/-- The events so far; `none` when nobody watches. -/
structure Journal where
  entries : Option (Array Event)

namespace Journal

/-- The journal of a run that nobody watches. -/
def off : Journal := ⟨none⟩

/-- An empty journal that is kept. -/
def blank : Journal := ⟨some #[]⟩

/-- Adds an event, if the journal is kept. -/
def record (j : Journal) (e : Event) : Journal :=
  ⟨j.entries.map (·.push e)⟩

/-- The events so far, the oldest first. -/
def events (j : Journal) : List Event :=
  match j.entries with
  | none => []
  | some entries => entries.toList

/-- The journal as lines of a log. -/
def log (j : Journal) : String :=
  String.join (j.events.map Event.logLine)

/-- A journal that is off stays off. -/
@[simp] theorem record_off (e : Event) : off.record e = off := rfl

end Journal

end DotLambda
