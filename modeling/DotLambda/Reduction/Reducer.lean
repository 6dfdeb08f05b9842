import DotLambda.Names
import DotLambda.Reduction.Trace

namespace DotLambda

/-!
# Reduction — the reducer

What a reduction carries along: how far parameters are reduced, the next unused identity, the
names of identities, counters and a trace.

* `Reducer.allot` — hands out an identity that displays like another one;
* `Reducer.skipPast` — moves the next identity past those of a term;
* `Reducer.adoptNames` — takes over the names of a program.
-/

/-- The number of steps that a parameter may take unless something else is asked for. -/
def defaultParameterSteps : Nat := 10

/-- The number of steps that a program may take unless something else is asked for. -/
def defaultSteps : Nat := 10000

/-- The state of a reduction. -/
structure Reducer where
  /-- The steps that a parameter may take before it is substituted as it stands. -/
  budget : Nat := defaultParameterSteps
  /-- The next unused identity. -/
  next : Ident := 0
  /-- The names of identities.  While it is empty, no names are kept. -/
  names : Names := #[]
  stats : Stats := {}
  /-- The trace, where it is switched on. -/
  trace : Option Trace := none

namespace Reducer

/-- Lets parameters take `steps` steps; fewer than none is none. -/
def withBudget (r : Reducer) (steps : Int) : Reducer :=
  { r with budget := steps.toNat }

/-- Takes over the names of a program.  Their identities count as used. -/
def adoptNames (r : Reducer) (names : Names) : Reducer :=
  { r with names, next := max r.next names.size }

/-- Switches on a trace for `capacity` applications of rules. -/
def startTrace (r : Reducer) (capacity : Int) : Reducer :=
  { r with trace := some (.ofCapacity capacity) }

/-- Switches the trace off. -/
def stopTrace (r : Reducer) : Reducer :=
  { r with trace := none }

/-- Counts and traces the application of a rule. -/
def count (r : Reducer) (rule : Rule) (binder : Ident) : Reducer :=
  { r with stats := r.stats.count rule, trace := r.trace.map (·.record rule binder) }

/-- Hands out an identity that shares the name of `model`. -/
def allot (r : Reducer) (model : Ident) : Ident × Reducer :=
  let id := r.next
  (id, { r with next := id.next, names := r.names.enterLike id model })

/-- Moves the next unused identity past every identity of a term. -/
def skipPast (r : Reducer) (t : Term) : Reducer :=
  { r with next := max r.next (Ident.next t.greatest) }

end Reducer

end DotLambda
