import DotLambda.Reduction.Stats
import DotLambda.Term

namespace DotLambda

/-!
# Reduction — traces

The first rules that a reducer applied since its trace was switched on, up to a capacity.
-/

/-- The application of a rule. -/
structure TraceEntry where
  /-- How many rules were applied before it, modulo the size of a machine word. -/
  step : UInt64
  rule : Rule
  /-- The binder that it is about. -/
  binder : Ident
deriving DecidableEq

/-- A trace that is switched on. -/
structure Trace where
  /-- The number of slots for applications. -/
  capacity : Nat
  /-- The number of applications so far, kept or not.  It comes around to zero like the counters. -/
  applied : UInt64 := 0
  /-- The slots written so far, the first one first. -/
  slots : Array TraceEntry := #[]

namespace Trace

/-- A trace for `capacity` applications, but for one at least. -/
def ofCapacity (capacity : Int) : Trace :=
  { capacity := max 1 capacity.toNat }

/-- Writes an entry into the slot of its number.  A slot that was not written yet is the next
    one. -/
def put (slots : Array TraceEntry) (e : TraceEntry) : Array TraceEntry :=
  if e.step.toNat < slots.size then slots.setIfInBounds e.step.toNat e else slots.push e

/-- Counts the application of a rule, and keeps it if there is a slot of its number. -/
def record (t : Trace) (rule : Rule) (binder : Ident) : Trace :=
  { t with
    applied := t.applied + 1
    slots :=
      if t.applied.toNat < t.capacity then put t.slots ⟨t.applied, rule, binder⟩ else t.slots }

/-- What a trace shows: the slots up to the number of applications. -/
def events (t : Trace) : Array TraceEntry :=
  t.slots.take (min t.applied.toNat t.capacity)

end Trace

end DotLambda
