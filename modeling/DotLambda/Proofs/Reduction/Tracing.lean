import DotLambda.Proofs.Reduction.Applications
import DotLambda.Proofs.Reduction.Calls
import DotLambda.Proofs.Reduction.Unseen

namespace DotLambda

/-!
# Reduction — tracing

A trace shows the first rules that were applied since it was switched on, and nothing that a reducer
returns or remembers is different for it.

* `Reducer.Call.KeepsTrace` — calls that do not switch the trace;
* `Reducer.Call.serve_change`, `Reducer.serveAll_change` — with an unseen change, calls return the
  same;
* `Reducer.Call.applies_serve`, `Reducer.applies_serveAll` — the rules that calls apply;
* `Reducer.unseen_stopTrace` — whether a trace is switched on is not seen;
* `Reducer.trace_faithful` — what a trace shows.
-/

namespace Reducer

/-! ### Calls that leave the trace alone -/

/-- The call does not switch the trace on or off. -/
def Call.KeepsTrace : Call → Prop
  | set (.traceOn _) => False
  | set .traceOff => False
  | _ => True

/-- An entry of a log, with a change of the state in which the call was served. -/
def Served.change (f : Reducer → Reducer) (s : Served) : Served :=
  { s with before := f s.before }

section

variable {f : Reducer → Reducer} (hf : Unseen f)
include hf

/-- **One call.** The change may be made before a call as well as after it. -/
theorem Call.serve_change {call : Call} (hcall : call.KeepsTrace) (r : Reducer) :
    call.serve (f r) = (call.serve r).map fun p => (p.1, f p.2) := by
  cases call with
  | set setting =>
    cases setting with
    | names table => exact congrArg (fun q => some (Reply.done, q)) (hf.adoptNames r table)
    | budget steps => exact congrArg (fun q => some (Reply.done, q)) (hf.withBudget r steps)
    | traceOn capacity => exact hcall.elim
    | traceOff => exact hcall.elim
  | step depth t =>
    rw [serve, serve, step_change hf, Option.map_map, Option.map_map]
    rfl
  | normalize depth maxSteps t =>
    rw [serve, serve, normalize_change hf, Option.map_map, Option.map_map]
    rfl

/-- A call fires the same redexes with the change. -/
theorem Call.firings_change (call : Call) (r : Reducer) : call.firings (f r) = call.firings r := by
  cases call with
  | set setting => rfl
  | step depth t => exact stepFirings_change hf r depth t
  | normalize depth maxSteps t => exact normalizeFirings_change hf r depth maxSteps t

/-- **All calls.** The change may be made before all of them as well as after them. -/
theorem serveAll_change {calls : List Call} (hcalls : ∀ call ∈ calls, call.KeepsTrace)
    (r : Reducer) :
    serveAll calls (f r)
      = (serveAll calls r).map fun p => (p.1.map (Served.change f), f p.2) := by
  induction calls generalizing r with
  | nil => rfl
  | cons call calls ih =>
    rw [List.forall_mem_cons] at hcalls
    rw [serveAll, serveAll, Call.serve_change hf hcalls.1]
    cases call.serve r with
    | none => rfl
    | some p =>
      rw [Option.map_some, Option.bind_some, Option.bind_some, ih hcalls.2, Option.map_map,
        Option.map_map]
      rfl

end

/-- Whether a trace is switched on is not seen. -/
theorem unseen_stopTrace : Unseen stopTrace where
  budget _ := rfl
  adoptNames _ _ := rfl
  withBudget _ _ := rfl
  skipPast _ _ := rfl
  allot _ _ := rfl
  count _ _ _ := rfl
  countStep _ := rfl
  countParameterRun _ := rfl

/-! ### The rules that calls apply -/

/-- **One call.** A call applies the rules of what it fires. -/
theorem Call.applies_serve {call : Call} {r r' : Reducer} {reply : Reply}
    (hcall : call.KeepsTrace) (h : call.serve r = some (reply, r')) :
    r.Applies r' (Firing.applicationsAll (call.firings r)) := by
  have hskip (t : Term) : r.Applies (r.skipPast t) [] := .of_eq (fun _ => rfl) rfl
  cases call with
  | set setting =>
    cases h
    refine .of_eq (fun rule => by rw [setting.stats_apply]) ?_
    cases setting with
    | names table => rfl
    | budget steps => rfl
    | traceOn capacity => exact hcall.elim
    | traceOff => exact hcall.elim
  | step depth t =>
    obtain ⟨t', moved, rfl, hstep⟩ := serve_step h
    obtain ⟨s, hs, -, -, rfl⟩ := step_cases hstep
    exact (hskip t).trans (stepAt_applies hs)
  | normalize depth maxSteps t =>
    obtain ⟨outcome, rfl, hnorm⟩ := serve_normalize h
    obtain ⟨run, hrun, -, rfl⟩ := normalize_runs hnorm
    exact (hskip t).trans (runAt_applies hrun)

/-- **All calls.** They apply the rules of what they fire, one call after the other. -/
theorem applies_serveAll {calls : List Call} {log : List Served} {r₀ r : Reducer}
    (hcalls : ∀ call ∈ calls, call.KeepsTrace) (h : serveAll calls r₀ = some (log, r)) :
    r₀.Applies r (Firing.applicationsAll (allFirings log)) := by
  rw [← map_call_of_serveAll h, List.forall_mem_map] at hcalls
  refine serveAll_induct_of (Q := fun s => s.call.KeepsTrace)
    (P := fun log r => r₀.Applies r (Firing.applicationsAll (allFirings log))) ?start ?serve h
    hcalls
  case start => exact .refl r₀
  case serve =>
    intro log r call reply r' ih hserve hcall
    rw [allFirings_concat, Firing.applicationsAll_append]
    exact ih.trans (Call.applies_serve hcall hserve)

/-! ### Traces -/

/-- **Tracing.** With a trace switched on, calls return and leave what they do without one, the
    trace apart, and they fire the same redexes.  As long as the number of the rules that they apply
    is a machine word, the trace shows the first of them in order, as many as it has room for, each
    with the number of those before it.  If there is room for all of them, the trace shows of each
    rule how far its counter has moved. -/
theorem trace_faithful (r : Reducer) (capacity : Int) {calls : List Call}
    (hcalls : ∀ call ∈ calls, call.KeepsTrace) :
    (serveAll calls r.stopTrace = (serveAll calls (r.startTrace capacity)).map fun p =>
      (p.1.map (Served.change stopTrace), p.2.stopTrace)) ∧
    (∀ call q, Call.firings call (stopTrace q) = call.firings q) ∧
    ∀ log r', serveAll calls (r.startTrace capacity) = some (log, r') →
      let applied := Firing.applicationsAll (allFirings log)
      let room := (max capacity 1).toNat
      ∃ trace, r'.trace = some trace ∧ (applied.length < UInt64.size →
        trace.events.toList = (applied.take room).mapIdx Application.entry ∧
        (applied.length ≤ room → ∀ rule, r'.stats.applied rule
          = r.stats.applied rule
            + .ofNat ((trace.events.toList.map TraceEntry.rule).count rule))) := by
  refine ⟨serveAll_change unseen_stopTrace hcalls (r.startTrace capacity),
    Call.firings_change unseen_stopTrace, ?_⟩
  intro log r' h applied room
  obtain ⟨hcounter, htrace⟩ := applies_serveAll hcalls h
  refine ⟨_, htrace, fun hfits => ?_⟩
  have hevents := (Trace.holds_recordAll capacity hfits).events hfits
  refine ⟨hevents, fun hall rule => ?_⟩
  rw [hevents, List.take_of_length_le hall, Application.rules_entries]
  exact hcounter rule

/-- The parameter of `x₀(x₀.x₀)` has two redexes and may take one step, so it is cut off.  A trace
    for eight applications shows all of those of this step and of a reduction behind it. -/
theorem trace_faithful_cut_off :
    let t : Term := .abs 0 (.app 0 [.var 0])
      (.app 4 [.abs 1 (.var 1) (.var 3), .abs 2 (.var 2) (.var 3)])
    let calls : List Call :=
      [.set (.budget 1), .step 2 t, .normalize 2 3 (.abs 1 (.var 1) (.var 3))]
    (∀ call ∈ calls, call.KeepsTrace) ∧
    ∃ log r' trace, serveAll calls (startTrace {} 8) = some (log, r') ∧
      r'.trace = some trace ∧
      trace.events.toList = [⟨0, .beta, 0⟩, ⟨1, .beta, 1⟩, ⟨2, .substituteVar, 1⟩,
        ⟨3, .parameterExhausted, 0⟩, ⟨4, .substituteApp, 0⟩, ⟨5, .substituteVar, 0⟩,
        ⟨6, .beta, 1⟩, ⟨7, .substituteVar, 1⟩] ∧
      (Firing.applicationsAll (allFirings log)).length = 8 ∧
      ∀ rule, r'.stats.applied rule
        = .ofNat ((trace.events.toList.map TraceEntry.rule).count rule) := by
  intro t calls
  have hcalls : ∀ call ∈ calls, call.KeepsTrace :=
    List.forall_mem_cons.mpr ⟨trivial, List.forall_mem_cons.mpr ⟨trivial,
      List.forall_mem_singleton.mpr trivial⟩⟩
  obtain ⟨log, r', h, happlied⟩ : ∃ log r', serveAll calls (startTrace {} 8) = some (log, r') ∧
      Firing.applicationsAll (allFirings log) = [⟨.beta, 0⟩, ⟨.beta, 1⟩, ⟨.substituteVar, 1⟩,
        ⟨.parameterExhausted, 0⟩, ⟨.substituteApp, 0⟩, ⟨.substituteVar, 0⟩, ⟨.beta, 1⟩,
        ⟨.substituteVar, 1⟩] :=
    ⟨_, _, rfl, by decide +kernel⟩
  obtain ⟨trace, htrace, hfaithful⟩ := (trace_faithful {} 8 hcalls).2.2 log r' h
  rw [happlied] at hfaithful
  obtain ⟨hevents, hcounted⟩ := hfaithful (by decide)
  refine ⟨hcalls, log, r', trace, h, htrace, hevents, by rw [happlied]; rfl, fun rule => ?_⟩
  rw [hcounted (by decide) rule]
  cases rule <;> exact UInt64.zero_add _

end Reducer

end DotLambda
