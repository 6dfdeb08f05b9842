import DotLambda.Proofs.Reduction.Soundness

namespace DotLambda

/-!
# Reduction — calls on one reducer

One reducer serves many calls: its settings are changed, and it is asked for steps and reductions of
whatever terms.  Each call starts in the state that the one before has left.

* `Reducer.Call`, `Reducer.Reply` — what can be asked of a reducer, and what it answers;
* `Reducer.Call.serve`, `Reducer.Call.firings` — one call, and the redexes that it fires;
* `Reducer.serveAll`, `Reducer.allFirings` — calls one after the other, with a log of them, and what
  they fire;
* `Reducer.Call.serve_cases` — what one call can do;
* `Reducer.serveAll_induct`, `Reducer.serveAll_induct_of` — what every call preserves holds after
  all of them.

The log tells in which state each call was served, so that what calls fire and what they return can
be read off it.
-/

namespace Reducer

/-- A setting of a reducer, with its new value. -/
inductive Setting where
  | names (table : Names)
  | budget (steps : Int)
  | traceOn (capacity : Int)
  | traceOff

/-- What can be asked of a reducer: to change a setting, to make a step from `t`, and to reduce `t`
    in `maxSteps` steps at most. -/
inductive Call where
  | set (setting : Setting)
  | step (depth : Nat) (t : Term)
  | normalize (depth maxSteps : Nat) (t : Term)

/-- What a reducer answers. -/
inductive Reply where
  | done
  | stepped (t : Term) (moved : Bool)
  | normalized (outcome : Except Divergence Term)

/-- Changes a setting. -/
def Setting.apply : Setting → Reducer → Reducer
  | names table, r => r.adoptNames table
  | budget steps, r => r.withBudget steps
  | traceOn capacity, r => r.startTrace capacity
  | traceOff, r => r.stopTrace

/-- The term that is returned with an answer, if any: of a reduction, the one that it ends with. -/
def Reply.term? : Reply → Option Term
  | done => none
  | stepped t _ => some t
  | normalized outcome => some (lastTerm outcome)

/-- Whether this is the answer to a call for a step that made one. -/
def Reply.moved : Reply → Bool
  | stepped _ moved => moved
  | _ => false

namespace Call

/-- Serves a call. -/
def serve : Call → Reducer → Option (Reply × Reducer)
  | set setting, r => some (.done, setting.apply r)
  | step depth t, r => (r.step depth t).map fun p => (.stepped p.1.1 p.1.2, p.2)
  | normalize depth maxSteps t, r =>
    (r.normalize depth maxSteps t).map fun p => (.normalized p.1, p.2)

/-- The redexes that are fired while a call is served. -/
def firings : Call → Reducer → List Firing
  | set _, _ => []
  | step depth t, r => r.stepFirings depth t
  | normalize depth maxSteps t, r => r.normalizeFirings depth maxSteps t

/-- The term that a call is about, if any. -/
def term? : Call → Option Term
  | set _ => none
  | step _ t => some t
  | normalize _ _ t => some t

end Call

/-- A call that was served. -/
structure Served where
  call : Call
  /-- The state in which it was served. -/
  before : Reducer
  reply : Reply

namespace Served

/-- The redexes that it has fired. -/
def firings (s : Served) : List Firing :=
  s.call.firings s.before

/-- Where the call is about a term, it has not brought the counter around. -/
def CountsOn (s : Served) : Prop :=
  ∀ t, s.call.term? = some t → s.before.CountsOn t s.firings

end Served

/-- Serves calls one after the other.  The log has an entry for each of them. -/
def serveAll : List Call → Reducer → Option (List Served × Reducer)
  | [], r => some ([], r)
  | call :: calls, r =>
    (call.serve r).bind fun p => (serveAll calls p.2).map fun q => (⟨call, r, p.1⟩ :: q.1, q.2)

/-- The redexes that were fired while calls were served. -/
def allFirings (log : List Served) : List Firing :=
  log.flatMap Served.firings

/-! ### One call -/

/-- No setting moves a counter. -/
theorem Setting.stats_apply (setting : Setting) (r : Reducer) :
    (setting.apply r).stats = r.stats := by
  cases setting with
  | names table => rfl
  | budget steps => rfl
  | traceOn capacity => rfl
  | traceOff => rfl

section

variable {r r' : Reducer} {reply : Reply}

/-- A call for a step that was served made it. -/
theorem Call.serve_step {depth : Nat} {t : Term}
    (h : (Call.step depth t).serve r = some (reply, r')) :
    ∃ t' moved, reply = .stepped t' moved ∧ r.step depth t = some ((t', moved), r') := by
  obtain ⟨⟨⟨t', moved⟩, _⟩, hstep, heq⟩ := Option.map_eq_some_iff.mp h
  cases heq
  exact ⟨t', moved, rfl, hstep⟩

/-- A call for a reduction that was served made it. -/
theorem Call.serve_normalize {depth maxSteps : Nat} {t : Term}
    (h : (Call.normalize depth maxSteps t).serve r = some (reply, r')) :
    ∃ outcome, reply = .normalized outcome ∧
      r.normalize depth maxSteps t = some (outcome, r') := by
  obtain ⟨⟨outcome, _⟩, hnorm, heq⟩ := Option.map_eq_some_iff.mp h
  cases heq
  exact ⟨outcome, rfl, hnorm⟩

/-- **One call.** A call changes a setting, or it returns a reduct of its term and hands out
    identities behind those of the term. -/
theorem Call.serve_cases {call : Call} (h : call.serve r = some (reply, r')) :
    (∃ setting, call = .set setting ∧ reply = .done ∧ r' = setting.apply r) ∨
      ∃ t t', call.term? = some t ∧ reply.term? = some t' ∧
        (r.skipPast t).Advances (Firing.modelsAll (call.firings r)) r' ∧
        (t.Proper → r.CountsOn t (call.firings r) →
          Reduct t (r.skipPast t) (Firing.modelsAll (call.firings r)) t') := by
  cases call with
  | set setting =>
    cases h
    exact .inl ⟨setting, rfl, rfl, rfl⟩
  | step depth t =>
    obtain ⟨t', moved, rfl, hstep⟩ := serve_step h
    exact .inr ⟨t, t', rfl, rfl, step_advances hstep, step_reduct hstep⟩
  | normalize depth maxSteps t =>
    obtain ⟨outcome, rfl, hnorm⟩ := serve_normalize h
    exact .inr ⟨t, lastTerm outcome, rfl, rfl, normalize_advances hnorm, normalize_reduct hnorm⟩

end

/-! ### All calls -/

/-- The log is about the calls that were made. -/
theorem map_call_of_serveAll {calls : List Call} {log : List Served} {r r' : Reducer}
    (h : serveAll calls r = some (log, r')) : log.map Served.call = calls := by
  induction calls generalizing log r with
  | nil =>
    cases h
    rfl
  | cons call calls ih =>
    obtain ⟨⟨reply, r₁⟩, -, hrest⟩ := Option.bind_eq_some_iff.mp h
    obtain ⟨⟨log', r₂⟩, hall, heq⟩ := Option.map_eq_some_iff.mp hrest
    cases heq
    rw [List.map_cons, ih hall]

/-- What the last call fires comes last. -/
theorem allFirings_concat (log : List Served) (call : Call) (r : Reducer) (reply : Reply) :
    allFirings (log ++ [⟨call, r, reply⟩]) = allFirings log ++ call.firings r := by
  rw [allFirings, List.flatMap_append, List.flatMap_singleton]
  rfl

/-- The last call is served in the state that the others have left. -/
theorem serveAll_concat (calls : List Call) (call : Call) (r : Reducer) :
    serveAll (calls ++ [call]) r = (serveAll calls r).bind fun p =>
      (call.serve p.2).map fun q => (p.1 ++ [⟨call, p.2, q.1⟩], q.2) := by
  induction calls generalizing r with
  | nil =>
    simp only [List.nil_append, serveAll, Option.bind_some, Option.map_some]
    cases call.serve r with
    | none => rfl
    | some p => rfl
  | cons first calls ih =>
    rw [List.cons_append, serveAll, serveAll]
    cases first.serve r with
    | none => rfl
    | some p =>
      rw [Option.bind_some, Option.bind_some, ih, Option.map_bind, Option.bind_map]
      refine Option.bind_congr fun q _ => ?_
      simp only [Function.comp_apply, Option.map_map]
      rfl

/-- **All calls.** What holds before any call, and is preserved by each, holds after all of them. -/
theorem serveAll_induct {P : List Served → Reducer → Prop} {r₀ : Reducer} (start : P [] r₀)
    (serve : ∀ log r call reply r', P log r → call.serve r = some (reply, r') →
      P (log ++ [⟨call, r, reply⟩]) r')
    {calls : List Call} {log : List Served} {r : Reducer}
    (h : serveAll calls r₀ = some (log, r)) : P log r := by
  induction calls using List.reverseRecOn generalizing log r with
  | nil =>
    cases h
    exact start
  | append_singleton calls call ih =>
    rw [serveAll_concat] at h
    obtain ⟨⟨log', r'⟩, hall, hlast⟩ := Option.bind_eq_some_iff.mp h
    obtain ⟨⟨reply, r''⟩, hserve, heq⟩ := Option.map_eq_some_iff.mp hlast
    cases heq
    exact serve log' r' call reply _ (ih hall) hserve

/-- The same, where each call is known to be served as `Q` says. -/
theorem serveAll_induct_of {P : List Served → Reducer → Prop} {Q : Served → Prop} {r₀ : Reducer}
    (start : P [] r₀)
    (serve : ∀ log r call reply r', P log r → call.serve r = some (reply, r') →
      Q ⟨call, r, reply⟩ → P (log ++ [⟨call, r, reply⟩]) r')
    {calls : List Call} {log : List Served} {r : Reducer}
    (h : serveAll calls r₀ = some (log, r)) (hlog : ∀ s ∈ log, Q s) : P log r := by
  refine serveAll_induct (P := fun log r => (∀ s ∈ log, Q s) → P log r) (fun _ => start) ?_ h hlog
  intro log r call reply r' ih hserve hlog
  rw [List.forall_mem_append, List.forall_mem_singleton] at hlog
  exact serve log r call reply r' (ih hlog.1) hserve hlog.2

end Reducer

end DotLambda
