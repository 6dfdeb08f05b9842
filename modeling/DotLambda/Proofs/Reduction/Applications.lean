import DotLambda.Proofs.Reduction.Sites
import DotLambda.Proofs.Reduction.Steps

namespace DotLambda

/-!
# Reduction — the rules that are applied

Which rules a step applies can be read off the redex that it fires.  It is fired; its parameter is
reduced, which applies rules of its own; the parameter may be cut off; and the uses of the binder
are replaced one after the other.  Counters and traces are told of these applications and of no
others, in this order.

* `Firing.applications` — the rules that are applied when a redex is fired;
* `Reducer.Applies` — rules that were counted and recorded between two states;
* `Fires.applies`, `RunSteps.applies`, `runAt_applies` — steps and runs;
* `Trace.Holds`, `Trace.holds_recordAll` — what a trace has kept of the rules that it was told of.
-/

/-- The application of a rule. -/
structure Application where
  rule : Rule
  /-- The binder that it is about. -/
  binder : Ident
deriving DecidableEq

/-! ### The rules of a run -/

namespace Firing

mutual

/-- The rules that are applied when the redex is fired, in order. -/
def applications : Firing → List Application
  | ⟨redex, nested, _, cutOff⟩ =>
    [⟨.beta, redex.id⟩] ++ applicationsAll nested ++
      (if cutOff then [⟨.parameterExhausted, redex.id⟩] else []) ++
      (redex.body.sites redex.id).map (⟨·, redex.id⟩)

/-- The rules that are applied when redexes are fired one after the other. -/
def applicationsAll : List Firing → List Application
  | [] => []
  | f :: fs => applications f ++ applicationsAll fs

end

/-- The rules of redexes that are fired one after the other follow one another. -/
theorem applicationsAll_append (fs gs : List Firing) :
    applicationsAll (fs ++ gs) = applicationsAll fs ++ applicationsAll gs := by
  induction fs with
  | nil => rfl
  | cons f fs ih =>
    rw [List.cons_append, applicationsAll, applicationsAll, ih, List.append_assoc]

end Firing

/-! ### Counters and traces -/

/-- How often a rule was applied, modulo the size of a machine word. -/
def Stats.applied (s : Stats) : Rule → UInt64
  | .beta => s.fired
  | .parameterExhausted => s.parametersExhausted
  | .substituteVar => s.variableSites
  | .substituteApp => s.applicationSites

/-- Counting a rule moves its own counter by one, and no other. -/
theorem Stats.applied_count (s : Stats) (rule rule' : Rule) :
    (s.count rule).applied rule' = s.applied rule' + .ofNat ([rule].count rule') := by
  cases rule <;> cases rule' <;> simp [count, applied]

/-- The trace after it was told of some applications. -/
def Trace.recordAll (t : Trace) (applied : List Application) : Trace :=
  applied.foldl (fun t a => t.record a.rule a.binder) t

/-- From `r` to `r'` the rules `applied` were applied: each has moved its counter, and a trace that
    is switched on was told of them in this order. -/
structure Reducer.Applies (r r' : Reducer) (applied : List Application) : Prop where
  counter (rule : Rule) : r'.stats.applied rule
    = r.stats.applied rule + .ofNat ((applied.map Application.rule).count rule)
  trace : r'.trace = r.trace.map (·.recordAll applied)

namespace Reducer.Applies

variable {r r' r'' : Reducer} {applied applied' : List Application}

/-- What moves none of these counters and leaves the trace alone applies no rule. -/
theorem of_eq (hcounter : ∀ rule, r'.stats.applied rule = r.stats.applied rule)
    (htrace : r'.trace = r.trace) : r.Applies r' [] where
  counter rule := (hcounter rule).trans (UInt64.add_zero _).symm
  trace := by
    rw [htrace]
    exact Option.map_id'.symm

/-- Nothing is applied where nothing is done. -/
theorem refl (r : Reducer) : r.Applies r [] :=
  of_eq (fun _ => rfl) rfl

/-- What is applied in two stretches is applied in one. -/
theorem trans (h₁ : r.Applies r' applied) (h₂ : r'.Applies r'' applied') :
    r.Applies r'' (applied ++ applied') where
  counter rule := by
    rw [h₂.counter, h₁.counter, List.map_append, List.count_append, UInt64.ofNat_add,
      UInt64.add_assoc]
  trace := by
    have hrecord : (fun t => Trace.recordAll t (applied ++ applied'))
        = fun t => (Trace.recordAll t applied).recordAll applied' := by
      funext t
      exact List.foldl_append
    rw [h₂.trace, h₁.trace, Option.map_map, hrecord]
    rfl

/-- A rule that is counted is traced too. -/
theorem count (r : Reducer) (rule : Rule) (binder : Ident) :
    r.Applies (r.count rule binder) [⟨rule, binder⟩] where
  counter rule' := Stats.applied_count r.stats rule rule'
  trace := rfl

end Reducer.Applies

/-! ### Substitution -/

/-- A copy applies no rule. -/
theorem Term.applies_copy {t t' : Term} {c c' : Copying} (h : t.copy c = (t', c')) :
    c.reducer.Applies c'.reducer [] := by
  refine (copy_induct (P := fun _ c _ c' => c.reducer.Applies c'.reducer [])
    (Q := fun _ c _ c' => c.reducer.Applies c'.reducer [])
    ?absent ?var ?abs ?app ?nil ?cons).1 h
  case absent => exact fun c => .refl c.reducer
  case var => exact fun _ c => .refl c.reducer
  case abs =>
    intro id new body param body' param' c c₁ c₂ c₃ _ hn _ hparam hbody
    have hnew : c₁.reducer.Applies c₂.reducer [] := by
      rw [Copying.reducer_eq_of_renew hn]
      exact .of_eq (fun _ => rfl) rfl
    exact hparam.trans (hnew.trans hbody)
  case app => exact fun hargs => hargs
  case nil => exact fun c => .refl c.reducer
  case cons => exact fun _ _ harg hargs => harg.trans hargs

/-- A use that is replaced is an application of its rule. -/
theorem Splice.applies_take {s s' : Splice} {rule : Rule} {binder : Ident} {w : Term}
    (h : (s.count rule binder).take = (w, s')) :
    s.reducer.Applies s'.reducer [⟨rule, binder⟩] := by
  have hcount := Reducer.Applies.count s.reducer rule binder
  rcases take_cases h with ⟨-, -, rfl⟩ | ⟨-, r', hdup, rfl⟩
  · exact hcount
  · obtain ⟨c', hc, rfl⟩ := Reducer.copy_of_duplicate hdup
    exact hcount.trans (Term.applies_copy hc)

/-- A substitution applies a rule at each use of the binder. -/
theorem Term.applies_substitute {id : Ident} {t t' : Term} {s s' : Splice}
    (h : t.substitute id s = (t', s')) :
    s.reducer.Applies s'.reducer ((t.sites id).map (⟨·, id⟩)) := by
  refine (substitutes_along
    (R := fun s uses s' => s.reducer.Applies s'.reducer (uses.map (⟨·, id⟩)))
    (fun s => .refl s.reducer) ?_ Splice.applies_take).1 h
  intro s s₁ s₂ uses uses' h₁ h₂
  rw [List.map_append]
  exact h₁.trans h₂

/-! ### Steps and runs -/

/-- Before the run of a parameter, the redex is fired. -/
theorem Machine.applies_beforeParam (m : Machine) (id : Ident) :
    m.toReducer.Applies (m.beforeParam id).toReducer [⟨.beta, id⟩] := by
  have hcount := Reducer.Applies.count m.toReducer .beta id
  exact ⟨fun rule => by rw [← hcount.counter]; cases rule <;> rfl, hcount.trace⟩

/-- After it, the parameter may be cut off. -/
theorem Run.applies_afterParam (run : Run) (id : Ident) :
    run.machine.toReducer.Applies (run.afterParam id).toReducer
      (if !run.finished then [⟨.parameterExhausted, id⟩] else []) := by
  unfold afterParam
  cases run.finished with
  | true => exact .refl _
  | false => exact .count run.machine.toReducer .parameterExhausted id

/-- That a step is counted concerns none of the rules. -/
theorem Machine.applies_stepped (m : Machine) (number : Nat) (t : Term) :
    m.toReducer.Applies (m.stepped number t).toReducer [] :=
  .of_eq (fun rule => by cases rule <;> rfl) rfl

/-- A run applies the rules for what it fires. -/
def RunApplies (_ : Term) (m : Machine) (fs : List Firing) (run : Run) : Prop :=
  m.toReducer.Applies run.machine.toReducer (Firing.applicationsAll fs)

section

variable {R : ParamRunner} (hR : R.Satisfies RunApplies)
include hR

/-- **One step.** A step applies the rules for the redex that it fires. -/
theorem Fires.applies {t t' : Term} {m m' : Machine} {f : Firing} (h : Fires R t m f t' m') :
    m.toReducer.Applies m'.toReducer f.applications := by
  induction h with
  | @redex id body param t' m run s' _ _ hrun hsub =>
    exact (((m.applies_beforeParam id).trans (hR _ _ _ hrun)).trans
      (run.applies_afterParam id)).trans (Term.applies_substitute hsub)
  | body _ ih => exact ih
  | arg _ _ ih => exact ih

/-- A chain of steps applies the rules of one redex after the other. -/
theorem RunSteps.applies {t t' : Term} {m m' : Machine} {fs : List Firing}
    (h : RunSteps R t m fs t' m') :
    m.toReducer.Applies m'.toReducer (Firing.applicationsAll fs) := by
  induction h with
  | refl t m => exact .refl m.toReducer
  | head hfires _ ih =>
    exact (hfires.applies hR).trans ((Machine.applies_stepped _ _ _).trans ih)

end

/-- **Runs.** At every depth, a run applies the rules for the redexes that it fires. -/
theorem runAt_applies {depth budget : Nat} {t : Term} {m : Machine} {run : Run}
    (h : runAt depth budget t m = some run) :
    m.toReducer.Applies run.machine.toReducer
      (Firing.applicationsAll (firingsAt depth budget t m)) := by
  refine runAt_induct (P := RunApplies) ?_ h
  intro R budget t m run hparams hrun
  exact (runWith_steps hrun).applies hparams

/-- Parameters are reduced by such runs. -/
theorem ParamRunner.ofDepth_applies (depth : Nat) : (ofDepth depth).Satisfies RunApplies :=
  fun _ _ _ h => runAt_applies h

/-- A step applies the rules for the redex of its account. -/
theorem stepAt_applies {depth : Nat} {t : Term} {m : Machine} {s : Stepped Term}
    (h : stepAt depth t m = some s) :
    m.toReducer.Applies s.machine.toReducer
      (Firing.applicationsAll (firingAt depth t m).toList) := by
  rcases stepAt_cases h with ⟨-, f, hfiring, hfires⟩ | ⟨-, hfiring, rfl⟩
  · rw [hfiring, Firing.applicationsAll, Firing.applicationsAll, List.append_nil]
    exact hfires.applies (ParamRunner.ofDepth_applies depth)
  · rw [hfiring]
    exact .refl _

/-! ### What a trace keeps -/

/-- The entry of a trace for an application before which `index` others were made. -/
def Application.entry (index : Nat) (a : Application) : TraceEntry :=
  ⟨.ofNat index, a.rule, a.binder⟩

/-- The entries of a trace are for the rules that were applied. -/
theorem Application.rules_entries (applied : List Application) :
    (applied.mapIdx entry).map TraceEntry.rule = applied.map rule := by
  apply List.ext_getElem?
  intro k
  simp [entry, Function.comp_def]

/-- A trace that was switched on with room for `room` applications and told of those in `applied`:
    it has counted them, and its slots hold the first of them. -/
structure Trace.Holds (t : Trace) (room : Nat) (applied : List Application) : Prop where
  capacity : t.capacity = room
  counted : t.applied = .ofNat applied.length
  slots : t.slots.toList = (applied.take room).mapIdx Application.entry

namespace Trace

/-- **One application.** As long as the number of those before it is a machine word, it has a slot
    of its own, or finds all slots written. -/
theorem Holds.record {t : Trace} {room : Nat} {applied : List Application}
    (h : t.Holds room applied) (hfits : applied.length < UInt64.size) (a : Application) :
    (t.record a.rule a.binder).Holds room (applied ++ [a]) := by
  -- The index has not come around yet, so that it is the number of entries.
  have hindex : t.applied.toNat = applied.length := by
    rw [h.counted, UInt64.toNat_ofNat_of_lt' hfits]
  refine ⟨h.capacity, ?_, ?_⟩
  · show t.applied + 1 = _
    rw [h.counted, List.length_append, UInt64.ofNat_add]
    rfl
  · show (if t.applied.toNat < t.capacity then _ else _ : Array TraceEntry).toList = _
    rw [hindex, h.capacity]
    split
    · rename_i hroom
      have hall : t.slots.toList = applied.mapIdx Application.entry := by
        rw [h.slots, List.take_of_length_le (by omega)]
      have hsize : t.slots.size = applied.length := by
        rw [← Array.length_toList, hall, List.length_mapIdx]
      have hnext : ¬ t.applied.toNat < t.slots.size := by omega
      rw [put, if_neg hnext, Array.toList_push, hall, h.counted,
        List.take_of_length_le (by rw [List.length_append, List.length_singleton]; omega),
        List.mapIdx_append]
      simp [Application.entry]
    · rename_i hfull
      have hkept : (applied ++ [a]).take room = applied.take room :=
        List.take_append_of_le_length (by omega)
      rw [h.slots, hkept]

/-- **All applications.** A new trace holds all that is recorded in it, as far as there is room. -/
theorem holds_recordAll (capacity : Int) {applied : List Application}
    (hfits : applied.length < UInt64.size) :
    ((ofCapacity capacity).recordAll applied).Holds (max capacity 1).toNat applied := by
  induction applied using List.reverseRecOn with
  | nil =>
    refine ⟨?_, rfl, by simp [recordAll, ofCapacity]⟩
    show max 1 capacity.toNat = (max capacity 1).toNat
    omega
  | append_singleton applied a ih =>
    rw [List.length_append, List.length_singleton] at hfits
    have hlast : (ofCapacity capacity).recordAll (applied ++ [a])
        = ((ofCapacity capacity).recordAll applied).record a.rule a.binder := by
      simp [recordAll]
    rw [hlast]
    exact (ih (by omega)).record (by omega) a

/-- A trace shows all that it holds. -/
theorem Holds.events {t : Trace} {room : Nat} {applied : List Application}
    (h : t.Holds room applied) (hfits : applied.length < UInt64.size) :
    t.events.toList = (applied.take room).mapIdx Application.entry := by
  have hindex : t.applied.toNat = applied.length := by
    rw [h.counted, UInt64.toNat_ofNat_of_lt' hfits]
  have hlength : t.slots.toList.length ≤ min applied.length room := by
    rw [h.slots, List.length_mapIdx, List.length_take]
    omega
  rw [Trace.events, Array.toList_extract, List.extract_eq_take_drop, hindex, h.capacity,
    List.drop_zero, Nat.sub_zero, List.take_of_length_le hlength, h.slots]

end Trace

end DotLambda
