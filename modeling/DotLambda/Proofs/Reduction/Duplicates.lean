import DotLambda.Proofs.Reduction.Calls
import DotLambda.Proofs.Reduction.Likeness
import DotLambda.Proofs.Reduction.Names

namespace DotLambda

/-!
# Reduction — duplicates and their names

A duplicate is taken in the middle of a call, with the names and the counter that earlier calls have
left.  The table of names may be shorter than the counter by then, because calls skip the identities
of their terms without entering names for them; it is never longer.

* `Reducer.Reachable` — the states of a reducer, between calls and within them;
* `Reducer.Sized.serve`, `Reducer.Reachable.sized` — the table has not got ahead of the counter in
  any of them;
* `Reducer.duplicate_independent` — what a duplicate has in common with the term, and what not.
-/

namespace Reducer

variable {r r' : Reducer} {t t' : Term}

/-- The states that a reducer can be in, after settings and calls in any order and while a call is
    served: all that is between the state in which the identities of the term are skipped and a
    later one up to which the counter does not come around. -/
def Reachable (r : Reducer) : Prop :=
  ∃ calls log r₁, serveAll calls {} = some (log, r₁) ∧ (∀ s ∈ log, s.CountsOn) ∧
    (r = r₁ ∨ ∃ t models, (r₁.skipPast t).Advances models r ∧ (r₁.skipPast t).Unwrapped models)

/-- No setting lets the table get ahead of the counter. -/
theorem Sized.set (h : r.Sized) (setting : Setting) : (setting.apply r).Sized := by
  cases setting with
  | names table => exact le_max_right _ _
  | budget steps => exact h
  | traceOn capacity => exact h
  | traceOff => exact h

/-- The identities of a term are skipped without names for them. -/
theorem Sized.skipPast (h : r.Sized) (t : Term) : (r.skipPast t).Sized :=
  le_trans h (le_max_left _ _)

/-- **One call.** No name is kept for an identity that is not handed out. -/
theorem Sized.serve {call : Call} {reply : Reply} (h : r.Sized)
    (hserve : call.serve r = some (reply, r')) (hcounts : Served.CountsOn ⟨call, r, reply⟩) :
    r'.Sized := by
  rcases Call.serve_cases hserve with ⟨setting, rfl, -, rfl⟩ | ⟨t, t', hterm, -, hadv, -⟩
  · exact h.set setting
  · exact hadv.sized (h.skipPast t) (hcounts t hterm).unwrapped

/-- **All calls.** The table is not ahead of the counter behind them, if it was not before. -/
theorem sized_of_serveAll {calls : List Call} {log : List Served} {r₀ : Reducer} (h₀ : r₀.Sized)
    (h : serveAll calls r₀ = some (log, r)) (hcounts : ∀ s ∈ log, s.CountsOn) : r.Sized :=
  serveAll_induct_of (P := fun _ r => r.Sized) h₀
    (fun _ _ _ _ _ hr hserve hc => hr.serve hserve hc) h hcounts

/-- **Invariant.** No name is kept for an identity that is not handed out. -/
theorem Reachable.sized (h : r.Reachable) : r.Sized := by
  obtain ⟨calls, log, r₁, hall, hcounts, hr⟩ := h
  have h₁ : r₁.Sized := sized_of_serveAll (le_refl _) hall hcounts
  rcases hr with rfl | ⟨t, models, hadv, hu⟩
  · exact h₁
  · exact hadv.sized (h₁.skipPast t) hu

/-- **Duplicates.** The duplicate of a proper term is the term with other binders, and its free
    identities are those of the term.  The binders are the next unused identities, one for each of
    the term's, and each shows as the one that it stands for.  Names that were kept are kept where
    they are, and the table does not get ahead of the counter. -/
theorem duplicate_independent (hr : r.Reachable) (ht : t.Proper)
    (hlow : ∀ i ∈ t.idents, i < r.next) (hroom : r.next + t.binders.length < 2 ^ 63)
    (h : r.duplicate t = (t', r')) :
    Term.Alike (fun i j => r'.names.lookup j = r'.names.lookup i) [] t t' ∧
    t'.frees = t.frees ∧
    t'.binders.Perm ((List.range t.binders.length).map fun k : Nat => r.next + k) ∧
    r'.next = r.next + t.binders.length ∧
    r.names.toList <+: r'.names.toList ∧
    (r'.names.size : Int) ≤ r'.next := by
  have hs := hr.sized
  have hadv := advances_duplicate h
  have hstart : -2 ^ 63 ≤ r.next := by
    have hsize : (r.names.size : Int) ≤ r.next := hs
    lia
  have hu : r.Unwrapped t.models := by
    rw [Unwrapped, Term.length_models]
    exact ⟨hstart, hroom⟩
  have halike := alike_duplicate h ht.toApart hlow hu (hs.pairs hadv hu)
  refine ⟨halike, halike.frees_eq.symm, ?_, ?_, hadv.names_extend.isPrefix, hadv.sized hs hu⟩
  · rw [List.perm_iff_count]
    intro j
    rw [count_binders_duplicate j h, handed, Term.length_models, Ident.run_eq_map hstart hroom]
  · rw [hu.next_eq hadv, Term.length_models]

/-- After a call on the identity 4 the counter is at 5, but the table has names for 0 and 1 only.
    Of the copies of the binders 1 and 4, one shows as `b` and the other as what has no name. -/
theorem duplicate_independent_short_table :
    let t : Term := .abs 1 (.abs 4 (.app 1 [.var 4, .var 0]) .absent) .absent
    ∃ log r t' r', serveAll [.set (.names #["a", "b"]), .step 1 (.var 4)] {} = some (log, r) ∧
      r.Reachable ∧ r.next = 5 ∧ r.names = #["a", "b"] ∧ t.Proper ∧ r.duplicate t = (t', r') ∧
      Term.Alike (fun i j => r'.names.lookup j = r'.names.lookup i) [] t t' ∧
      t'.frees = [0] ∧ t'.binders.Perm [5, 6] ∧ r'.next = 7 ∧
      r'.names.lookup 5 = "b" ∧ r'.names.lookup 6 = Names.placeholder := by
  intro t
  have ht : t.Proper := ⟨⟨by decide, by decide⟩, rfl⟩
  obtain ⟨log, r, hall, hcounts, hnext, hnames, t', r', hdup, hb, hplaceholder⟩ : ∃ log r,
      serveAll [.set (.names #["a", "b"]), .step 1 (.var 4)] {} = some (log, r) ∧
      (∀ s ∈ log, s.CountsOn) ∧ r.next = 5 ∧ r.names = #["a", "b"] ∧
      ∃ t' r', r.duplicate t = (t', r') ∧ r'.names.lookup 5 = "b" ∧
        r'.names.lookup 6 = Names.placeholder := by
    refine ⟨_, _, rfl, ?_, rfl, rfl, _, _, rfl, rfl, rfl⟩
    refine List.forall_mem_cons.mpr ⟨?_, List.forall_mem_singleton.mpr ?_⟩
    · intro t ht
      cases ht
    · intro t ht
      cases ht
      exact ⟨by decide, by decide +kernel⟩
  have hr : r.Reachable := ⟨_, log, r, hall, hcounts, .inl rfl⟩
  obtain ⟨halike, hfrees, hbinders, hnext', -⟩ :=
    duplicate_independent hr ht (by rw [hnext]; decide) (by rw [hnext]; decide) hdup
  rw [hnext] at hbinders hnext'
  exact ⟨log, r, t', r', hall, hr, hnext, hnames, ht, hdup, halike, hfrees, hbinders, hnext', hb,
    hplaceholder⟩

end Reducer

end DotLambda
