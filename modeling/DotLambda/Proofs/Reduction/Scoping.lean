import DotLambda.Proofs.Reading.Scopes
import DotLambda.Proofs.Reduction.Calls
import Mathlib

namespace DotLambda

/-!
# Reduction — identities along calls

One reducer may be asked for many steps and reductions, on a program and on whatever it has
returned before, with settings changed in between.  Identities keep their roles through all of
it.

* `OnReturned` — calls on a program and on what was returned for it;
* `Keeps.serve` — what every call preserves;
* `returned_terms_are_scoped` — what therefore holds of all that is returned for a program.
-/

open Reducer (Call Served serveAll)

/-! ### Calls on what was returned -/

/-- The terms that were returned. -/
def returned (log : List Served) : List Term :=
  log.filterMap fun s => s.reply.term?

/-- What the last call returned comes last. -/
theorem returned_concat (log : List Served) (s : Served) :
    returned (log ++ [s]) = returned log ++ s.reply.term?.toList := by
  cases hterm : s.reply.term? with
  | none => simp [returned, hterm]
  | some t => simp [returned, hterm]

/-- Each call about a term is about `t₀` or about a term that was returned before. -/
def OnReturned (t₀ : Term) (log : List Served) : Prop :=
  ∀ earlier s, earlier ++ [s] <+: log → ∀ t, s.call.term? = some t → t ∈ t₀ :: returned earlier

/-- No calls are calls on what was returned. -/
theorem OnReturned.nil (t₀ : Term) : OnReturned t₀ [] := by
  intro earlier s hlog
  simp at hlog

/-- The last call is on what was there before it. -/
theorem onReturned_concat {t₀ : Term} {log : List Served} {s : Served} :
    OnReturned t₀ (log ++ [s]) ↔
      OnReturned t₀ log ∧ ∀ t, s.call.term? = some t → t ∈ t₀ :: returned log := by
  constructor
  · intro h
    exact ⟨fun earlier s hlog => h earlier s (hlog.trans (List.prefix_append _ _)),
      h log s List.prefix_rfl⟩
  · rintro ⟨hlog, hlast⟩ earlier s' h
    rcases List.prefix_concat_iff.mp h with heq | hbefore
    · obtain ⟨rfl, rfl⟩ := List.append_singleton_inj.mp heq
      exact hlast
    · exact hlog earlier s' hbefore

/-! ### What calls preserve -/

/-- A term that keeps the roles that identities have in `t₀`, below the counter. -/
structure Keeps (t₀ : Term) (r : Reducer) (t : Term) : Prop extends t.Fits r where
  frees : ∀ i ∈ t.frees, i ∈ t₀.frees

/-- What is kept stays kept while the counter goes on. -/
theorem Keeps.mono {t₀ t : Term} {r r' : Reducer} (h : Keeps t₀ r t) (hle : r.next ≤ r'.next) :
    Keeps t₀ r' t where
  toFits := h.toFits.mono hle
  frees := h.frees

/-- No setting moves the counter back. -/
theorem Reducer.Setting.next_le (setting : Setting) (r : Reducer) :
    r.next ≤ (setting.apply r).next := by
  cases setting with
  | names table => exact le_max_left _ _
  | budget steps => exact le_refl _
  | traceOn capacity => exact le_refl _
  | traceOff => exact le_refl _

/-- **One call.** Where the terms returned before keep the roles, they still do after a call on one
    of them or on the program, and so does what it returns. -/
theorem Keeps.serve {t₀ : Term} {r r' : Reducer} {log : List Served} {call : Call}
    {reply : Reducer.Reply} (h₀ : t₀.Proper) (hkept : ∀ t ∈ returned log, Keeps t₀ r t)
    (h : call.serve r = some (reply, r'))
    (hcall : ∀ t, call.term? = some t → t ∈ t₀ :: returned log)
    (hcounts : Served.CountsOn ⟨call, r, reply⟩) :
    ∀ t ∈ returned (log ++ [⟨call, r, reply⟩]), Keeps t₀ r' t := by
  rw [returned_concat]
  rcases Call.serve_cases h with ⟨setting, rfl, rfl, rfl⟩ | ⟨t, t', hterm, hreply, hadv, hreduct⟩
  · intro u hu
    rw [show (Reducer.Reply.done).term?.toList = [] from rfl, List.append_nil] at hu
    exact (hkept u hu).mono (setting.next_le r)
  · have hc := hcounts t hterm
    -- Nothing is known of the counter and the program itself; the call skips its identities.
    have hproper : t.Proper ∧ ∀ i ∈ t.frees, i ∈ t₀.frees := by
      rcases List.mem_cons.mp (hcall t hterm) with rfl | hold
      · exact ⟨h₀, fun _ hi => hi⟩
      · exact ⟨(hkept t hold).toProper, (hkept t hold).frees⟩
    have hred := hreduct hproper.1 hc
    have hnew : Keeps t₀ r' t' :=
      ⟨hred.fits (hc.fits hproper.1) hadv hc.unwrapped, fun i hi => hproper.2 i (hred.frees i hi)⟩
    intro u hu
    rw [show (Served.mk call r reply).reply.term?.toList = [t'] by rw [hreply]; rfl,
      List.mem_append, List.mem_singleton] at hu
    rcases hu with hu | rfl
    · exact (hkept u hu).mono (le_trans (le_max_left _ _) (hc.unwrapped.le hadv))
    · exact hnew

/-- **Scoping.** Whatever calls on one reducer return for a program, also where a reduction is
    given up, has distinct binders, none of which is also free in it; it has no free identity that
    the program has not; and all its identities are below the counter.  The calls are on the
    program and on what they have returned before, between them settings may be changed, and none
    brings the counter around. -/
theorem returned_terms_are_scoped {text : List Char} {t₀ : Term} {names : Names}
    (hparse : parse text = .ok (t₀, names)) {r₀ r : Reducer} {calls : List Call}
    {log : List Served} (h : serveAll calls r₀ = some (log, r)) (hcalls : OnReturned t₀ log)
    (hcounts : ∀ s ∈ log, s.CountsOn) :
    ∀ t ∈ returned log, t.binders.Nodup ∧ (∀ i ∈ t.binders, i ∉ t.frees) ∧
      (∀ i ∈ t.frees, i ∈ t₀.frees) ∧ ∀ i ∈ t.idents, i < r.next := by
  have hkept : ∀ t ∈ returned log, Keeps t₀ r t := by
    refine Reducer.serveAll_induct_of
      (P := fun log r => OnReturned t₀ log → ∀ t ∈ returned log, Keeps t₀ r t) ?start ?serve h
      hcounts hcalls
    case start => exact fun _ t ht => absurd ht List.not_mem_nil
    case serve =>
      intro log r call reply r' ih hserve hcounts hcalls
      rw [onReturned_concat] at hcalls
      exact Keeps.serve (proper_of_parse hparse) (ih hcalls.1) hserve hcalls.2 hcounts
  intro t ht
  exact ⟨(hkept t ht).nodup, (hkept t ht).disjoint, (hkept t ht).frees, (hkept t ht).low⟩

/-- `x(x.x).y(z(y.z))` with its names kept: a step copies the parameter, and the reduction of what
    it returns goes on with the copy. -/
theorem returned_terms_are_scoped_copied :
    let t₀ : Term := .abs 2 (.app 2 [.var 2]) (.abs 0 (.abs 1 (.app 0 [.var 1]) .absent) .absent)
    let t₁ : Term := .abs 0 (.abs 1 (.app 0 [.var 1]) .absent)
      (.abs 3 (.abs 4 (.app 3 [.var 4]) .absent) .absent)
    let t₂ : Term := .abs 1 (.abs 4 (.app 1 [.var 4]) .absent) .absent
    parse "x(x.x).y(z(y.z))".toList = .ok (t₀, #["y", "z", "x"]) ∧
      ∃ log r, serveAll [.set (.names #["y", "z", "x"]), .step 1 t₀, .normalize 2 10 t₁] {}
          = some (log, r) ∧ OnReturned t₀ log ∧ (∀ s ∈ log, s.CountsOn) ∧
        returned log = [t₁, t₂] ∧ t₂.binders.Nodup ∧ ∀ i ∈ t₂.idents, i < r.next := by
  intro t₀ t₁ t₂
  have hparse : parse "x(x.x).y(z(y.z))".toList = .ok (t₀, #["y", "z", "x"]) := by
    cbv
  obtain ⟨log, r, h, hcalls, hcounts, hreturned⟩ : ∃ log r,
      serveAll [.set (.names #["y", "z", "x"]), .step 1 t₀, .normalize 2 10 t₁] {}
          = some (log, r) ∧ OnReturned t₀ log ∧ (∀ s ∈ log, s.CountsOn) ∧
        returned log = [t₁, t₂] := by
    -- The step is on the parsed term, and the reduction on what the step returned.
    refine ⟨_, _, rfl, ?_, ?_, rfl⟩
    · refine onReturned_concat.mpr ⟨onReturned_concat.mpr ⟨onReturned_concat.mpr
        ⟨.nil t₀, ?_⟩, ?_⟩, ?_⟩
      · intro t ht
        cases ht
      · intro t ht
        cases ht
        exact List.mem_cons_self
      · intro t ht
        cases ht
        exact List.mem_cons_of_mem _ List.mem_cons_self
    · refine List.forall_mem_cons.mpr ⟨?_, List.forall_mem_cons.mpr ⟨?_,
        List.forall_mem_singleton.mpr ?_⟩⟩
      · intro t ht
        cases ht
      · intro t ht
        cases ht
        exact ⟨by decide, by decide +kernel⟩
      · intro t ht
        cases ht
        exact ⟨by decide, by decide +kernel⟩
  obtain ⟨hnodup, -, -, hlow⟩ := returned_terms_are_scoped hparse h hcalls hcounts t₂
    (by rw [hreturned]; exact List.mem_cons_of_mem _ List.mem_cons_self)
  exact ⟨hparse, log, r, h, hcalls, hcounts, hreturned, hnodup, hlow⟩

end DotLambda
