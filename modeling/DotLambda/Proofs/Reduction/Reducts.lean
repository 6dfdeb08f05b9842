import DotLambda.Proofs.Reduction.Steps

namespace DotLambda

/-!
# Reduction — reducts

What one step and a run of steps preserve.  A reduct is β-equivalent to the term, has distinct
binders again, and has no identity that is neither one of the term's nor new.

* `Term.Fits` — a proper term all of whose identities are below the counter;
* `Reduct` — what holds between a term and what a reducer makes of it;
* `Reduct.of_redex` — firing a redex gives a reduct;
* `Fires.reduct`, `RunSteps.reduct`, `runAt_reduct` — so does a step, and so does a run.
-/

open Lambda

/-- A proper term whose identities are all below the counter of the reducer. -/
structure Term.Fits (t : Term) (r : Reducer) : Prop extends t.Proper where
  low : ∀ i ∈ t.idents, i < r.next

namespace Term.Fits

variable {r : Reducer} {id : Ident} {t u : Term}

/-- The body of a binding fits where the binding does. -/
theorem body (h : (Term.abs id t u).Fits r) : t.Fits r where
  toApart := h.toApart.abs.1
  whole := (Term.isWhole_abs.mp h.whole).1
  low := fun i hi => h.low i (List.mem_cons_of_mem _ (List.mem_append_left _ hi))

/-- So does its parameter. -/
theorem param (h : (Term.abs id t u).Fits r) (hu : u.isPresent = true) : u.Fits r where
  toApart := h.toApart.abs.2.1
  whole := (Term.isWhole_abs.mp h.whole).2.resolve_left fun heq => by simp [heq, isPresent] at hu
  low := fun i hi => h.low i (List.mem_cons_of_mem _ (List.mem_append_right _ hi))

/-- And so does an argument of a call. -/
theorem arg {before after : List Term} (h : (Term.app id (before ++ t :: after)).Fits r) :
    t.Fits r where
  toApart := by
    have hargs := h.toApart.app
    rw [List.flatMap_append, List.flatMap_append, List.flatMap_cons, List.flatMap_cons] at hargs
    exact hargs.append.2.1.append.1
  whole := Term.isWhole_app.mp h.whole t (by simp)
  low := fun i hi => h.low i (by simp [Term.idents, hi])

/-- A later state of the reducer has more room. -/
theorem mono {r' : Reducer} (h : t.Fits r) (hle : r.next ≤ r'.next) : t.Fits r' where
  toProper := h.toProper
  low := fun i hi => lt_of_lt_of_le (h.low i hi) hle

end Term.Fits

/-- `t'` is a reduct of `t`, made by a reducer in the state `r` that has handed out identities for
    `models` on the way.  Its binders descend from those of `t`. -/
structure Reduct (t : Term) (r : Reducer) (models : List Ident) (t' : Term) : Prop where
  whole : t'.isWhole = true
  nodup : t'.binders.Nodup
  binders : ∀ i ∈ t'.binders, ∃ b ∈ t.binders, r.Descends models i b
  frees : ∀ i ∈ t'.frees, i ∈ t.frees
  render : ∀ {α : Type} {R : Rendering Ident α}, R.Follows r models → ∀ ρ : Ident → Lambda α,
    Conv (t.render R ρ) (t'.render R ρ)

/-- A part of a list without duplicates may be replaced by new and by old members of it. -/
theorem nodup_replace {l m m' r : List Ident} (h : (l ++ (m ++ r)).Nodup) (hm' : m'.Nodup)
    (hsource : ∀ i ∈ m', i ∈ m ∨ i ∉ l ∧ i ∉ r) : (l ++ (m' ++ r)).Nodup := by
  simp only [List.nodup_append, List.mem_append] at h ⊢
  obtain ⟨hl, ⟨hm, hr, hmr⟩, hlmr⟩ := h
  refine ⟨hl, ⟨hm', hr, ?_⟩, ?_⟩
  · rintro i hi _ hir rfl
    rcases hsource i hi with him | ⟨-, hnr⟩
    · exact hmr i him i hir rfl
    · exact hnr hir
  · rintro i hil j hj rfl
    rcases hj with hj | hj
    · rcases hsource i hj with him | ⟨hnl, -⟩
      · exact hlmr i hil i (.inl him) rfl
      · exact hnl hil
    · exact hlmr i hil i (.inr hj) rfl

namespace Reduct

variable {t t' t'' : Term} {r r' : Reducer} {models models' : List Ident}

/-- A binder of a reduct is one of the term's, or was handed out. -/
theorem origin (h : Reduct t r models t') {i : Ident} (hi : i ∈ t'.binders) :
    i ∈ t.binders ∨ i ∈ r.handed models := by
  obtain ⟨b, hb, hdescends⟩ := h.binders i hi
  rcases hdescends.eq_or_mem_handed with rfl | hnew
  · exact .inl hb
  · exact .inr hnew

/-- A reduct of a proper term is proper: its new binders are above all that is free. -/
theorem proper (h : Reduct t r models t') (ht : t.Fits r) (hu : r.Unwrapped models) :
    t'.Proper where
  nodup := h.nodup
  whole := h.whole
  disjoint := by
    intro i hi hfree
    rcases h.origin hi with hold | hnew
    · exact ht.disjoint i hold (h.frees i hfree)
    · exact not_lt.mpr (hu.next_le hnew) (ht.low i (Term.mem_idents.mpr (.inr (h.frees i hfree))))

/-- A reduct of a term that is below the counter is below the counter. -/
theorem fits (h : Reduct t r models t') (ht : t.Fits r) (hadv : r.Advances models r')
    (hu : r.Unwrapped models) : t'.Fits r' where
  toProper := h.proper ht hu
  low := by
    intro i hi
    have hle := hu.le hadv
    rcases Term.mem_idents.mp hi with hb | hf
    · rcases h.origin hb with hold | hnew
      · exact lt_of_lt_of_le (ht.low i (Term.mem_idents.mpr (.inl hold))) hle
      · exact ((hu.mem_handed hadv).mp hnew).2
    · exact lt_of_lt_of_le (ht.low i (Term.mem_idents.mpr (.inr (h.frees i hf)))) hle

/-- A proper term is a reduct of itself. -/
theorem refl (ht : t.Proper) (r : Reducer) : Reduct t r [] t where
  whole := ht.whole
  nodup := ht.nodup
  binders := fun i hi => ⟨i, hi, .refl⟩
  frees := fun _ hi => hi
  render := fun _ _ => Conv.refl _

/-- A reduct of a reduct is one. -/
theorem trans (h₁ : Reduct t r models t') (hadv : r.Advances models r')
    (h₂ : Reduct t' r' models' t'') : Reduct t r (models ++ models') t'' where
  whole := h₂.whole
  nodup := h₂.nodup
  binders := by
    intro i hi
    obtain ⟨j, hj, hlater⟩ := h₂.binders i hi
    obtain ⟨b, hb, hearlier⟩ := h₁.binders j hj
    exact ⟨b, hb, hlater.trans hadv hearlier⟩
  frees := fun i hi => h₁.frees i (h₂.frees i hi)
  render := fun hR ρ => (h₁.render hR.left ρ).trans (h₂.render (hR.right hadv) ρ)

/-- Of the state, only the counter counts. -/
theorem of_next_eq (h : Reduct t r models t') (hnext : r'.next = r.next) :
    Reduct t r' models t' where
  whole := h.whole
  nodup := h.nodup
  binders := by
    intro i hi
    obtain ⟨b, hb, hdescends⟩ := h.binders i hi
    refine ⟨b, hb, ?_⟩
    rwa [Reducer.Descends, Reducer.handings_congr hnext]
  frees := h.frees
  render := by
    intro α R hR
    rw [Rendering.Follows, Reducer.Pairs, Reducer.handings_congr hnext] at hR
    exact h.render hR

/-- A reduct reads as a β-equivalent term. -/
theorem conv {α : Type} (h : Reduct t r models t') (ρ : Ident → Lambda α) :
    Conv (t.readIn ρ) (t'.readIn ρ) := by
  rw [Term.readIn_eq_render, Term.readIn_eq_render]
  exact h.render (Rendering.plain_follows r models) ρ

/-! ### Steps inside a term -/

/-- A step in the body of an abstraction. -/
theorem of_body {id : Ident} {body body' param : Term} (ht : (Term.abs id body param).Fits r)
    (hu : r.Unwrapped models) (h : Reduct body r models body') :
    Reduct (.abs id body param) r models (.abs id body' param) := by
  have hwhole := Term.isWhole_abs.mp ht.whole
  have hold : ∀ i ∈ (Term.abs id body param).binders, i < r.next := fun i hi =>
    ht.low i (Term.mem_idents.mpr (.inl hi))
  refine ⟨Term.isWhole_abs.mpr ⟨h.whole, hwhole.2⟩, ?_, ?_, ?_, ?_⟩
  · -- New binders are above the counter, and so above the binder and all of the parameter.
    refine nodup_replace (l := [id]) (m := body.binders) ht.nodup h.nodup fun i hi => ?_
    refine (h.origin hi).imp_right fun hnew => ⟨fun hid => ?_, fun hp => ?_⟩
    · rw [List.mem_singleton.mp hid] at hnew
      exact not_lt.mpr (hu.next_le hnew) (hold id (Term.mem_binders_abs.mpr (.inl rfl)))
    · exact not_lt.mpr (hu.next_le hnew) (hold i (Term.mem_binders_abs.mpr (.inr (.inr hp))))
  · intro i hi
    rcases Term.mem_binders_abs.mp hi with hid | hb | hp
    · exact ⟨i, Term.mem_binders_abs.mpr (.inl hid), .refl⟩
    · obtain ⟨b, hb, hdescends⟩ := h.binders i hb
      exact ⟨b, Term.mem_binders_abs.mpr (.inr (.inl hb)), hdescends⟩
    · exact ⟨i, Term.mem_binders_abs.mpr (.inr (.inr hp)), .refl⟩
  · intro i hi
    rw [Term.mem_frees_abs] at hi ⊢
    exact hi.imp_left fun hb => ⟨h.frees i hb.1, hb.2⟩
  · intro α R hR ρ
    exact Term.conv_abs rfl (h.render hR (enter ρ id)) (Conv.refl _)

/-- A step in an argument of an application. -/
theorem of_arg {id : Ident} {before after : List Term} {arg arg' : Term}
    (ht : (Term.app id (before ++ arg :: after)).Fits r) (hu : r.Unwrapped models)
    (h : Reduct arg r models arg') :
    Reduct (.app id (before ++ arg :: after)) r models (.app id (before ++ arg' :: after)) := by
  have hwhole := Term.isWhole_app.mp ht.whole
  have hold : ∀ i ∈ (Term.app id (before ++ arg :: after)).binders, i < r.next := fun i hi =>
    ht.low i (Term.mem_idents.mpr (.inl hi))
  -- Of the arguments, one has been replaced.
  have hmem : ∀ u ∈ before ++ arg' :: after, u = arg' ∨ u ∈ before ++ arg :: after := by
    intro u hu
    simp only [List.mem_append, List.mem_cons] at hu ⊢
    tauto
  refine ⟨Term.isWhole_app.mpr ?_, ?_, ?_, ?_, ?_⟩
  · intro u hu
    rcases hmem u hu with rfl | hu
    · exact h.whole
    · exact hwhole u hu
  · have hnodup := ht.nodup
    simp only [Term.binders, Term.argsBinders_eq, List.flatMap_append, List.flatMap_cons]
      at hnodup hold ⊢
    -- New binders are at or above the counter, and those of the other arguments below it.
    refine nodup_replace hnodup h.nodup fun i hi => ?_
    refine (h.origin hi).imp_right fun hnew => ⟨fun hb => ?_, fun ha => ?_⟩
    · exact not_lt.mpr (hu.next_le hnew) (hold i (List.mem_append_left _ hb))
    · exact not_lt.mpr (hu.next_le hnew)
        (hold i (List.mem_append_right _ (List.mem_append_right _ ha)))
  · intro i hi
    obtain ⟨u, hu, hbinder⟩ := Term.mem_binders_app.mp hi
    rcases hmem u hu with rfl | hu
    · obtain ⟨b, hb, hdescends⟩ := h.binders i hbinder
      exact ⟨b, Term.mem_binders_app.mpr ⟨arg, by simp, hb⟩, hdescends⟩
    · exact ⟨i, Term.mem_binders_app.mpr ⟨u, hu, hbinder⟩, .refl⟩
  · intro i hi
    rw [Term.mem_frees_app] at hi ⊢
    refine hi.imp_right ?_
    rintro ⟨u, hu, hfree⟩
    rcases hmem u hu with rfl | hu
    · exact ⟨arg, by simp, h.frees i hfree⟩
    · exact ⟨u, hu, hfree⟩
  · intro α R hR ρ
    rw [Term.render_app, Term.render_app, List.map_append, List.map_append, List.map_cons,
      List.map_cons, R.apply_append, R.apply_append]
    exact Rendering.conv_apply_left (R.conv_app (Conv.refl _) (h.render hR ρ)) _

/-! ### Firing a redex -/

/-- The reduced parameter may go in for the binder. -/
theorem hosted {id : Ident} {body param value : Term} (ht : (Term.abs id body param).Fits r)
    (h : Reduct param r models value) (hadv : r.Advances models r') (hu : r.Unwrapped models) :
    Splice.Hosted { value, reducer := r' } id body.binders body.idents := by
  obtain ⟨-, -, ⟨hidb, -, -⟩, hbp, hpb⟩ := ht.toApart.abs
  refine ⟨hidb, fun i hi hf => (hbp i hi).2 (h.frees i hf), fun i hi hv => ?_, fun i hi => ?_⟩
  · -- A binder of the value is one of the parameter's, which do not occur in the body, or new.
    rcases h.origin hv with hold | hnew
    · rcases Term.mem_idents.mp hi with hb | hf
      · exact (hbp i hb).1 hold
      · exact hpb i hold hf
    · exact not_lt.mpr (hu.next_le hnew) (ht.body.low i hi)
  · exact lt_of_lt_of_le (ht.body.low i hi) (hu.le hadv)

section

variable {id : Ident} {body param value : Term} (ht : (Term.abs id body param).Fits r)
  (hp : param.isPresent = true) (h : Reduct param r models value) (hadv : r.Advances models r')
include ht hp h hadv

/-- The three sources of the binders that firing leaves have nothing in common: the body, the
    reduced parameter, and what is handed out for its copies. -/
theorem nodup_sources (hu : r.Unwrapped (models ++ models')) :
    (body.binders ++ (value.binders ++ r'.handed models')).Nodup := by
  have hvalue := h.fits (ht.param hp) hadv hu.left
  have hhosted := h.hosted ht hadv hu.left
  have hu' := hu.right hadv
  refine List.nodup_append'.mpr ⟨ht.body.nodup, List.nodup_append'.mpr
    ⟨h.nodup, hu'.nodup_handed, fun i hv hi => ?_⟩, fun i hb hi => ?_⟩
  · exact not_lt.mpr (hu'.next_le hi) (hvalue.low i (Term.mem_idents.mpr (.inl hv)))
  · have hident : i ∈ body.idents := Term.mem_idents.mpr (.inl hb)
    rcases List.mem_append.mp hi with hv | hi
    · exact hhosted.separate i hident hv
    · exact not_lt.mpr (hu'.next_le hi) (hhosted.low i hident)

/-- What is handed out for copies of the reduced parameter descends from its binders. -/
theorem descends_of_copied {copies : Nat}
    (hu : r.Unwrapped (models ++ value.copyModels copies)) {i : Ident}
    (hi : i ∈ r'.handed (value.copyModels copies)) :
    ∃ b ∈ param.binders, r.Descends (models ++ value.copyModels copies) i b := by
  obtain ⟨j, hj, hpair⟩ := Reducer.exists_handing hi
  have hvalue := h.fits (ht.param hp) hadv hu.left
  have hbinder := Term.mem_copyModels hj
  have hlow : j < i := lt_of_lt_of_le (hvalue.low j (Term.mem_idents.mpr (.inl hbinder)))
    ((hu.right hadv).next_le hi)
  obtain ⟨b, hb, hdescends⟩ := h.binders j hbinder
  exact ⟨b, hb, Reducer.Descends.trans (.single ⟨hpair, hlow⟩) hadv hdescends⟩

/-- **Firing.** Putting the reduced parameter of a redex in for its binder gives a reduct. -/
theorem of_redex {s' : Splice} (hsub : body.substitute id { value, reducer := r' } = (t', s'))
    (hunwrapped : r.Unwrapped (models ++ value.copyModels ((body.sites id).length - 1))) :
    Reduct (.abs id body param) r (models ++ value.copyModels ((body.sites id).length - 1)) t' := by
  have hu := hunwrapped.right hadv
  have hvalue := h.fits (ht.param hp) hadv hunwrapped.left
  have hready : Splice.Ready { value, reducer := r' } := ⟨hvalue.toProper, hvalue.low⟩
  have hhosted := h.hosted ht hadv hunwrapped.left
  have hperm := Term.binders_substitute_perm hsub hvalue.whole
  -- A binder that is not used leaves the value out, so that some of the sources may be missing.
  have hgiven : (body.binders ++ Splice.given { value, reducer := r' } (body.sites id)).Sublist
      (body.binders ++ (value.binders ++
        r'.handed (value.copyModels ((body.sites id).length - 1)))) :=
    (Splice.given_sublist _ _).append_left _
  have hsources := h.nodup_sources ht hp hadv hunwrapped
  refine ⟨(Term.keepsParts_substitute hsub hvalue.whole).2 ht.body.whole,
    hperm.nodup_iff.mpr (hsources.sublist hgiven), ?_, ?_, ?_⟩
  · intro i hi
    have hi := hgiven.subset (hperm.mem_iff.mp hi)
    rw [List.mem_append, List.mem_append] at hi
    rcases hi with hb | hv | hnew
    · exact ⟨i, Term.mem_binders_abs.mpr (.inr (.inl hb)), .refl⟩
    · obtain ⟨b, hb, hdescends⟩ := h.binders i hv
      exact ⟨b, Term.mem_binders_abs.mpr (.inr (.inr hb)), hdescends.left _⟩
    · obtain ⟨b, hb, hdescends⟩ := h.descends_of_copied ht hp hadv hunwrapped hnew
      exact ⟨b, Term.mem_binders_abs.mpr (.inr (.inr hb)), hdescends⟩
  · intro i hi
    rw [Term.mem_frees_abs]
    exact (Term.mem_frees_substitute hsub hready hu hi).imp_right (h.frees i)
  · -- Reduce the parameter, contract, and read the substitution back.
    intro α R hR ρ
    have hpresent := Term.isPresent_of_isWhole hvalue.whole
    have hreduced : Conv ((Term.abs id body param).render R ρ)
        ((Term.abs id body value).render R ρ) :=
      Term.conv_abs (by rw [hp, hpresent]) (Conv.refl _) (h.render hR.left ρ)
    have hfired := Term.render_redex hpresent id body ρ (R := R)
    have hresult :=
      Term.render_substitute hsub hready hhosted ht.body.whole hu (hR.right hadv) ρ
    exact hreduced.trans (hfired.trans hresult.symm)

end

end Reduct

/-! ### Steps and runs -/

/-- A run leads to a reduct. -/
structure RunReduct (t : Term) (m : Machine) (fs : List Firing) (run : Run) : Prop where
  advances : RunAdvances t m fs run
  reduct : t.Fits m.toReducer → m.toReducer.Unwrapped (Firing.modelsAll fs) →
    Reduct t m.toReducer (Firing.modelsAll fs) run.term

/-- The run of a parameter with the counting before it, which leaves the counter alone. -/
theorem RunReduct.ofParam {param : Term} {m : Machine} {fs : List Firing} {run : Run} {id : Ident}
    (h : RunReduct param (m.beforeParam id) fs run) (ht : param.Fits m.toReducer)
    (hu : m.toReducer.Unwrapped (Firing.modelsAll fs)) :
    Reduct param m.toReducer (Firing.modelsAll fs) run.term :=
  (h.reduct (ht.mono (le_refl m.next)) hu).of_next_eq rfl

/-- Runs that give reducts advance the reducer. -/
theorem ParamRunner.Satisfies.advances {R : ParamRunner} (hR : R.Satisfies RunReduct) :
    R.Satisfies RunAdvances :=
  fun p m run hp => (hR p m run hp).advances

section

variable {R : ParamRunner} (hR : R.Satisfies RunReduct)
include hR

/-- **Steps.** Where runs of parameters lead to reducts, so do steps. -/
theorem Fires.reduct {t t' : Term} {m m' : Machine} {f : Firing} (h : Fires R t m f t' m')
    (ht : t.Fits m.toReducer) (hu : m.toReducer.Unwrapped f.models) :
    Reduct t m.toReducer f.models t' := by
  induction h with
  | redex _ hparam hrun hsub =>
    have hparamRun := hR _ _ _ hrun
    exact .of_redex ht hparam (hparamRun.ofParam (ht.param hparam) hu.left)
      hparamRun.advances.around hsub hu
  | body _ ih => exact .of_body ht hu (ih ht.body hu)
  | arg _ _ ih => exact .of_arg ht hu (ih ht.arg hu)

/-- A chain of steps leads to a reduct. -/
theorem RunSteps.reduct {t t' : Term} {m m' : Machine} {fs : List Firing}
    (h : RunSteps R t m fs t' m') (ht : t.Fits m.toReducer)
    (hu : m.toReducer.Unwrapped (Firing.modelsAll fs)) :
    Reduct t m.toReducer (Firing.modelsAll fs) t' := by
  induction h with
  | refl => exact .refl ht.toProper _
  | @head t t' t'' m m' m'' f fs number hfires _ ih =>
    have hadv := (hfires.advances hR.advances).tail (m'.advances_stepped number t')
    have hfirst := hfires.reduct hR ht hu.left
    exact hfirst.trans hadv (ih (hfirst.fits ht hadv hu.left) (hu.right hadv))

end

/-- **Runs.** At every depth and under every budget, a run leads to a reduct. -/
theorem runAt_reduct {depth budget : Nat} {t : Term} {m : Machine} {run : Run}
    (h : runAt depth budget t m = some run) : RunReduct t m (firingsAt depth budget t m) run := by
  refine runAt_induct (P := RunReduct) ?_ h
  intro R budget t m run hparams hrun
  have hsteps := runWith_steps hrun
  exact ⟨hsteps.advances hparams.advances, fun ht hu => hsteps.reduct hparams ht hu⟩

theorem ParamRunner.ofDepth_reduct (depth : Nat) : (ofDepth depth).Satisfies RunReduct :=
  fun _ _ _ h => runAt_reduct h

end DotLambda
