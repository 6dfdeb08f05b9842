import DotLambda.Proofs.Reduction.Steps

namespace DotLambda

/-!
# Reduction — applications have arguments

Reduction makes no application without arguments where there was none before.

* `Term.Tidy.supply`, `Term.Tidy.copy`, `Term.Tidy.substitute` — what reduction is made of keeps
  terms tidy;
* `Fires.tidy`, `runAt_tidy` — so do steps and runs.
-/

namespace Term.Tidy

/-- Tidy arguments, as many as before: none are lost on the way. -/
def Each (args args' : List Term) : Prop :=
  (∀ arg ∈ args, arg.Tidy) → (∀ arg ∈ args', arg.Tidy) ∧ (args ≠ [] → args' ≠ [])

theorem Each.nil : Each [] [] :=
  fun h => ⟨h, fun h => h⟩

theorem Each.cons {arg arg' : Term} {args args' : List Term} (harg : arg.Tidy → arg'.Tidy)
    (hargs : Each args args') : Each (arg :: args) (arg' :: args') := by
  intro h
  rw [List.forall_mem_cons] at h
  exact ⟨List.forall_mem_cons.mpr ⟨harg h.1, (hargs h.2).1⟩, fun _ => List.cons_ne_nil _ _⟩

theorem Each.app {id id' : Ident} {args args' : List Term} (h : Each args args')
    (ht : (Term.app id args).Tidy) : (Term.app id' args').Tidy := by
  cases ht with
  | app hne hargs => exact .app ((h hargs).2 hne) (h hargs).1

/-! ### What reduction is made of -/

/-- A tidy term that is supplied with tidy terms is tidy. -/
theorem supply {t : Term} {args : List Term} (ht : t.Tidy) (hargs : ∀ arg ∈ args, arg.Tidy) :
    (t.supply args).Tidy := by
  fun_induction Term.supply t args with
  | case1 t => exact ht
  | case2 => exact .absent
  | case3 id arg args => exact .app (List.cons_ne_nil _ _) hargs
  | case4 id body arg args ih =>
    cases ht with
    | abs hbody _ =>
      rw [List.forall_mem_cons] at hargs
      exact .abs (ih hbody hargs.2) hargs.1
  | case5 id body param arg args _ ih =>
    cases ht with
    | abs hbody hparam => exact .abs (ih hbody hargs) hparam
  | case6 id own arg args =>
    cases ht with
    | app _ hown => exact .app (by simp) (List.forall_mem_append.mpr ⟨hown, hargs⟩)

/-- A copy of a tidy term is tidy. -/
theorem copy {t t' : Term} {c c' : Copying} (h : t.copy c = (t', c')) (ht : t.Tidy) :
    t'.Tidy := by
  refine (Term.copy_induct (P := fun t _ t' _ => t.Tidy → t'.Tidy)
    (Q := fun args _ args' _ => Each args args') ?absent ?var ?abs ?app ?nil ?cons).1 h ht
  case absent => exact fun _ h => h
  case var => exact fun _ _ _ => .var _
  case abs =>
    intro id new body param body' param' c c₁ c₂ c₃ _ _ _ hparam hbody ht
    cases ht with
    | abs htb htp => exact .abs (hbody htb) (hparam htp)
  case app => exact fun hargs ht => hargs.app ht
  case nil => exact fun _ => .nil
  case cons => exact fun _ _ harg hargs => .cons harg hargs

/-- What a use is replaced by is tidy if the value is. -/
theorem take {s s' : Splice} {rule : Rule} {binder : Ident} {w : Term}
    (h : (s.count rule binder).take = (w, s')) (hv : s.value.Tidy) : w.Tidy := by
  rcases Splice.take_cases h with ⟨-, rfl, -⟩ | ⟨-, r', hdup, -⟩
  · exact hv
  · obtain ⟨c', hc, -⟩ := Reducer.copy_of_duplicate hdup
    exact hv.copy hc

/-- Substituting a tidy value leaves a tidy term tidy. -/
theorem substitute {id : Ident} {t t' : Term} {s s' : Splice} (h : t.substitute id s = (t', s'))
    (hv : s.value.Tidy) (ht : t.Tidy) : t'.Tidy := by
  refine (Term.substitute_induct (P := fun t s _ t' _ => s.value.Tidy → t.Tidy → t'.Tidy)
    (Q := fun args s _ args' _ => s.value.Tidy → Each args args')
    ?absent ?site ?other ?rebound ?abs ?head ?app ?nil ?cons).1 h hv ht
  case absent => exact fun _ _ h => h
  case site => exact fun htake hv _ => hv.take htake
  case other => exact fun _ _ h => h
  case rebound =>
    intro body param param' s s' hparam hv ht
    cases ht with
    | abs htb htp => exact .abs htb (hparam hv htp)
  case abs =>
    intro i body param body' param' s s₁ s₂ _ hp _ hparam hbody hv ht
    cases ht with
    | abs htb htp =>
      exact .abs (hbody ((Term.advances_substitute hp).value ▸ hv) htb) (hparam hv htp)
  case head =>
    intro args args' w s s₁ s₂ htake _ hargs hv ht
    cases ht with
    | app _ hold =>
      have hnew := hargs ((Splice.advances_take htake).value ▸ hv) hold
      exact (hv.take htake).supply hnew.1
  case app => exact fun _ hargs hv ht => (hargs hv).app ht
  case nil => exact fun _ _ => .nil
  case cons =>
    intro arg arg' args args' s s₁ s₂ ha _ harg hargs hv
    exact .cons (harg hv) (hargs ((Term.advances_substitute ha).value ▸ hv))

end Term.Tidy

/-! ### Steps and runs -/

/-- A run keeps terms tidy. -/
def RunTidy (t : Term) (_ : Machine) (_ : List Firing) (run : Run) : Prop :=
  t.Tidy → run.term.Tidy

section

variable {R : ParamRunner} (hR : R.Satisfies RunTidy)
include hR

/-- **Steps.** Where runs of parameters keep terms tidy, so do steps. -/
theorem Fires.tidy {t t' : Term} {m m' : Machine} {f : Firing} (h : Fires R t m f t' m')
    (ht : t.Tidy) : t'.Tidy := by
  induction h with
  | redex _ _ hrun hsub =>
    cases ht with
    | abs hbody hparam => exact .substitute hsub (hR _ _ _ hrun hparam) hbody
  | body _ ih =>
    cases ht with
    | abs hbody hparam => exact .abs (ih hbody) hparam
  | @arg id before after arg arg' m m' f _ _ ih =>
    cases ht with
    | app _ hargs =>
      rw [List.forall_mem_append, List.forall_mem_cons] at hargs
      refine .app (by simp) ?_
      rw [List.forall_mem_append, List.forall_mem_cons]
      exact ⟨hargs.1, ih hargs.2.1, hargs.2.2⟩

/-- A chain of steps leaves a tidy term tidy. -/
theorem RunSteps.tidy {t t' : Term} {m m' : Machine} {fs : List Firing}
    (h : RunSteps R t m fs t' m') (ht : t.Tidy) : t'.Tidy := by
  induction h with
  | refl => exact ht
  | head hfires _ ih => exact ih (hfires.tidy hR ht)

end

/-- **Runs.** At every depth and under every budget, a run keeps terms tidy. -/
theorem runAt_tidy {depth budget : Nat} {t : Term} {m : Machine} {run : Run}
    (h : runAt depth budget t m = some run) (ht : t.Tidy) : run.term.Tidy := by
  refine runAt_induct (P := RunTidy) ?_ h ht
  intro R budget t m run hparams hrun ht
  exact (runWith_steps hrun).tidy hparams ht

end DotLambda
