import DotLambda.Proofs.Lambda.Rendering
import DotLambda.Proofs.Term.Identities

namespace DotLambda

/-!
# Terms — renderings

A term written as a plain λ-term: a variable or head is what its identity stands for, an
abstraction is one with the identity of its binder as the key, a parameter makes it a redex, and an
application takes its arguments from left to right.

* `Term.render` — the term in a rendering and an environment;
* `Term.render_congr` — it depends on the binders and on what the free identities stand for;
* `Term.render_redex` — firing a redex is putting its parameter into the environment;
* `Term.render_supply` — supplying arguments is application;
* `Term.normal_render` — an irreducible term is written as a normal form.
-/

namespace Term

open Lambda

variable {α : Type}

mutual

/-- The term in an environment.  A missing part means nothing; the identity function stands in
    for it. -/
def render (R : Rendering Ident α) : Term → (Ident → Lambda α) → Lambda α
  | absent, _ => .lam (.bound 0)
  | var id, ρ => ρ id
  | abs id body param, ρ =>
    if param.isPresent then R.app (R.lam id (render R body (enter ρ id))) (render R param ρ)
    else R.lam id (render R body (enter ρ id))
  | app id args, ρ => R.apply (ρ id) (renderArgs R args ρ)

/-- The arguments of an application in an environment. -/
def renderArgs (R : Rendering Ident α) : List Term → (Ident → Lambda α) → List (Lambda α)
  | [], _ => []
  | arg :: args, ρ => render R arg ρ :: renderArgs R args ρ

end

variable {R : Rendering Ident α}

@[simp] theorem renderArgs_eq (args : List Term) (ρ : Ident → Lambda α) :
    renderArgs R args ρ = args.map (render R · ρ) := by
  induction args with
  | nil => rfl
  | cons arg args ih => rw [renderArgs, ih, List.map_cons]

theorem render_app (id : Ident) (args : List Term) (ρ : Ident → Lambda α) :
    (app id args).render R ρ = R.apply (ρ id) (args.map (render R · ρ)) := by
  rw [render, renderArgs_eq]

theorem render_abs_absent (id : Ident) (body : Term) (ρ : Ident → Lambda α) :
    (abs id body absent).render R ρ = R.lam id (body.render R (enter ρ id)) := by
  rw [render]
  exact if_neg Bool.false_ne_true

theorem render_abs_present {param : Term} (hp : param.isPresent = true) (id : Ident) (body : Term)
    (ρ : Ident → Lambda α) : (abs id body param).render R ρ
      = R.app (R.lam id (body.render R (enter ρ id))) (param.render R ρ) := by
  rw [render, if_pos hp]

/-! ### Environments -/

/-- Abstractions whose binders, bodies and parameters are written alike. -/
theorem render_abs_congr {R' : Rendering Ident α} {id id' : Ident} {body body' param param' : Term}
    {ρ ρ' : Ident → Lambda α} (happ : R.app = R'.app) (hlam : R.lam id = R'.lam id')
    (hpresent : param.isPresent = param'.isPresent)
    (hbody : body.render R (enter ρ id) = body'.render R' (enter ρ' id'))
    (hparam : param.render R ρ = param'.render R' ρ') :
    (abs id body param).render R ρ = (abs id' body' param').render R' ρ' := by
  rw [render, render, happ, hlam, hpresent, hbody, hparam]

/-- How a term is written depends on how its binders are, on what its free identities stand for,
    and on nothing else. -/
theorem render_congr {R' : Rendering Ident α} (happ : R.app = R'.app) {t : Term}
    {ρ ρ' : Ident → Lambda α} (hlam : ∀ i ∈ t.binders, R.lam i = R'.lam i)
    (h : ∀ i ∈ t.frees, ρ i = ρ' i) : t.render R ρ = t.render R' ρ' := by
  induction t generalizing ρ ρ' with
  | absent => rfl
  | var id => exact h id (by simp)
  | abs id body param ihb ihp =>
    refine render_abs_congr happ (hlam id (mem_binders_abs.mpr (.inl rfl))) rfl ?_ ?_
    · -- The binder's own identity means its variable in both environments.
      refine ihb (fun i hi => hlam i (mem_binders_abs.mpr (.inr (.inl hi)))) fun i hi => ?_
      by_cases hid : i = id
      · rw [hid, enter_self, enter_self]
      · rw [enter_of_ne _ hid, enter_of_ne _ hid, h i (mem_frees_abs.mpr (.inl ⟨hi, hid⟩))]
    · exact ihp (fun i hi => hlam i (mem_binders_abs.mpr (.inr (.inr hi)))) fun i hi =>
        h i (mem_frees_abs.mpr (.inr hi))
  | app id args ih =>
    have hargs : args.map (render R · ρ) = args.map (render R' · ρ') :=
      List.map_congr_left fun arg harg =>
        ih arg harg (fun i hi => hlam i (mem_binders_app.mpr ⟨arg, harg, hi⟩)) fun i hi =>
          h i (mem_frees_app.mpr (.inr ⟨arg, harg, hi⟩))
    rw [render_app, render_app, hargs, h id (mem_frees_app.mpr (.inl rfl)), Rendering.apply,
      Rendering.apply, happ]

/-- Binders with the same signs are written alike. -/
theorem render_signed_congr {sign sign' : Ident → α} {t : Term}
    (h : ∀ i ∈ t.binders, sign i = sign' i) (ρ : Ident → Lambda α) :
    t.render (.signed sign) ρ = t.render (.signed sign') ρ := by
  have happ : (Rendering.signed sign).app = (Rendering.signed sign').app := rfl
  refine render_congr happ (fun i hi => ?_) fun _ _ => rfl
  funext b
  exact congrArg (Rendering.pair · (.lam b)) (h i hi)

/-- Substituting in a rendered term is rendering it with substituted identities. -/
theorem render_subst (t : Term) (ρ : Ident → Lambda α) (σ : Nat → Lambda α) :
    (t.render R ρ).subst σ = t.render R (fun i => (ρ i).subst σ) := by
  induction t generalizing ρ σ with
  | absent => rfl
  | var id => rfl
  | abs id body param ihb ihp =>
    rw [render, render, apply_ite (subst σ), R.app_subst, R.lam_subst, ihb, ihp, enter_subst]
  | app id args ih =>
    rw [render_app, render_app, R.apply_subst, List.map_map]
    congr 1
    exact List.map_congr_left fun arg harg => ih arg harg ρ σ

/-- Below a binder that does not occur free in it, a term means what it means outside. -/
theorem render_enter {t : Term} {id : Ident} (h : id ∉ t.frees) (ρ : Ident → Lambda α) :
    t.render R (enter ρ id) = (t.render R ρ).shift := by
  rw [shift, rename_eq_subst, render_subst]
  refine render_congr rfl (fun _ _ => rfl) fun i hi => ?_
  have hne : i ≠ id := fun heq => h (heq ▸ hi)
  rw [enter_of_ne ρ hne, shift, rename_eq_subst]

/-- **Redex.** A redex is equivalent to its body, with what the parameter means entered for the
    binder. -/
theorem render_redex {param : Term} (hp : param.isPresent = true) (id : Ident) (body : Term)
    (ρ : Ident → Lambda α) :
    Conv ((abs id body param).render R ρ)
      (body.render R (Function.update ρ id (param.render R ρ))) := by
  have hinst := render_subst body (enter ρ id) (point (param.render R ρ)) (R := R)
  rw [show (fun i => (enter ρ id i).subst (point (param.render R ρ)))
      = Function.update ρ id (param.render R ρ) from enter_inst ρ id _] at hinst
  rw [render_abs_present hp, ← hinst]
  exact R.redex id _ _

/-- An abstraction means the same if its body and its parameter do. -/
theorem conv_abs {id : Ident} {body body' param param' : Term} {ρ ρ' : Ident → Lambda α}
    (hpresent : param'.isPresent = param.isPresent)
    (hbody : Conv (body.render R (enter ρ id)) (body'.render R (enter ρ' id)))
    (hparam : Conv (param.render R ρ) (param'.render R ρ')) :
    Conv ((abs id body param).render R ρ) ((abs id body' param').render R ρ') := by
  rw [render, render, hpresent]
  split
  · exact R.conv_app (R.conv_lam id hbody) hparam
  · exact R.conv_lam id hbody

/-! ### Supplying arguments -/

/-- Arguments that went below a binder not free in them may as well stand behind the redex. -/
theorem conv_supplied {id : Ident} {supplied : Lambda α} {body : Lambda α} {args : List Term}
    {ρ : Ident → Lambda α} (hfree : ∀ arg ∈ args, id ∉ arg.frees)
    (h : Conv supplied (R.apply body (args.map (render R · (enter ρ id))))) (p : Lambda α) :
    Conv (R.app (R.lam id supplied) p)
      (R.apply (R.app (R.lam id body) p) (args.map (render R · ρ))) := by
  have hargs : args.map (render R · (enter ρ id)) = (args.map (render R · ρ)).map shift := by
    rw [List.map_map]
    exact List.map_congr_left fun arg harg => render_enter (hfree arg harg) ρ
  rw [hargs] at h
  exact (R.conv_app (R.conv_lam id h) (Conv.refl p)).trans (Rendering.conv_supplied id body p _)

/-- **Supply.** A term supplied with arguments means the term applied to them, provided that
    none of its binders occurs free in them: the arguments end up below those binders. -/
theorem render_supply {t : Term} {args : List Term} (hw : t.isWhole = true)
    (hargs : ∀ arg ∈ args, arg.isPresent = true)
    (hfree : ∀ i ∈ t.binders, ∀ arg ∈ args, i ∉ arg.frees) (ρ : Ident → Lambda α) :
    Conv ((t.supply args).render R ρ) (R.apply (t.render R ρ) (args.map (render R · ρ))) := by
  fun_induction supply t args generalizing ρ with
  | case1 t => exact Conv.refl _
  | case2 => exact absurd hw (by simp [isWhole])
  | case3 id arg args =>
    rw [render_app]
    exact Conv.refl _
  | case4 id body arg args ih =>
    -- The first argument becomes the parameter, the others go into the body.
    rw [isWhole_abs] at hw
    have hin := ih hw.1 (fun a ha => hargs a (List.mem_cons_of_mem _ ha)) (fun i hi a ha =>
      hfree i (mem_binders_abs.mpr (.inr (.inl hi))) a (List.mem_cons_of_mem _ ha)) (enter ρ id)
    rw [render_abs_present (hargs arg List.mem_cons_self), render_abs_absent]
    exact conv_supplied (fun a ha =>
      hfree id (mem_binders_abs.mpr (.inl rfl)) a (List.mem_cons_of_mem _ ha)) hin _
  | case5 id body param arg args hparam ih =>
    -- The redex keeps its parameter, and all arguments go into the body.
    rw [isWhole_abs] at hw
    have hin := ih hw.1 hargs (fun i hi => hfree i (mem_binders_abs.mpr (.inr (.inl hi))))
      (enter ρ id)
    have hpresent := isPresent_of_isWhole (hw.2.resolve_left fun h => hparam h)
    rw [render_abs_present hpresent, render_abs_present hpresent]
    exact conv_supplied (hfree id (mem_binders_abs.mpr (.inl rfl))) hin _
  | case6 id own arg args =>
    rw [render_app, render_app, List.map_append, R.apply_append]
    exact Conv.refl _

/-! ### Normal forms -/

/-- Arguments are in normal form if each of them is. -/
theorem argsReducible_eq_false {args : List Term} :
    argsReducible args = false ↔ ∀ arg ∈ args, arg.reducible = false := by
  induction args with
  | nil => simp [argsReducible]
  | cons arg args ih => simp [argsReducible, ih]

/-- **Normal forms.** A whole term to which no step applies is written as a normal form, as long as
    identities stand for variables and atoms. -/
theorem normal_render {t : Term} (hw : t.isWhole = true) (hr : t.reducible = false)
    {ρ : Ident → Lambda α} (hρ : ∀ i, (ρ i).IsName) : Normal (t.render R ρ) := by
  induction t generalizing ρ with
  | absent => exact absurd hw (by simp [isWhole])
  | var id => exact (hρ id).neutral.1
  | abs id body param ihb _ =>
    simp only [reducible, Bool.or_eq_false_iff] at hr
    rw [eq_absent_of_not_isPresent hr.1, render_abs_absent]
    exact R.normal_lam id (ihb (isWhole_abs.mp hw).1 hr.2 (IsName.enter hρ id))
  | app id args ih =>
    -- The head is a variable or an atom, so applying it makes no redex.
    rw [reducible, argsReducible_eq_false] at hr
    rw [isWhole_app] at hw
    rw [render_app]
    refine (Rendering.neutral_apply (hρ id).neutral ?_).1
    intro a ha
    obtain ⟨arg, harg, rfl⟩ := List.mem_map.mp ha
    exact ih arg harg (hw arg harg) (hr arg harg) hρ

end Term

end DotLambda
