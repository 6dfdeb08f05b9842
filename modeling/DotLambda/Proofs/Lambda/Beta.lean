import DotLambda.Proofs.Lambda.Syntax
import Mathlib.Data.List.Forall2
import Mathlib.Logic.Relation

namespace DotLambda

/-!
# Plain λ-terms — β-conversion

β-reduction as the compatible closure of contraction, its equivalence closure, and confluence.

* `Lambda.Beta` — one contraction anywhere in a term;
* `Lambda.Conv` — β-equivalence;
* `Lambda.Normal` — terms without a redex;
* `Lambda.Regroup` — the part of β-equivalence that only moves arguments under binders;
* `Lambda.Conv.eq_of_normal` — a β-equivalence class has at most one normal form.

The last one is the Church–Rosser theorem in the form that is used.  It goes by parallel
reduction and complete developments: `Lambda.Par.develop` is the triangle property.
-/

namespace Lambda

variable {α : Type}

/-! ### Reduction and conversion -/

/-- One contraction anywhere in a term. -/
inductive Beta : Lambda α → Lambda α → Prop where
  | redex (body a : Lambda α) : Beta (app (lam body) a) (body.inst a)
  | lam {b b' : Lambda α} (h : Beta b b') : Beta (lam b) (lam b')
  | fn {f f' : Lambda α} (h : Beta f f') (a : Lambda α) : Beta (app f a) (app f' a)
  | arg (f : Lambda α) {a a' : Lambda α} (h : Beta a a') : Beta (app f a) (app f a')

/-- β-equivalence. -/
def Conv : Lambda α → Lambda α → Prop :=
  Relation.EqvGen Beta

/-- No contraction applies. -/
def Normal (t : Lambda α) : Prop :=
  ∀ u, ¬ Beta t u

namespace Conv

/-- Every term is equivalent to itself. -/
theorem refl (t : Lambda α) : Conv t t :=
  Relation.EqvGen.refl t

/-- Equivalence does not depend on the order of the terms. -/
theorem symm {t u : Lambda α} (h : Conv t u) : Conv u t :=
  Relation.EqvGen.symm _ _ h

/-- Equivalence goes from term to term. -/
theorem trans {t u v : Lambda α} (h₁ : Conv t u) (h₂ : Conv u v) : Conv t v :=
  Relation.EqvGen.trans _ _ _ h₁ h₂

/-- A redex and what it contracts to are equivalent. -/
theorem redex (body a : Lambda α) : Conv (app (.lam body) a) (body.inst a) :=
  .rel _ _ (.redex body a)

/-- Conversion passes through every function that contraction passes through. -/
theorem map {f : Lambda α → Lambda α} (hf : ∀ {t u}, Beta t u → Beta (f t) (f u))
    {t u : Lambda α} (h : Conv t u) : Conv (f t) (f u) := by
  induction h with
  | rel t u h => exact .rel _ _ (hf h)
  | refl t => exact refl _
  | symm t u _ ih => exact ih.symm
  | trans t u v _ _ ih₁ ih₂ => exact ih₁.trans ih₂

/-- Equivalence holds under a binder. -/
theorem lam {b b' : Lambda α} (h : Conv b b') : Conv (.lam b) (.lam b') :=
  h.map .lam

/-- Equivalent functions on equivalent arguments are equivalent. -/
theorem app {f f' a a' : Lambda α} (hf : Conv f f') (ha : Conv a a') :
    Conv (.app f a) (.app f' a') :=
  (hf.map (.fn · a)).trans (ha.map (.arg f'))

end Conv

/-- A substitution takes contractions to contractions. -/
theorem Beta.subst {t u : Lambda α} (h : Beta t u) (σ : Nat → Lambda α) :
    Beta (t.subst σ) (u.subst σ) := by
  induction h generalizing σ with
  | redex body a =>
    rw [inst_subst]
    exact .redex _ _
  | lam _ ih => exact .lam (ih _)
  | fn _ a ih => exact .fn (ih σ) _
  | arg f _ ih => exact .arg _ (ih σ)

/-- Steps can be made under one more binder. -/
theorem Beta.shift {t u : Lambda α} (h : Beta t u) : Beta t.shift u.shift := by
  rw [Lambda.shift, Lambda.shift, rename_eq_subst, rename_eq_subst]
  exact h.subst _

/-! ### Regrouping -/

/-- Terms that differ only in where the arguments of redexes stand: behind the redex, or under its
    binder, where they do not see its variable.  All arguments are there on both sides, each once
    and in the same order. -/
inductive Regroup : Lambda α → Lambda α → Prop where
  | refl (t : Lambda α) : Regroup t t
  | symm {t u : Lambda α} (h : Regroup t u) : Regroup u t
  | trans {t u v : Lambda α} (h₁ : Regroup t u) (h₂ : Regroup u v) : Regroup t v
  | lam {b b' : Lambda α} (h : Regroup b b') : Regroup (lam b) (lam b')
  | app {f f' a a' : Lambda α} (hf : Regroup f f') (ha : Regroup a a') :
      Regroup (app f a) (app f' a')
  | push (body p a : Lambda α) :
      Regroup (app (app (lam body) p) a) (app (lam (app body a.shift)) p)

namespace Regroup

/-- Functions and arguments may be regrouped at once. -/
theorem apply {t t' : Lambda α} {args args' : List (Lambda α)} (ht : Regroup t t')
    (hargs : List.Forall₂ Regroup args args') : Regroup (t.apply args) (t'.apply args') := by
  induction hargs generalizing t t' with
  | nil => exact ht
  | cons harg _ ih => exact ih (ht.app harg)

/-- A function may be regrouped in front of its arguments. -/
theorem apply_left {t t' : Lambda α} (h : Regroup t t') (args : List (Lambda α)) :
    Regroup (t.apply args) (t'.apply args) :=
  h.apply (List.forall₂_same.mpr fun arg _ => refl arg)

/-- All arguments behind a redex may as well stand under its binder. -/
theorem app_lam_apply (body p : Lambda α) (args : List (Lambda α)) :
    Regroup (.app (.lam (body.apply (args.map shift))) p)
      ((Lambda.app (.lam body) p).apply args) := by
  induction args generalizing body with
  | nil => exact refl _
  | cons arg args ih => exact (ih _).trans ((push body p arg).symm.apply_left args)

/-- Regrouping is β-equivalence: with the argument in either place, the redex contracts to the
    same term. -/
theorem conv {t u : Lambda α} (h : Regroup t u) : Conv t u := by
  induction h with
  | refl t => exact Conv.refl t
  | symm _ ih => exact ih.symm
  | trans _ _ ih₁ ih₂ => exact ih₁.trans ih₂
  | lam _ ih => exact ih.lam
  | app _ _ ihf iha => exact ihf.app iha
  | push body p a =>
    have hunder := Conv.redex (Lambda.app body a.shift) p
    rw [show (Lambda.app body a.shift).inst p = .app (body.inst p) a from
      congrArg (Lambda.app (body.inst p)) (inst_shift a p)] at hunder
    exact ((Conv.redex body p).app (Conv.refl a)).trans hunder.symm

end Regroup

/-! ### Parallel reduction -/

/-- Contraction of any number of redexes of a term at once. -/
inductive Par : Lambda α → Lambda α → Prop where
  | bound (n : Nat) : Par (bound n) (bound n)
  | atom (a : α) : Par (atom a) (atom a)
  | lam {b b' : Lambda α} (h : Par b b') : Par (lam b) (lam b')
  | app {f f' a a' : Lambda α} (hf : Par f f') (ha : Par a a') : Par (app f a) (app f' a')
  | redex {b b' a a' : Lambda α} (hb : Par b b') (ha : Par a a') :
      Par (app (lam b) a) (b'.inst a')

namespace Par

/-- A term reduces to itself, in no place. -/
theorem refl (t : Lambda α) : Par t t := by
  induction t with
  | bound n => exact .bound n
  | atom a => exact .atom a
  | lam b ih => exact .lam ih
  | app f a ihf iha => exact .app ihf iha

/-- A step is a parallel step in one place. -/
theorem of_beta {t u : Lambda α} (h : Beta t u) : Par t u := by
  induction h with
  | redex b a => exact .redex (refl b) (refl a)
  | lam _ ih => exact .lam ih
  | fn _ a ih => exact .app ih (refl a)
  | arg f _ ih => exact .app (refl f) ih

/-- Renaming keeps parallel steps. -/
theorem rename {t u : Lambda α} (h : Par t u) (ξ : Nat → Nat) :
    Par (t.rename ξ) (u.rename ξ) := by
  induction h generalizing ξ with
  | bound n => exact .bound _
  | atom a => exact .atom a
  | lam _ ih => exact .lam (ih _)
  | app _ _ ihf iha => exact .app (ihf ξ) (iha ξ)
  | redex _ _ ihb iha =>
    rw [inst_rename]
    exact .redex (ihb _) (iha ξ)

/-- Substitution keeps parallel steps, also where what is put in takes some of its own. -/
theorem subst {t u : Lambda α} (h : Par t u) {σ τ : Nat → Lambda α}
    (hσ : ∀ n, Par (σ n) (τ n)) : Par (t.subst σ) (u.subst τ) := by
  have hunder {σ τ : Nat → Lambda α} (hσ : ∀ n, Par (σ n) (τ n)) (n : Nat) :
      Par (under σ n) (under τ n) := by
    cases n with
    | zero => exact .bound 0
    | succ n => exact (hσ n).rename _
  induction h generalizing σ τ with
  | bound n => exact hσ n
  | atom a => exact .atom a
  | lam _ ih => exact .lam (ih (hunder hσ))
  | app _ _ ihf iha => exact .app (ihf hσ) (iha hσ)
  | redex _ _ ihb iha =>
    rw [inst_subst]
    exact .redex (ihb (hunder hσ)) (iha hσ)

/-- Putting in an argument keeps parallel steps of body and argument. -/
theorem inst {b b' a a' : Lambda α} (hb : Par b b') (ha : Par a a') :
    Par (b.inst a) (b'.inst a') := by
  refine hb.subst fun n => ?_
  cases n with
  | zero => exact ha
  | succ n => exact .bound n

end Par

/-- The complete development: all redexes of a term contracted at once. -/
def develop : Lambda α → Lambda α
  | bound n => bound n
  | atom a => atom a
  | lam b => lam b.develop
  | app (lam b) a => b.develop.inst a.develop
  | app f a => app f.develop a.develop

/-- **Triangle.** Whatever a parallel step leaves, one more step completes the development. -/
theorem Par.develop {t u : Lambda α} (h : Par t u) : Par u t.develop := by
  induction h with
  | bound n => exact .bound n
  | atom a => exact .atom a
  | lam _ ih => exact .lam ih
  | redex _ _ ihb iha => exact ihb.inst iha
  | @app f f' a a' hf _ ihf iha =>
    cases f with
    | bound n => exact .app ihf iha
    | atom x => exact .app ihf iha
    | app g x => exact .app ihf iha
    | lam b =>
      -- The head is an abstraction and stays one, so the development contracts here.
      cases hf with
      | lam _ =>
        cases ihf with
        | lam hb => exact .redex hb iha

/-! ### Confluence and uniqueness of normal forms -/

/-- Many contractions. -/
def Reduces : Lambda α → Lambda α → Prop :=
  Relation.ReflTransGen Beta

/-- What keeps single steps keeps reductions. -/
theorem Reduces.map {f : Lambda α → Lambda α} (hf : ∀ {t u}, Beta t u → Beta (f t) (f u))
    {t u : Lambda α} (h : Reduces t u) : Reduces (f t) (f u) :=
  Relation.ReflTransGen.lift f (fun _ _ h => hf h) _ _ h

/-- Function and argument may be reduced one after the other. -/
theorem Reduces.app {f f' a a' : Lambda α} (hf : Reduces f f') (ha : Reduces a a') :
    Reduces (.app f a) (.app f' a') :=
  Relation.ReflTransGen.trans (hf.map (.fn · a)) (ha.map (.arg f'))

/-- A parallel step is a reduction. -/
theorem Par.reduces {t u : Lambda α} (h : Par t u) : Reduces t u := by
  induction h with
  | bound n => exact .refl
  | atom a => exact .refl
  | lam _ ih => exact ih.map .lam
  | app _ _ ihf iha => exact ihf.app iha
  | @redex b b' a a' _ _ ihb iha =>
    have hinside : Reduces (.app (.lam b) a) (.app (.lam b') a') := (ihb.map .lam).app iha
    exact Relation.ReflTransGen.tail hinside (.redex b' a')

/-- **Church–Rosser.** Equivalent terms have a common reduct. -/
theorem Conv.common_reduct {t u : Lambda α} (h : Conv t u) :
    Relation.Join (Relation.ReflTransGen Par) t u := by
  have hdiamond : ∀ a b c : Lambda α, Par a b → Par a c →
      ∃ d, Relation.ReflGen Par b d ∧ Relation.ReflTransGen Par c d :=
    fun a b c hb hc => ⟨a.develop, .single hb.develop, .single hc.develop⟩
  have hequiv := Relation.equivalence_join_reflTransGen hdiamond
  induction h with
  | rel t u h => exact ⟨u, .single (.of_beta h), .refl⟩
  | refl t => exact hequiv.refl t
  | symm t u _ ih => exact hequiv.symm ih
  | trans t u v _ _ ih₁ ih₂ => exact hequiv.trans ih₁ ih₂

/-- A normal form takes no parallel step to another term. -/
theorem Normal.eq_of_par {t u : Lambda α} (hn : Normal t) (h : Par t u) : t = u := by
  rcases Relation.ReflTransGen.cases_head h.reduces with heq | ⟨v, hstep, _⟩
  · exact heq
  · exact absurd hstep (hn v)

/-- Nor any number of them. -/
theorem Normal.eq_of_pars {t u : Lambda α} (hn : Normal t)
    (h : Relation.ReflTransGen Par t u) : t = u := by
  induction h using Relation.ReflTransGen.head_induction_on with
  | refl => rfl
  | head hstep _ ih =>
    obtain rfl := hn.eq_of_par hstep
    exact ih hn

/-- Equivalent normal forms are equal. -/
theorem Conv.eq_of_normal {t u : Lambda α} (h : Conv t u) (ht : Normal t) (hu : Normal u) :
    t = u := by
  obtain ⟨v, htv, huv⟩ := h.common_reduct
  rw [ht.eq_of_pars htv, hu.eq_of_pars huv]

/-! ### The shape of normal forms -/

/-- An abstraction is normal if its body is. -/
theorem Normal.lam {b : Lambda α} (h : Normal b) : Normal (.lam b) := by
  intro u hu
  cases hu with
  | lam hb => exact h _ hb

/-- Under one more binder, a normal form is one still: what contracts there contracts here. -/
theorem Normal.shift {t : Lambda α} (h : Normal t) : Normal t.shift := by
  intro u hu
  have hback : Beta (t.shift.inst (.bound 0)) (u.inst (.bound 0)) := hu.subst _
  rw [inst_shift] at hback
  exact h _ hback

/-- Terms that are normal and no abstraction, so that applying them makes no redex. -/
def Neutral (t : Lambda α) : Prop :=
  Normal t ∧ ∀ b, t ≠ .lam b

/-- Names are neutral. -/
theorem IsName.neutral {t : Lambda α} (h : t.IsName) : Neutral t := by
  cases h with
  | bound n => exact ⟨fun _ h => (nomatch h), fun _ h => (nomatch h)⟩
  | atom a => exact ⟨fun _ h => (nomatch h), fun _ h => (nomatch h)⟩

/-- A neutral term on a normal form is neutral. -/
theorem Neutral.app {f a : Lambda α} (hf : Neutral f) (ha : Normal a) : Neutral (.app f a) := by
  refine ⟨fun u hu => ?_, fun _ h => (nomatch h)⟩
  cases hu with
  | redex b _ => exact hf.2 b rfl
  | fn h _ => exact hf.1 _ h
  | arg _ h => exact ha _ h

end Lambda

end DotLambda
