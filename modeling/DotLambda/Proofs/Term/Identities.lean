import DotLambda.Term
import Mathlib.Data.Int.Order.Basic
import Mathlib.Data.List.Basic

namespace DotLambda

/-!
# Terms — bound and free identities

Which identities a term binds, which it leaves free, and what it takes for a term to be well put
together.

* `Term.frees`, `Term.idents` — the free identities and all identities of a term;
* `Term.isWhole` — no part is missing, except for parameters that are not supplied;
* `Term.Tidy` — every application has arguments;
* `Term.Proper` — a whole term whose binders are distinct, none of them free in it as well;
* `Term.le_greatest`, `Term.greatest_lt` — `Term.greatest` is the least bound of the identities.

`Term.induct` is induction on terms with one case for each constructor, the arguments of an
application taken together.
-/

namespace Term

/-- Induction on terms: an application may use the claim for each of its arguments. -/
@[elab_as_elim, induction_eliminator]
theorem induct {motive : Term → Prop} (absent : motive absent)
    (var : ∀ id, motive (var id))
    (abs : ∀ id body param, motive body → motive param → motive (abs id body param))
    (app : ∀ id args, (∀ arg ∈ args, motive arg) → motive (app id args)) :
    ∀ t, motive t
  | .absent => absent
  | .var id => var id
  | .abs id body param =>
    abs id body param (induct absent var abs app body) (induct absent var abs app param)
  | .app id args => app id args fun arg _ => induct absent var abs app arg

/-! ### Free identities -/

mutual

/-- The free identities of a term: those of its variables and heads that are outside the scope
    of their binder. -/
def frees : Term → List Ident
  | absent => []
  | var id => [id]
  | abs id body param => (frees body).filter (· ≠ id) ++ frees param
  | app id args => id :: argsFrees args

/-- The free identities of an argument list. -/
def argsFrees : List Term → List Ident
  | [] => []
  | arg :: args => frees arg ++ argsFrees args

end

mutual

/-- All identities of a term: those of its binders, its variables and its heads. -/
def idents : Term → List Ident
  | absent => []
  | var id => [id]
  | abs id body param => id :: (idents body ++ idents param)
  | app id args => id :: argsIdents args

/-- All identities of an argument list. -/
def argsIdents : List Term → List Ident
  | [] => []
  | arg :: args => idents arg ++ argsIdents args

end

@[simp] theorem argsBinders_eq (args : List Term) : argsBinders args = args.flatMap binders := by
  induction args with
  | nil => rfl
  | cons arg args ih => rw [argsBinders, ih, List.flatMap_cons]

@[simp] theorem argsFrees_eq (args : List Term) : argsFrees args = args.flatMap frees := by
  induction args with
  | nil => rfl
  | cons arg args ih => rw [argsFrees, ih, List.flatMap_cons]

@[simp] theorem argsIdents_eq (args : List Term) : argsIdents args = args.flatMap idents := by
  induction args with
  | nil => rfl
  | cons arg args ih => rw [argsIdents, ih, List.flatMap_cons]

@[simp] theorem mem_binders_abs {i id : Ident} {body param : Term} :
    i ∈ (abs id body param).binders ↔ i = id ∨ i ∈ body.binders ∨ i ∈ param.binders := by
  simp [binders]

@[simp] theorem mem_binders_app {i id : Ident} {args : List Term} :
    i ∈ (app id args).binders ↔ ∃ arg ∈ args, i ∈ arg.binders := by
  simp [binders]

@[simp] theorem mem_frees_var {i id : Ident} : i ∈ (var id).frees ↔ i = id := by
  simp [frees]

@[simp] theorem mem_frees_abs {i id : Ident} {body param : Term} :
    i ∈ (abs id body param).frees ↔ i ∈ body.frees ∧ i ≠ id ∨ i ∈ param.frees := by
  simp [frees]

@[simp] theorem mem_frees_app {i id : Ident} {args : List Term} :
    i ∈ (app id args).frees ↔ i = id ∨ ∃ arg ∈ args, i ∈ arg.frees := by
  simp [frees]

/-- Every identity of a term is bound in it or free in it. -/
theorem mem_idents {i : Ident} {t : Term} : i ∈ t.idents ↔ i ∈ t.binders ∨ i ∈ t.frees := by
  induction t with
  | absent => simp [idents, binders, frees]
  | var id => simp [idents, binders, frees]
  | abs id body param ihb ihp =>
    simp only [idents, List.mem_cons, List.mem_append, mem_binders_abs, mem_frees_abs, ihb, ihp]
    by_cases h : i = id
    · simp [h]
    · simp only [h, false_or, ne_eq, not_false_eq_true, and_true]
      tauto
  | app id args ih =>
    simp only [idents, argsIdents_eq, List.mem_cons, List.mem_flatMap, mem_binders_app,
      mem_frees_app]
    constructor
    · rintro (rfl | ⟨arg, harg, hi⟩)
      · exact .inr (.inl rfl)
      · rcases (ih arg harg).mp hi with hb | hf
        · exact .inl ⟨arg, harg, hb⟩
        · exact .inr (.inr ⟨arg, harg, hf⟩)
    · rintro (⟨arg, harg, hb⟩ | rfl | ⟨arg, harg, hf⟩)
      · exact .inr ⟨arg, harg, (ih arg harg).mpr (.inl hb)⟩
      · exact .inl rfl
      · exact .inr ⟨arg, harg, (ih arg harg).mpr (.inr hf)⟩

/-! ### The greatest identity -/

/-- The greatest identity of a call is at least each of those in it. -/
theorem le_argsGreatest (bound : Ident) (args : List Term) :
    bound ≤ argsGreatest bound args ∧ ∀ arg ∈ args, arg.greatest ≤ argsGreatest bound args := by
  induction args generalizing bound with
  | nil => exact ⟨le_refl bound, fun _ h => absurd h List.not_mem_nil⟩
  | cons arg args ih =>
    obtain ⟨hbound, hargs⟩ := ih (max bound arg.greatest)
    rw [argsGreatest, List.forall_mem_cons]
    exact ⟨le_trans (le_max_left _ _) hbound, le_trans (le_max_right _ _) hbound, hargs⟩

/-- The greatest identity of a binding is at least each of those in it. -/
theorem le_greatest_abs (id : Ident) (body param : Term) :
    id ≤ (abs id body param).greatest ∧ body.greatest ≤ (abs id body param).greatest ∧
      (param = absent ∨ param.greatest ≤ (abs id body param).greatest) := by
  cases param <;> simp only [greatest, reduceCtorEq, true_or, false_or] <;> lia

/-- No identity of a term is above its greatest one. -/
theorem le_greatest {i : Ident} {t : Term} (h : i ∈ t.idents) : i ≤ t.greatest := by
  induction t with
  | absent => exact absurd h List.not_mem_nil
  | var id => exact le_of_eq (List.mem_singleton.mp h)
  | abs id body param ihb ihp =>
    obtain ⟨hid, hbody, hparam⟩ := le_greatest_abs id body param
    simp only [idents, List.mem_cons, List.mem_append] at h
    rcases h with rfl | h | h
    · exact hid
    · exact le_trans (ihb h) hbody
    · rcases hparam with rfl | hparam
      · exact absurd h List.not_mem_nil
      · exact le_trans (ihp h) hparam
  | app id args ih =>
    obtain ⟨hid, hargs⟩ := le_argsGreatest id args
    simp only [idents, argsIdents_eq, List.mem_cons, List.mem_flatMap] at h
    rcases h with rfl | ⟨arg, harg, h⟩
    · exact hid
    · exact le_trans (ih arg harg h) (hargs arg harg)

/-- It is below what all of them are below. -/
theorem argsGreatest_lt {bound n : Ident} {args : List Term} (hbound : bound < n)
    (hargs : ∀ arg ∈ args, arg.greatest < n) : argsGreatest bound args < n := by
  induction args generalizing bound with
  | nil => exact hbound
  | cons arg args ih =>
    rw [List.forall_mem_cons] at hargs
    exact ih (max_lt hbound hargs.1) hargs.2

/-- The greatest identity is below whatever all identities are below. -/
theorem greatest_lt {n : Ident} (hn : -1 < n) {t : Term} (h : ∀ i ∈ t.idents, i < n) :
    t.greatest < n := by
  induction t with
  | absent => exact hn
  | var id => exact h id (by simp [idents])
  | abs id body param ihb ihp =>
    simp only [idents, List.forall_mem_cons, List.forall_mem_append] at h
    have hbody := max_lt h.1 (ihb h.2.1)
    cases param with
    | absent => exact hbody
    | var i => exact max_lt hbody (ihp h.2.2)
    | abs i b p => exact max_lt hbody (ihp h.2.2)
    | app i args => exact max_lt hbody (ihp h.2.2)
  | app id args ih =>
    simp only [idents, argsIdents_eq, List.forall_mem_cons, List.mem_flatMap] at h
    exact argsGreatest_lt h.1 fun arg harg => ih arg harg fun i hi => h.2 i ⟨arg, harg, hi⟩

/-! ### Whole terms -/

mutual

/-- No part is missing.  An abstraction without a parameter is whole; it is no redex. -/
def isWhole : Term → Bool
  | absent => false
  | var _ => true
  | abs _ body param => isWhole body && (!param.isPresent || isWhole param)
  | app _ args => areWhole args

/-- No part of an argument list is missing. -/
def areWhole : List Term → Bool
  | [] => true
  | arg :: args => isWhole arg && areWhole args

end

@[simp] theorem areWhole_iff {args : List Term} :
    areWhole args = true ↔ ∀ arg ∈ args, arg.isWhole = true := by
  induction args with
  | nil => simp [areWhole]
  | cons arg args ih => simp [areWhole, ih]

/-- Only the missing term is not there. -/
theorem eq_absent_of_not_isPresent {t : Term} (h : t.isPresent = false) : t = absent := by
  cases t with
  | absent => rfl
  | var id => exact absurd h (by simp [isPresent])
  | abs id body param => exact absurd h (by simp [isPresent])
  | app id args => exact absurd h (by simp [isPresent])

/-- What has all its parts is there. -/
theorem isPresent_of_isWhole {t : Term} (h : t.isWhole = true) : t.isPresent = true := by
  cases t with
  | absent => exact absurd h (by simp [isWhole])
  | var id => rfl
  | abs id body param => rfl
  | app id args => rfl

/-- What is there has an identity. -/
theorem exists_mem_idents {t : Term} (h : t.isPresent = true) : ∃ i, i ∈ t.idents := by
  cases t with
  | absent => exact absurd h (by simp [isPresent])
  | var id => exact ⟨id, by simp [idents]⟩
  | abs id body param => exact ⟨id, by simp [idents]⟩
  | app id args => exact ⟨id, by simp [idents]⟩

theorem isWhole_abs {id : Ident} {body param : Term} :
    (abs id body param).isWhole = true ↔
      body.isWhole = true ∧ (param = absent ∨ param.isWhole = true) := by
  cases param <;> simp [isWhole, isPresent]

theorem isWhole_app {id : Ident} {args : List Term} :
    (app id args).isWhole = true ↔ ∀ arg ∈ args, arg.isWhole = true := by
  rw [isWhole, areWhole_iff]

/-- Every application in the term has arguments.  One without would mean what its head means, and
    so be another way to write a variable. -/
inductive Tidy : Term → Prop where
  | absent : Tidy absent
  | var (id : Ident) : Tidy (var id)
  | abs {id : Ident} {body param : Term} (hbody : Tidy body) (hparam : Tidy param) :
      Tidy (abs id body param)
  | app {id : Ident} {args : List Term} (hne : args ≠ []) (hargs : ∀ arg ∈ args, Tidy arg) :
      Tidy (app id args)

/-! ### Supplied arguments -/

theorem supply_abs_present {param : Term} (hp : param.isPresent = true) (id : Ident)
    (body arg : Term) (args : List Term) :
    (abs id body param).supply (arg :: args) = abs id (body.supply (arg :: args)) param := by
  cases param with
  | absent => exact absurd hp (by simp [isPresent])
  | var i => rfl
  | abs i b p => rfl
  | app i as => rfl

/-- Supplying arguments neither makes a term nor loses it. -/
theorem isPresent_supply (t : Term) (args : List Term) :
    (t.supply args).isPresent = t.isPresent := by
  fun_cases supply t args <;> rfl

/-- A whole term supplied with whole arguments is whole. -/
theorem isWhole_supply {t : Term} {args : List Term} (ht : t.isWhole = true)
    (hargs : ∀ arg ∈ args, arg.isWhole = true) : (t.supply args).isWhole = true := by
  fun_induction supply t args with
  | case1 t => exact ht
  | case2 => exact absurd ht (by simp [isWhole])
  | case3 id arg args => exact isWhole_app.mpr hargs
  | case4 id body arg args ih =>
    rw [List.forall_mem_cons] at hargs
    rw [isWhole_abs] at ht
    exact isWhole_abs.mpr ⟨ih ht.1 hargs.2, .inr hargs.1⟩
  | case5 id body param arg args hparam ih =>
    rw [isWhole_abs] at ht
    exact isWhole_abs.mpr ⟨ih ht.1 hargs, ht.2⟩
  | case6 id own arg args =>
    rw [isWhole_app] at ht
    exact isWhole_app.mpr (List.forall_mem_append.mpr ⟨ht, hargs⟩)

/-- Supplying arguments to a whole term adds their binders to its own. -/
theorem count_binders_supply (j : Ident) {t : Term} {args : List Term}
    (ht : t.isWhole = true) :
    (t.supply args).binders.count j
      = t.binders.count j + (args.flatMap binders).count j := by
  fun_induction supply t args with
  | case1 t => simp
  | case2 => exact absurd ht (by simp [isWhole])
  | case3 id arg args => simp [binders]
  | case4 id body arg args ih =>
    rw [isWhole_abs] at ht
    simp only [binders, List.flatMap_cons, List.count_cons, List.count_append, List.count_nil,
      ih ht.1]
    omega
  | case5 id body param arg args hparam ih =>
    rw [isWhole_abs] at ht
    simp only [binders, List.count_cons, List.count_append, ih ht.1]
    omega
  | case6 id own arg args => simp [binders]

/-- Nothing is free in a supplied term that was not free in the term or in an argument. -/
theorem mem_frees_supply {i : Ident} {t : Term} {args : List Term}
    (h : i ∈ (t.supply args).frees) : i ∈ t.frees ∨ ∃ arg ∈ args, i ∈ arg.frees := by
  fun_induction supply t args with
  | case1 t => exact .inl h
  | case2 => exact .inl h
  | case3 id arg args =>
    rw [mem_frees_app] at h
    exact h.imp_left mem_frees_var.mpr
  | case4 id body arg args ih =>
    rw [mem_frees_abs] at h
    rcases h with ⟨hb, hne⟩ | ha
    · rcases ih hb with hb | ⟨a, ha, hi⟩
      · exact .inl (mem_frees_abs.mpr (.inl ⟨hb, hne⟩))
      · exact .inr ⟨a, List.mem_cons_of_mem _ ha, hi⟩
    · exact .inr ⟨arg, List.mem_cons_self, ha⟩
  | case5 id body param arg args hparam ih =>
    rw [mem_frees_abs] at h
    rcases h with ⟨hb, hne⟩ | hp
    · exact (ih hb).imp_left fun hb => mem_frees_abs.mpr (.inl ⟨hb, hne⟩)
    · exact .inl (mem_frees_abs.mpr (.inr hp))
  | case6 id own arg args =>
    rw [mem_frees_app] at h
    rcases h with rfl | ⟨a, ha, hi⟩
    · exact .inl (mem_frees_app.mpr (.inl rfl))
    · rcases List.mem_append.mp ha with ha | ha
      · exact .inl (mem_frees_app.mpr (.inr ⟨a, ha, hi⟩))
      · exact .inr ⟨a, ha, hi⟩

/-! ### Proper terms -/

/-- The binders `bs` are distinct, and none of them is among the free identities `fs`. -/
structure Apart (bs fs : List Ident) : Prop where
  nodup : bs.Nodup
  disjoint : ∀ i ∈ bs, i ∉ fs

/-- A term without missing parts whose binders are distinct, none of them free in it as well.
    In such a term an identity stands for one variable. -/
structure Proper (t : Term) : Prop extends Apart t.binders t.frees where
  whole : t.isWhole = true

/-- What stands side by side is apart by itself, and one side binds nothing of the other. -/
theorem Apart.append {bs bs' fs fs' : List Ident} (h : Apart (bs ++ bs') (fs ++ fs')) :
    Apart bs fs ∧ Apart bs' fs' ∧ (∀ i ∈ bs, i ∉ bs' ∧ i ∉ fs') ∧ ∀ i ∈ bs', i ∉ fs := by
  obtain ⟨hnodup, hdisjoint⟩ := h
  rw [List.nodup_append] at hnodup
  obtain ⟨hbs, hbs', hne⟩ := hnodup
  have hfs : ∀ i ∈ bs, i ∉ fs ∧ i ∉ fs' := fun i hi =>
    not_or.mp fun h => hdisjoint i (List.mem_append_left _ hi) (List.mem_append.mpr h)
  have hfs' : ∀ i ∈ bs', i ∉ fs ∧ i ∉ fs' := fun i hi =>
    not_or.mp fun h => hdisjoint i (List.mem_append_right _ hi) (List.mem_append.mpr h)
  exact ⟨⟨hbs, fun i hi => (hfs i hi).1⟩, ⟨hbs', fun i hi => (hfs' i hi).2⟩,
    fun i hi => ⟨fun h => hne i hi i h rfl, (hfs i hi).2⟩, fun i hi => (hfs' i hi).1⟩

/-- An abstraction whose binders are apart: so are those of its body and of its parameter, its
    own binder is neither bound again nor free in the parameter, and body and parameter bind
    nothing of each other. -/
theorem Apart.abs {id : Ident} {body param : Term}
    (h : Apart (Term.abs id body param).binders (Term.abs id body param).frees) :
    Apart body.binders body.frees ∧ Apart param.binders param.frees ∧
      (id ∉ body.binders ∧ id ∉ param.binders ∧ id ∉ param.frees) ∧
      (∀ i ∈ body.binders, i ∉ param.binders ∧ i ∉ param.frees) ∧
      ∀ i ∈ param.binders, i ∉ body.frees := by
  obtain ⟨hnodup, hdisjoint⟩ := h
  rw [Term.binders, List.nodup_cons, List.mem_append, not_or] at hnodup
  obtain ⟨⟨hidb, hidp⟩, hnodup⟩ := hnodup
  have hparts : Apart (body.binders ++ param.binders) (body.frees ++ param.frees) := by
    refine ⟨hnodup, fun i hi hfree => ?_⟩
    -- What is free in the body is free in the abstraction, unless it is the binder itself.
    have hne : i ≠ id := by
      rintro rfl
      exact (List.mem_append.mp hi).elim hidb hidp
    refine hdisjoint i (List.mem_cons_of_mem _ hi) (mem_frees_abs.mpr ?_)
    exact (List.mem_append.mp hfree).imp_left fun hb => ⟨hb, hne⟩
  obtain ⟨hbody, hparam, hbp, hpb⟩ := hparts.append
  have hidf : id ∉ param.frees := fun hf =>
    hdisjoint id (mem_binders_abs.mpr (.inl rfl)) (mem_frees_abs.mpr (.inr hf))
  exact ⟨hbody, hparam, ⟨hidb, hidp, hidf⟩, hbp, hpb⟩

/-- The arguments of an application whose binders are apart. -/
theorem Apart.app {id : Ident} {args : List Term}
    (h : Apart (Term.app id args).binders (Term.app id args).frees) :
    Apart (args.flatMap binders) (args.flatMap frees) := by
  obtain ⟨hnodup, hdisjoint⟩ := h
  rw [Term.binders, argsBinders_eq] at hnodup hdisjoint
  rw [Term.frees, argsFrees_eq] at hdisjoint
  exact ⟨hnodup, fun i hi hf => hdisjoint i hi (List.mem_cons_of_mem _ hf)⟩

end Term

end DotLambda
