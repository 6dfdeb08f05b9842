import DotLambda.Proofs.Term.Meaning

namespace DotLambda

/-!
# Terms — supplying arguments

Lists of arguments act on terms: supplying one list and then another is supplying both at once.
The slot that an argument takes depends on how many came before it and on every abstraction on the
way, but neither a binder nor an argument is lost there, and the term means what it means when it
is applied to the arguments.

* `Term.supply_append` — supplying arguments in two goes;
* `Term.perm_binders_supply` — the binders are those of the term and of the arguments;
* `Term.conv_readIn_supply` — the supplied term reads as the term applied to the arguments;
* `supply_acts` — the three together.
-/

/-! ### Supplying in two goes -/

namespace Term

theorem supply_nil (t : Term) : t.supply [] = t := by
  rw [supply]

theorem supply_absent (args : List Term) : absent.supply args = absent := by
  cases args <;> rfl

theorem supply_app (id : Ident) (own args : List Term) :
    (app id own).supply args = app id (own ++ args) := by
  cases args with
  | nil => rw [supply_nil, List.append_nil]
  | cons arg args => rfl

/-- A filled parameter lets all arguments pass into the body. -/
theorem supply_filled {param : Term} (hparam : param.isPresent = true) (id : Ident) (body : Term)
    (args : List Term) : (abs id body param).supply args = abs id (body.supply args) param := by
  cases args with
  | nil => rw [supply_nil, supply_nil]
  | cons arg args => exact supply_abs_present hparam id body arg args

/-- **Two goes.** A parameter that was filled in the first go stays filled in the second, as long
    as it was filled with something. -/
theorem supply_append {t : Term} {first : List Term} (hfirst : ∀ arg ∈ first, arg.isPresent = true)
    (second : List Term) : t.supply (first ++ second) = (t.supply first).supply second := by
  fun_induction supply t first with
  | case1 t => rw [List.nil_append]
  | case2 => rw [supply_absent, supply_absent]
  | case3 id arg args => rw [supply_app, List.cons_append, supply]
  | case4 id body arg args ih =>
    rw [List.forall_mem_cons] at hfirst
    rw [supply_filled hfirst.1, ← ih hfirst.2, List.cons_append, supply]
  | case5 id body param arg args hparam ih =>
    have hfilled : param.isPresent = true := by
      cases param with
      | absent => exact absurd rfl hparam
      | var | abs | app => rfl
    rw [supply_filled hfilled, supply_filled hfilled, ← ih hfirst]
  | case6 id own arg args => rw [supply_app, supply_app, List.append_assoc]

/-! ### Binders and meaning -/

variable {t : Term} {args : List Term}

/-- An argument may end up in front of a parameter of the term, so the order is not kept. -/
theorem perm_binders_supply (ht : t.isWhole = true) :
    (t.supply args).binders.Perm (t.binders ++ args.flatMap binders) := by
  rw [List.perm_iff_count]
  intro j
  rw [count_binders_supply j ht, List.count_append]

/-- **Application.** In every environment, a term supplied with arguments reads as the term applied
    to them, provided that none of its binders occurs free in them. -/
theorem conv_readIn_supply {α : Type} (ht : t.isWhole = true)
    (hargs : ∀ arg ∈ args, arg.isPresent = true)
    (hfree : ∀ i ∈ t.binders, ∀ arg ∈ args, i ∉ arg.frees) (ρ : Ident → Lambda α) :
    Lambda.Conv ((t.supply args).readIn ρ) ((t.readIn ρ).apply (args.map (readIn · ρ))) := by
  have hmap : args.map (readIn · ρ) = args.map (render .plain · ρ) :=
    List.map_congr_left fun arg _ => readIn_eq_render arg ρ
  rw [readIn_eq_render, readIn_eq_render, hmap]
  exact render_supply ht hargs hfree ρ

end Term

/-! ### The action -/

/-- **Supplying is an action.** Argument lists act on whole terms by concatenation.  The binders of
    a supplied term are those of the term and those of the arguments, and as long as no binder of
    the term captures anything, the supplied term is `β`-equivalent to the term applied to the
    arguments from left to right. -/
theorem supply_acts {t : Term} {xs : List Term} (ht : t.isWhole = true)
    (hxs : ∀ x ∈ xs, x.isWhole = true) :
    t.supply [] = t ∧
    (∀ ys, (t.supply xs).supply ys = t.supply (xs ++ ys)) ∧
    (t.supply xs).binders.Perm (t.binders ++ xs.flatMap Term.binders) ∧
    ((∀ i ∈ t.binders, ∀ x ∈ xs, i ∉ x.frees) →
      Lambda.Conv (t.supply xs).meaning (t.meaning.apply (xs.map Term.meaning))) := by
  have hpresent : ∀ x ∈ xs, x.isPresent = true := fun x hx => Term.isPresent_of_isWhole (hxs x hx)
  refine ⟨Term.supply_nil t, fun ys => ?_, Term.perm_binders_supply ht, fun hfree => ?_⟩
  · exact (Term.supply_append hpresent ys).symm
  · exact Term.conv_readIn_supply ht hpresent hfree .atom

/-- Three arguments for a term with a filled parameter between two open ones: the first two fill
    the open ones, and the third is appended to the application at the bottom, in front of the
    parameters. -/
theorem supply_acts_spilling :
    let inner : Term := .abs 3 (.app 2 [.var 1]) .absent
    let t : Term := .abs 1 (.abs 2 inner (.abs 4 (.var 4) .absent)) .absent
    let xs : List Term := [.abs 5 (.var 5) .absent, .var 7, .abs 6 (.var 9) .absent]
    t.isWhole = true ∧ (∀ x ∈ xs, x.isWhole = true) ∧
    (∀ i ∈ t.binders, ∀ x ∈ xs, i ∉ x.frees) ∧
    (t.supply xs).binders = [1, 2, 3, 6, 4, 5] ∧
    (t.supply xs).supply [.var 8] = t.supply (xs ++ [.var 8]) ∧
    (t.supply xs).binders.Perm (t.binders ++ xs.flatMap Term.binders) ∧
    Lambda.Conv (t.supply xs).meaning (t.meaning.apply (xs.map Term.meaning)) := by
  intro inner t xs
  have ht : t.isWhole = true := by decide
  have hxs : ∀ x ∈ xs, x.isWhole = true := by decide
  have hfree : ∀ i ∈ t.binders, ∀ x ∈ xs, i ∉ x.frees := by decide
  obtain ⟨_, happend, hperm, hconv⟩ := supply_acts ht hxs
  exact ⟨ht, hxs, hfree, by decide, happend _, hperm, hconv hfree⟩

end DotLambda
