import Mathlib.Logic.Function.Basic

namespace DotLambda

/-!
# Plain λ-terms

The standard untyped λ-calculus, the yardstick for what terms and texts mean.  Bound variables
are de Bruijn indices, so terms that differ in the names of bound variables only are equal.

* `Lambda` — variables, atoms for free names, abstractions, applications;
* `Lambda.rename`, `Lambda.subst` — renaming and simultaneous substitution of indices;
* `Lambda.inst` — what a redex contracts to;
* `Lambda.apply` — application to several arguments, from left to right;
* `Lambda.enter` — what names stand for below a binder.

The lemmas say how these pass through each other; `Lambda.inst_subst` is the substitution lemma
that confluence rests on.
-/

/-- Terms of the plain λ-calculus over free names in `α`. -/
inductive Lambda (α : Type) where
  /-- The variable of the `n`-th binder around it, counted from the inside. -/
  | bound (n : Nat)
  /-- A free name. -/
  | atom (a : α)
  | lam (body : Lambda α)
  | app (fn arg : Lambda α)
deriving DecidableEq

namespace Lambda

variable {α : Type}

/-! ### Renaming -/

/-- A renaming of indices, taken under a binder. -/
def liftIndex (ξ : Nat → Nat) : Nat → Nat
  | 0 => 0
  | n + 1 => ξ n + 1

/-- Renames the indices of a term. -/
def rename (ξ : Nat → Nat) : Lambda α → Lambda α
  | bound n => bound (ξ n)
  | atom a => atom a
  | lam body => lam (body.rename (liftIndex ξ))
  | app fn arg => app (fn.rename ξ) (arg.rename ξ)

/-- The term as it stands under one more binder. -/
def shift (t : Lambda α) : Lambda α :=
  t.rename Nat.succ

/-- Renamings under a binder are composed there. -/
theorem liftIndex_comp (ξ ζ : Nat → Nat) :
    (fun n => liftIndex ζ (liftIndex ξ n)) = liftIndex (fun n => ζ (ξ n)) := by
  funext n
  cases n <;> rfl

/-- Two renamings are one. -/
theorem rename_rename (t : Lambda α) (ξ ζ : Nat → Nat) :
    (t.rename ξ).rename ζ = t.rename (fun n => ζ (ξ n)) := by
  induction t generalizing ξ ζ with
  | bound n => rfl
  | atom a => rfl
  | lam body ih => simp only [rename, ih, liftIndex_comp]
  | app fn arg ihf iha => simp only [rename, ihf, iha]

/-- A renaming of the outer indices passes through `shift`. -/
theorem shift_rename (t : Lambda α) (ξ : Nat → Nat) :
    t.shift.rename (liftIndex ξ) = (t.rename ξ).shift := by
  rw [shift, shift, rename_rename, rename_rename]
  rfl

/-! ### Substitution -/

/-- A substitution, taken under a binder. -/
def under (σ : Nat → Lambda α) : Nat → Lambda α
  | 0 => bound 0
  | n + 1 => (σ n).shift

/-- Puts in a term for every index at once. -/
def subst (σ : Nat → Lambda α) : Lambda α → Lambda α
  | bound n => σ n
  | atom a => atom a
  | lam body => lam (body.subst (under σ))
  | app fn arg => app (fn.subst σ) (arg.subst σ)

/-- The substitution of `a` for the innermost index, which is gone afterwards. -/
def point (a : Lambda α) : Nat → Lambda α
  | 0 => a
  | n + 1 => bound n

/-- The body of an abstraction with `a` put in for its variable. -/
def inst (body a : Lambda α) : Lambda α :=
  body.subst (point a)

/-- The identity is the identity under a binder too. -/
theorem under_bound : under (bound : Nat → Lambda α) = bound := by
  funext n
  cases n <;> rfl

/-- Putting every index in for itself changes nothing. -/
theorem subst_bound (t : Lambda α) : t.subst bound = t := by
  induction t with
  | bound n => rfl
  | atom a => rfl
  | lam body ih => rw [subst, under_bound, ih]
  | app fn arg ihf iha => rw [subst, ihf, iha]

/-- Renaming and then substituting is one substitution. -/
theorem subst_rename (t : Lambda α) (ξ : Nat → Nat) (σ : Nat → Lambda α) :
    (t.rename ξ).subst σ = t.subst (fun n => σ (ξ n)) := by
  induction t generalizing ξ σ with
  | bound n => rfl
  | atom a => rfl
  | lam body ih =>
    have hunder : (fun n => under σ (liftIndex ξ n)) = under (fun n => σ (ξ n)) := by
      funext n
      cases n <;> rfl
    simp only [rename, subst, ih, hunder]
  | app fn arg ihf iha => simp only [rename, subst, ihf, iha]

/-- A renaming is the substitution of variables. -/
theorem rename_eq_subst (t : Lambda α) (ξ : Nat → Nat) :
    t.rename ξ = t.subst (fun n => bound (ξ n)) := by
  rw [← subst_rename, subst_bound]

/-- Substituting and then renaming is one substitution. -/
theorem rename_subst (t : Lambda α) (σ : Nat → Lambda α) (ξ : Nat → Nat) :
    (t.subst σ).rename ξ = t.subst (fun n => (σ n).rename ξ) := by
  induction t generalizing σ ξ with
  | bound n => rfl
  | atom a => rfl
  | lam body ih =>
    have hunder : (fun n => (under σ n).rename (liftIndex ξ))
        = under (fun n => (σ n).rename ξ) := by
      funext n
      cases n with
      | zero => rfl
      | succ n => exact shift_rename (σ n) ξ
    simp only [rename, subst, ih, hunder]
  | app fn arg ihf iha => simp only [rename, subst, ihf, iha]

/-- A substitution for the outer indices passes through `shift`. -/
theorem shift_subst (t : Lambda α) (σ : Nat → Lambda α) :
    t.shift.subst (under σ) = (t.subst σ).shift := by
  rw [shift, shift, subst_rename, rename_subst]
  rfl

/-- Two substitutions are one. -/
theorem subst_subst (t : Lambda α) (σ τ : Nat → Lambda α) :
    (t.subst σ).subst τ = t.subst (fun n => (σ n).subst τ) := by
  induction t generalizing σ τ with
  | bound n => rfl
  | atom a => rfl
  | lam body ih =>
    have hunder : (fun n => (under σ n).subst (under τ))
        = under (fun n => (σ n).subst τ) := by
      funext n
      cases n with
      | zero => rfl
      | succ n => exact shift_subst (σ n) τ
    simp only [subst, ih, hunder]
  | app fn arg ihf iha => simp only [subst, ihf, iha]

/-- What does not mention the innermost index stays as it is when that is put in. -/
@[simp] theorem inst_shift (t a : Lambda α) : t.shift.inst a = t := by
  rw [inst, shift, subst_rename]
  exact subst_bound t

/-- What is shifted is not the innermost variable. -/
theorem shift_ne_bound_zero (t : Lambda α) : t.shift ≠ bound 0 := by
  cases t <;> simp [shift, rename]

/-- Terms that are equal after a shift are equal. -/
theorem shift_injective {t u : Lambda α} (h : t.shift = u.shift) : t = u := by
  rw [← inst_shift t (bound 0), h, inst_shift]

/-- **Substitution lemma.** A substitution passes through a contraction. -/
theorem inst_subst (body a : Lambda α) (σ : Nat → Lambda α) :
    (body.inst a).subst σ = (body.subst (under σ)).inst (a.subst σ) := by
  rw [inst, inst, subst_subst, subst_subst]
  congr 1
  funext n
  cases n with
  | zero => rfl
  | succ n => exact (inst_shift (σ n) (a.subst σ)).symm

/-- A renaming passes through a contraction. -/
theorem inst_rename (body a : Lambda α) (ξ : Nat → Nat) :
    (body.inst a).rename ξ = (body.rename (liftIndex ξ)).inst (a.rename ξ) := by
  rw [inst, inst, rename_subst, subst_rename]
  congr 1
  funext n
  cases n <;> rfl

/-! ### Application to several arguments -/

/-- The term applied to `args` from left to right. -/
def apply (t : Lambda α) (args : List (Lambda α)) : Lambda α :=
  args.foldl app t

@[simp] theorem apply_nil (t : Lambda α) : t.apply [] = t := rfl

@[simp] theorem apply_cons (t arg : Lambda α) (args : List (Lambda α)) :
    t.apply (arg :: args) = (t.app arg).apply args := rfl

/-- Arguments may be supplied in two goes. -/
theorem apply_append (t : Lambda α) (args more : List (Lambda α)) :
    t.apply (args ++ more) = (t.apply args).apply more :=
  List.foldl_append

/-! ### Atoms -/

/-- The atoms of a term. -/
def atoms : Lambda α → List α
  | bound _ => []
  | atom a => [a]
  | lam body => body.atoms
  | app fn arg => fn.atoms ++ arg.atoms

/-- Renaming leaves the atoms as they are. -/
@[simp] theorem atoms_rename (t : Lambda α) (ξ : Nat → Nat) : (t.rename ξ).atoms = t.atoms := by
  induction t generalizing ξ with
  | bound n => rfl
  | atom a => rfl
  | lam body ih => exact ih _
  | app fn arg ihf iha => rw [rename, atoms, atoms, ihf, iha]

/-- The atoms of an application are those of its parts. -/
theorem mem_atoms_apply {a : α} {t : Lambda α} {args : List (Lambda α)} :
    a ∈ (t.apply args).atoms ↔ a ∈ t.atoms ∨ ∃ arg ∈ args, a ∈ arg.atoms := by
  induction args generalizing t with
  | nil => simp
  | cons arg args ih => simp [ih, atoms, or_assoc]

/-! ### Environments

What names stand for is a function from names to terms.  Names may be anything that can be
compared: identities of binders, or words in a text. -/

variable {κ : Type} [DecidableEq κ]

/-- The environment `ρ` below a binder of the name `k`, which stands for its variable there. -/
def enter (ρ : κ → Lambda α) (k : κ) : κ → Lambda α :=
  fun i => if i = k then bound 0 else (ρ i).shift

/-- The binder that is entered is the innermost variable. -/
@[simp] theorem enter_self (ρ : κ → Lambda α) (k : κ) : enter ρ k k = bound 0 :=
  if_pos rfl

/-- Every other key means what it did, one binder further in. -/
theorem enter_of_ne (ρ : κ → Lambda α) {i k : κ} (h : i ≠ k) : enter ρ k i = (ρ i).shift :=
  if_neg h

/-- A substitution goes under the binder that is entered. -/
theorem enter_subst (ρ : κ → Lambda α) (k : κ) (σ : Nat → Lambda α) :
    (fun i => (enter ρ k i).subst (under σ)) = enter (fun i => (ρ i).subst σ) k := by
  funext i
  by_cases h : i = k
  · subst h
    rw [enter_self, enter_self]
    rfl
  · rw [enter_of_ne _ h, enter_of_ne _ h, shift_subst]

/-- Putting `a` in for the variable of the binder leaves an environment with `a` for its name. -/
theorem enter_inst (ρ : κ → Lambda α) (k : κ) (a : Lambda α) :
    (fun i => (enter ρ k i).inst a) = Function.update ρ k a := by
  funext i
  by_cases h : i = k
  · subst h
    rw [enter_self, Function.update_self]
    rfl
  · rw [enter_of_ne _ h, Function.update_of_ne h, inst_shift]

/-- A value for another name may be entered before or after the binder. -/
theorem update_enter (ρ : κ → Lambda α) {k l : κ} (h : l ≠ k) (a : Lambda α) :
    Function.update (enter ρ k) l a.shift = enter (Function.update ρ l a) k := by
  funext i
  by_cases hl : i = l
  · subst hl
    rw [Function.update_self, enter_of_ne _ h, Function.update_self]
  · rw [Function.update_of_ne hl]
    by_cases hk : i = k
    · subst hk
      rw [enter_self, enter_self]
    · rw [enter_of_ne _ hk, enter_of_ne _ hk, Function.update_of_ne hl]

/-- An atom comes from a key other than the one that is entered. -/
theorem mem_atoms_enter {a : α} {ρ : κ → Lambda α} {i k : κ} :
    a ∈ (enter ρ k i).atoms ↔ i ≠ k ∧ a ∈ (ρ i).atoms := by
  by_cases h : i = k
  · subst h
    simp [atoms]
  · simp [enter_of_ne ρ h, shift, h]

/-- The environment `ρ` below several binders, the innermost of which is the first. -/
def enterAll (ρ : κ → Lambda α) : List κ → κ → Lambda α
  | [] => ρ
  | k :: ks => enter (enterAll ρ ks) k

/-- Variables and atoms: what stands for a name that nothing has been put in for. -/
inductive IsName : Lambda α → Prop where
  | bound (n : Nat) : IsName (bound n)
  | atom (a : α) : IsName (atom a)

/-- A shifted name is a name. -/
theorem IsName.shift {t : Lambda α} (h : t.IsName) : t.shift.IsName := by
  cases h with
  | bound n => exact .bound _
  | atom a => exact .atom a

/-- Names stay names when a binder is entered. -/
theorem IsName.enter {ρ : κ → Lambda α} (h : ∀ i, (ρ i).IsName) (k i : κ) :
    (enter ρ k i).IsName := by
  by_cases hk : i = k
  · rw [hk, enter_self]
    exact .bound 0
  · rw [enter_of_ne ρ hk]
    exact (h i).shift

/-- Names stay names when binders are entered. -/
theorem IsName.enterAll {ρ : κ → Lambda α} (h : ∀ i, (ρ i).IsName) (ks : List κ) (i : κ) :
    (enterAll ρ ks i).IsName := by
  induction ks generalizing i with
  | nil => exact h i
  | cons k ks ih => exact IsName.enter ih k i

end Lambda

end DotLambda
