import DotLambda.Proofs.Lambda.Beta
import Mathlib.Data.List.Induction

namespace DotLambda

/-!
# Plain λ-terms — renderings

Abstractions and applications can be written as plain λ-terms in more than one way.  A rendering
is any way in which contraction is β-equivalence and normal forms are normal forms; whatever is
proved of reduction for renderings holds of all of them.

* `Lambda.Rendering` — how abstractions, each with a key, and applications are written;
* `Lambda.Rendering.plain` — as they are, the keys being forgotten;
* `Lambda.Rendering.signed` — with a sign for the key of each abstraction, which no contraction
  loses;
* `Lambda.Rendering.signed_lam_inj`, `Lambda.Rendering.signed_apply_ne_lam`,
  `Lambda.Rendering.signed_apply_inj` — a signed rendering can be read back.

With signs, uniqueness of normal forms says more than it does of plain terms: the binders of two
equivalent normal forms have the same signs.
-/

namespace Lambda

variable {κ α : Type}

/-- A way to write abstractions with keys in `κ`, and applications. -/
structure Rendering (κ α : Type) where
  lam : κ → Lambda α → Lambda α
  app : Lambda α → Lambda α → Lambda α
  lam_subst (k : κ) (b : Lambda α) (σ : Nat → Lambda α) :
    (lam k b).subst σ = lam k (b.subst (under σ))
  app_subst (f a : Lambda α) (σ : Nat → Lambda α) :
    (app f a).subst σ = app (f.subst σ) (a.subst σ)
  redex (k : κ) (b a : Lambda α) : Conv (app (lam k b) a) (b.inst a)
  conv_lam (k : κ) {b b' : Lambda α} (h : Conv b b') : Conv (lam k b) (lam k b')
  conv_app {f f' a a' : Lambda α} (hf : Conv f f') (ha : Conv a a') :
    Conv (app f a) (app f' a')
  normal_lam (k : κ) {b : Lambda α} (h : Normal b) : Normal (lam k b)
  neutral_app {f a : Lambda α} (hf : Neutral f) (ha : Normal a) : Neutral (app f a)

namespace Rendering

/-! ### Several arguments -/

section

variable (R : Rendering κ α)

/-- The term applied to `args` from left to right. -/
def apply (t : Lambda α) (args : List (Lambda α)) : Lambda α :=
  args.foldl R.app t

@[simp] theorem apply_nil (t : Lambda α) : R.apply t [] = t := rfl

@[simp] theorem apply_cons (t arg : Lambda α) (args : List (Lambda α)) :
    R.apply t (arg :: args) = R.apply (R.app t arg) args := rfl

/-- Arguments may be supplied in two goes. -/
theorem apply_append (t : Lambda α) (args more : List (Lambda α)) :
    R.apply t (args ++ more) = R.apply (R.apply t args) more :=
  List.foldl_append

/-- Substitution goes into the function and all arguments. -/
theorem apply_subst (t : Lambda α) (args : List (Lambda α)) (σ : Nat → Lambda α) :
    (R.apply t args).subst σ = R.apply (t.subst σ) (args.map (subst σ)) := by
  induction args generalizing t with
  | nil => rfl
  | cons arg args ih => rw [apply_cons, ih, R.app_subst, List.map_cons, apply_cons]

variable {R}

/-- Conversion of a head and of its arguments, one by one. -/
theorem conv_apply {t t' : Lambda α} {args args' : List (Lambda α)} (ht : Conv t t')
    (hargs : List.Forall₂ Conv args args') : Conv (R.apply t args) (R.apply t' args') := by
  induction hargs generalizing t t' with
  | nil => exact ht
  | cons harg _ ih => exact ih (R.conv_app ht harg)

/-- Equivalent functions are so on the same arguments. -/
theorem conv_apply_left {t t' : Lambda α} (ht : Conv t t') (args : List (Lambda α)) :
    Conv (R.apply t args) (R.apply t' args) :=
  conv_apply ht (List.forall₂_same.mpr fun arg _ => Conv.refl arg)

/-- A neutral term on normal forms is neutral. -/
theorem neutral_apply {t : Lambda α} {args : List (Lambda α)} (ht : Neutral t)
    (hargs : ∀ a ∈ args, Normal a) : Neutral (R.apply t args) := by
  induction args generalizing t with
  | nil => exact ht
  | cons arg args ih =>
    rw [List.forall_mem_cons] at hargs
    exact ih (R.neutral_app ht hargs.1) hargs.2

/-- Arguments under the binder of a redex may as well stand behind it: in either place the redex
    contracts to the same term. -/
theorem conv_supplied (k : κ) (b p : Lambda α) (args : List (Lambda α)) :
    Conv (R.app (R.lam k (R.apply b (args.map shift))) p)
      (R.apply (R.app (R.lam k b) p) args) := by
  -- Contraction takes the shift of the arguments back.
  have hinside := R.redex k (R.apply b (args.map shift)) p
  have hargs : (args.map shift).map (subst (point p)) = args := by
    rw [List.map_map]
    exact (List.map_congr_left fun arg _ => inst_shift arg p).trans (List.map_id args)
  rw [inst, apply_subst, hargs] at hinside
  exact hinside.trans (conv_apply_left (R.redex k b p) args).symm

end

/-! ### Plain terms -/

/-- Abstractions and applications as they are. -/
def plain : Rendering κ α where
  lam := fun _ => .lam
  app := .app
  lam_subst _ _ _ := rfl
  app_subst _ _ _ := rfl
  redex _ b a := Conv.redex b a
  conv_lam _ _ _ h := h.lam
  conv_app hf ha := hf.app ha
  normal_lam _ _ h := h.lam
  neutral_app hf ha := hf.app ha

/-! ### Signed terms -/

/-- The second of two components. -/
def second : Lambda α :=
  .lam (.lam (.bound 0))

/-- A pair of an atom and a function. -/
def pair (a : α) (f : Lambda α) : Lambda α :=
  .lam (.app (.app (.bound 0) (.atom a)) f.shift)

/-- The second component of a pair is its function. -/
theorem conv_second (a : α) (f : Lambda α) : Conv (.app (pair a f) second) f := by
  -- One contraction hands the components to `second`, and two more drop the first of them.
  have hopen : Conv (.app (pair a f) second) (.app (.app second (.atom a)) f) := by
    have h := Conv.redex (.app (.app (.bound 0) (.atom a)) f.shift) (second : Lambda α)
    rwa [show (Lambda.app (.app (.bound 0) (.atom a)) f.shift).inst second
      = .app (.app second (.atom a)) f from congrArg (Lambda.app _) (inst_shift f second)] at h
  have hdrop : Conv (.app second (.atom a)) (.lam (.bound 0)) :=
    Conv.redex (.lam (.bound 0)) (.atom a)
  have hleft : Conv (.app (.lam (.bound 0)) f) f := Conv.redex (.bound 0) f
  exact hopen.trans ((hdrop.app (Conv.refl f)).trans hleft)

/-- The second component of a neutral term is neutral. -/
theorem neutral_second {f : Lambda α} (hf : Neutral f) : Neutral (.app f second) :=
  hf.app (IsName.bound 0).neutral.1.lam.lam

/-- An abstraction is the pair of its sign and the function that it is, and an application is one
    of the function in a pair. -/
def signed (sign : κ → α) : Rendering κ α where
  lam := fun k b => pair (sign k) (.lam b)
  app := fun f a => .app (.app f second) a
  lam_subst k b σ := by
    rw [pair, subst, subst, shift_subst]
    rfl
  app_subst _ _ _ := rfl
  redex k b a := ((conv_second (sign k) (.lam b)).app (Conv.refl a)).trans (Conv.redex b a)
  conv_lam k _ _ h := ((Conv.refl _).app (h.lam.map .shift)).lam
  conv_app hf ha := (hf.app (Conv.refl _)).app ha
  normal_lam k _ h :=
    (((IsName.bound 0).neutral.app (IsName.atom (sign k)).neutral.1).app h.lam.shift).1.lam
  neutral_app hf ha := (neutral_second hf).app ha

/-- An abstraction has its sign and its body. -/
theorem signed_lam_inj {sign sign' : κ → α} {k k' : κ} {b b' : Lambda α}
    (h : (signed sign).lam k b = (signed sign').lam k' b') : sign k = sign' k' ∧ b = b' := by
  have hpair : pair (sign k) (.lam b) = pair (sign' k') (.lam b') := h
  simp only [pair, lam.injEq, app.injEq, atom.injEq, true_and] at hpair
  have hfn := shift_injective hpair.2
  exact ⟨hpair.1, by cases hfn; rfl⟩

/-- Applying a name makes no abstraction. -/
theorem signed_apply_ne_lam {sign sign' : κ → α} {t b : Lambda α} {args : List (Lambda α)} {k : κ}
    (ht : t.IsName) : (signed sign).apply t args ≠ (signed sign').lam k b := by
  intro h
  rcases args.eq_nil_or_concat with rfl | ⟨init, last, rfl⟩
  · rw [apply_nil] at h
    subst h
    cases ht
  · rw [List.concat_eq_append, apply_append] at h
    cases h

/-- A name that is applied has one list of arguments. -/
theorem signed_apply_inj {sign sign' : κ → α} {t t' : Lambda α} {args args' : List (Lambda α)}
    (ht : t.IsName) (ht' : t'.IsName)
    (h : (signed sign).apply t args = (signed sign').apply t' args') : t = t' ∧ args = args' := by
  -- From the right, where the last argument is the outermost.
  induction args using List.reverseRecOn generalizing args' with
  | nil =>
    rcases args'.eq_nil_or_concat with rfl | ⟨init, last, rfl⟩
    · exact ⟨h, rfl⟩
    · rw [List.concat_eq_append, apply_append] at h
      subst h
      cases ht
  | append_singleton args arg ih =>
    rcases args'.eq_nil_or_concat with rfl | ⟨init, last, rfl⟩
    · rw [apply_append] at h
      subst h
      cases ht'
    · rw [List.concat_eq_append, apply_append, apply_append] at h
      have hparts : Lambda.app (.app ((signed sign).apply t args) second) arg
          = .app (.app ((signed sign').apply t' init) second) last := h
      simp only [app.injEq, and_true] at hparts
      obtain ⟨hhead, rfl⟩ := ih hparts.1
      rw [hhead, hparts.2, List.concat_eq_append]
      exact ⟨rfl, rfl⟩

end Rendering

end Lambda

end DotLambda
