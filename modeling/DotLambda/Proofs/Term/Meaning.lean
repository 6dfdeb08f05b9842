import DotLambda.Proofs.Term.Rendering

namespace DotLambda

/-!
# Terms — what they mean

A term read as a plain λ-term: a variable or head is what its identity stands for, an abstraction
is `λ`, a parameter makes it a redex, and an application takes its arguments from left to right.

* `Term.readIn` — the reading in an environment;
* `Term.meaning` — the reading of a term by itself, its free identities being atoms;
* `Term.readIn_eq_render` — it is a rendering, and has the properties of renderings;
* `Term.regroup_supplied` — arguments below the binder of a redex may stand behind it;
* `Term.normal_readIn` — an irreducible term reads as a normal form;
* `Term.mem_atoms_meaning` — the atoms of a reading are the free identities.
-/

namespace Term

open Lambda

variable {α : Type}

mutual

/-- The reading of a term in an environment.  A missing part means nothing; the identity
    function stands in for it. -/
def readIn : Term → (Ident → Lambda α) → Lambda α
  | absent, _ => .lam (.bound 0)
  | var id, ρ => ρ id
  | abs id body absent, ρ => .lam (readIn body (enter ρ id))
  | abs id body param, ρ => .app (.lam (readIn body (enter ρ id))) (readIn param ρ)
  | app id args, ρ => (ρ id).apply (readArgs args ρ)

/-- The readings of arguments. -/
def readArgs : List Term → (Ident → Lambda α) → List (Lambda α)
  | [], _ => []
  | arg :: args, ρ => readIn arg ρ :: readArgs args ρ

end

/-- The reading of a term by itself: a free identity is an atom. -/
def meaning (t : Term) : Lambda Ident :=
  t.readIn .atom

@[simp] theorem readArgs_eq (args : List Term) (ρ : Ident → Lambda α) :
    readArgs args ρ = args.map (readIn · ρ) := by
  induction args with
  | nil => rfl
  | cons arg args ih => rw [readArgs, ih, List.map_cons]

theorem readIn_app (id : Ident) (args : List Term) (ρ : Ident → Lambda α) :
    (app id args).readIn ρ = (ρ id).apply (args.map (readIn · ρ)) := by
  rw [readIn, readArgs_eq]

theorem readIn_redex_eq {param : Term} (hp : param.isPresent = true) (id : Ident) (body : Term)
    (ρ : Ident → Lambda α) :
    (abs id body param).readIn ρ = .app (.lam (body.readIn (enter ρ id))) (param.readIn ρ) := by
  cases param with
  | absent => exact absurd hp (by simp [isPresent])
  | var i => rfl
  | abs i b p => rfl
  | app i args => rfl

/-- The reading of a term is its plain rendering. -/
theorem readIn_eq_render (t : Term) (ρ : Ident → Lambda α) :
    t.readIn ρ = t.render .plain ρ := by
  induction t generalizing ρ with
  | absent => rfl
  | var id => rfl
  | abs id body param ihb ihp =>
    cases hp : param.isPresent with
    | false => rw [eq_absent_of_not_isPresent hp, readIn, render_abs_absent, ihb, Rendering.plain]
    | true => rw [readIn_redex_eq hp, render_abs_present hp, ihb, ihp, Rendering.plain]
  | app id args ih =>
    rw [readIn_app, render_app]
    exact congrArg (ρ id).apply (List.map_congr_left fun arg harg => ih arg harg ρ)

/-- Below a binder that does not occur free in it, a term means what it means outside. -/
theorem readIn_enter {t : Term} {id : Ident} (h : id ∉ t.frees) (ρ : Ident → Lambda α) :
    t.readIn (enter ρ id) = (t.readIn ρ).shift := by
  rw [readIn_eq_render, readIn_eq_render, render_enter h]

/-- Arguments that went below a binder not free in them may as well stand behind the redex. -/
theorem regroup_supplied {id : Ident} {supplied : Lambda α} {body : Lambda α} {args : List Term}
    {ρ : Ident → Lambda α} (hfree : ∀ arg ∈ args, id ∉ arg.frees)
    (h : Regroup supplied (body.apply (args.map (readIn · (enter ρ id))))) (p : Lambda α) :
    Regroup (.app (.lam supplied) p)
      ((Lambda.app (.lam body) p).apply (args.map (readIn · ρ))) := by
  have hargs : args.map (readIn · (enter ρ id)) = (args.map (readIn · ρ)).map shift := by
    rw [List.map_map]
    exact List.map_congr_left fun arg harg => readIn_enter (hfree arg harg) ρ
  rw [hargs] at h
  exact (h.lam.app (.refl p)).trans (Regroup.app_lam_apply body p _)

/-- **Normal forms.** A whole term to which no step applies reads as a normal form, as long as
    identities stand for variables and atoms. -/
theorem normal_readIn {t : Term} (hw : t.isWhole = true) (hr : t.reducible = false)
    {ρ : Ident → Lambda α} (hρ : ∀ i, (ρ i).IsName) : Normal (t.readIn ρ) := by
  rw [readIn_eq_render]
  exact normal_render hw hr hρ

/-! ### Free identities of the reading -/

/-- The atoms of a reading are those of what the free identities stand for. -/
theorem mem_atoms_readIn {a : α} {t : Term} {ρ : Ident → Lambda α} :
    a ∈ (t.readIn ρ).atoms ↔ ∃ i ∈ t.frees, a ∈ (ρ i).atoms := by
  induction t generalizing ρ with
  | absent => simp [readIn, atoms, frees]
  | var id => simp [readIn]
  | abs id body param ihb ihp =>
    have hbody : a ∈ (body.readIn (enter ρ id)).atoms ↔
        ∃ i ∈ body.frees, i ≠ id ∧ a ∈ (ρ i).atoms := by
      rw [ihb]
      simp only [mem_atoms_enter]
    cases hp : param.isPresent with
    | false =>
      rw [eq_absent_of_not_isPresent hp, readIn, atoms, hbody]
      simp [frees, and_assoc]
    | true =>
      rw [readIn_redex_eq hp, atoms, atoms, List.mem_append, hbody, ihp]
      simp [or_and_right, exists_or, and_assoc]
  | app id args ih =>
    rw [readIn_app, mem_atoms_apply]
    simp only [List.mem_map, exists_exists_and_eq_and, mem_frees_app, or_and_right, exists_or,
      exists_eq_left]
    refine or_congr Iff.rfl ?_
    constructor
    · rintro ⟨arg, harg, ha⟩
      obtain ⟨i, hi, hai⟩ := (ih arg harg).mp ha
      exact ⟨i, ⟨arg, harg, hi⟩, hai⟩
    · rintro ⟨i, ⟨arg, harg, hi⟩, hai⟩
      exact ⟨arg, harg, (ih arg harg).mpr ⟨i, hi, hai⟩⟩

/-- The atoms of what a term means are its free identities. -/
theorem mem_atoms_meaning {i : Ident} {t : Term} : i ∈ t.meaning.atoms ↔ i ∈ t.frees := by
  rw [meaning, mem_atoms_readIn]
  simp [atoms]

end Term

end DotLambda
