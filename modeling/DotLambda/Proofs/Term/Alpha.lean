import DotLambda.Display
import DotLambda.Proofs.Term.Rendering

namespace DotLambda

/-!
# Terms — renaming of bound identities

Terms that are equal up to the identities of their binders.  Such terms have the same free
identities, and if binders and free identities have the same names they are shown alike.

* `Linked` — identities that belong to corresponding binders, or are free and the same;
* `Term.Alike` — equality up to the identities of binders;
* `Term.Alike.frees_eq` — the free identities are the same;
* `Term.Alike.display_eq` — what is named alike is shown alike;
* `Term.NormalForm` — the normal forms, by their shape;
* `Term.NormalForm.alike_of_render_eq` — those that are written alike with signs are alike.
-/

/-- Identities that belong together below the binders `Γ`, which correspond in pairs, the
    innermost pair first: the two binders that are found are of one pair, or both identities are
    free and the same. -/
inductive Linked : (Γ : List (Ident × Ident)) → Ident → Ident → Prop where
  | free (i : Ident) : Linked [] i i
  | here {Γ : List (Ident × Ident)} (i j : Ident) : Linked ((i, j) :: Γ) i j
  | outside {Γ : List (Ident × Ident)} {i j k l : Ident} (hi : i ≠ k) (hj : j ≠ l)
      (h : Linked Γ i j) : Linked ((k, l) :: Γ) i j

/-- Outside of all binders an identity is linked to itself only. -/
theorem Linked.eq_of_nil {i j : Ident} (h : Linked [] i j) : i = j := by
  cases h
  rfl

namespace Term

mutual

/-- Terms that are equal up to the identities of their binders, below the binders `Γ`.  Binders
    that correspond are related by `B`. -/
inductive Alike (B : Ident → Ident → Prop) : (Γ : List (Ident × Ident)) → Term → Term → Prop where
  | absent (Γ : List (Ident × Ident)) : Alike B Γ .absent .absent
  | var {Γ : List (Ident × Ident)} {i j : Ident} (h : Linked Γ i j) : Alike B Γ (.var i) (.var j)
  | abs {Γ : List (Ident × Ident)} {i j : Ident} {body body' param param' : Term} (h : B i j)
      (hbody : Alike B ((i, j) :: Γ) body body') (hparam : Alike B Γ param param') :
      Alike B Γ (.abs i body param) (.abs j body' param')
  | app {Γ : List (Ident × Ident)} {i j : Ident} {args args' : List Term} (h : Linked Γ i j)
      (hargs : AlikeEach B Γ args args') : Alike B Γ (.app i args) (.app j args')

/-- Arguments that are alike, one by one. -/
inductive AlikeEach (B : Ident → Ident → Prop) :
    (Γ : List (Ident × Ident)) → List Term → List Term → Prop where
  | nil (Γ : List (Ident × Ident)) : AlikeEach B Γ [] []
  | cons {Γ : List (Ident × Ident)} {arg arg' : Term} {args args' : List Term}
      (harg : Alike B Γ arg arg') (hargs : AlikeEach B Γ args args') :
      AlikeEach B Γ (arg :: args) (arg' :: args')

end

variable {B : Ident → Ident → Prop} {Γ : List (Ident × Ident)}

/-- What holds of arguments that are alike holds of them one by one. -/
theorem AlikeEach.forall₂ {args args' : List Term} (h : AlikeEach B Γ args args')
    {P : Term → Term → Prop}
    (hP : ∀ arg arg', Alike B Γ arg arg' → arg ∈ args → P arg arg') :
    List.Forall₂ P args args' := by
  induction args generalizing args' with
  | nil =>
    cases h
    exact .nil
  | cons arg args ih =>
    cases h with
    | cons harg hargs =>
      exact .cons (hP arg _ harg List.mem_cons_self)
        (ih hargs fun a a' ha hmem => hP a a' ha (List.mem_cons_of_mem _ hmem))

/-- Terms that are alike are both there or both missing. -/
theorem Alike.isPresent_eq {t u : Term} (h : Alike B Γ t u) : t.isPresent = u.isPresent := by
  cases h <;> rfl

/-! ### Free identities -/

/-- Below one more pair of binders, those identities that are not the binders belong together as
    they do outside. -/
theorem linked_filter {i j : Ident} {is js : List Ident}
    (h : List.Forall₂ (Linked ((i, j) :: Γ)) is js) :
    List.Forall₂ (Linked Γ) (is.filter (· ≠ i)) (js.filter (· ≠ j)) := by
  induction h with
  | nil => exact .nil
  | @cons k l _ _ hlinked _ ih =>
    cases hlinked with
    | here => simpa using ih
    | outside hi hj hlinked =>
      -- Neither of the two is the binder of its side, so both stay.
      rw [List.filter_cons_of_pos (by simpa using hi), List.filter_cons_of_pos (by simpa using hj)]
      exact .cons hlinked ih

/-- Their free identities are linked one by one. -/
theorem Alike.linked_frees {t u : Term} (h : Alike B Γ t u) :
    List.Forall₂ (Linked Γ) t.frees u.frees := by
  induction t generalizing Γ u with
  | absent =>
    cases h
    exact .nil
  | var i =>
    cases h with
    | var h => exact .cons h .nil
  | abs i body param ihb ihp =>
    cases h with
    | abs _ hbody hparam => exact List.rel_append (linked_filter (ihb hbody)) (ihp hparam)
  | app i args ih =>
    cases h with
    | app hhead hargs =>
      rw [frees, frees, argsFrees_eq, argsFrees_eq]
      refine .cons hhead ?_
      have heach := hargs.forall₂ fun arg arg' harg hmem => ih arg hmem harg
      exact List.rel_flatMap heach fun _ _ h => h

/-- The free identities are the same. -/
theorem Alike.frees_eq {t u : Term} (h : Alike B [] t u) : t.frees = u.frees := by
  have hlinked := h.linked_frees.imp fun i j => Linked.eq_of_nil
  rwa [List.forall₂_eq_eq_eq] at hlinked

/-! ### Display -/

section

variable {names names' : Names}

/-- Identities among `frees` have the names of those that they belong with. -/
def NamedAlike (names names' : Names) (Γ : List (Ident × Ident)) (frees : List Ident) : Prop :=
  ∀ i ∈ frees, ∀ j, Linked Γ i j → names.lookup i = names'.lookup j

theorem NamedAlike.mono {fs fs' : List Ident} (h : NamedAlike names names' Γ fs) (hsub : fs' ⊆ fs) :
    NamedAlike names names' Γ fs' :=
  fun i hi => h i (hsub hi)

/-- A pair of binders with the same name. -/
theorem NamedAlike.below {i j : Ident} {body param : Term}
    (h : NamedAlike names names' Γ (abs i body param).frees)
    (hname : names.lookup i = names'.lookup j) :
    NamedAlike names names' ((i, j) :: Γ) body.frees := by
  intro k hk l hlinked
  cases hlinked with
  | here => exact hname
  | outside hne _ hlinked => exact h k (mem_frees_abs.mpr (.inl ⟨hk, hne⟩)) l hlinked

theorem flat_abs_present {param : Term} (hp : param.isPresent = true) (id : Ident) (body : Term) :
    (abs id body param).flat names
      = names.lookup id ++ "(" ++ body.flat names ++ ")" ++ "." ++ param.flat names := by
  cases param with
  | absent => exact absurd hp (by simp [isPresent])
  | var i => rfl
  | abs i b p => rfl
  | app i args => rfl

theorem indentedAt_abs_present {param : Term} (hp : param.isPresent = true) (level : Nat)
    (id : Ident) (body : Term) :
    (abs id body param).indentedAt names level
      = names.lookup id ++ "(\n" ++ (indent (level + 1) ++ body.indentedAt names (level + 1)) ++
        ("\n" ++ indent level ++ ")") ++ ("\n" ++ indent level ++ ".") ++
        param.indentedAt names (level + 1) := by
  cases param with
  | absent => exact absurd hp (by simp [isPresent])
  | var i => rfl
  | abs i b p => rfl
  | app i args => rfl

/-- Terms that are shown alike in both layouts. -/
def ShownAlike (names names' : Names) (t u : Term) : Prop :=
  t.flat names = u.flat names' ∧ ∀ level, t.indentedAt names level = u.indentedAt names' level

theorem ShownAlike.abs {i j : Ident} {body body' param param' : Term}
    (hname : names.lookup i = names'.lookup j) (hpresent : param.isPresent = param'.isPresent)
    (hbody : ShownAlike names names' body body') (hparam : ShownAlike names names' param param') :
    ShownAlike names names' (.abs i body param) (.abs j body' param') := by
  cases hp : param.isPresent with
  | false =>
    have hp' : param'.isPresent = false := hpresent ▸ hp
    rw [eq_absent_of_not_isPresent hp, eq_absent_of_not_isPresent hp']
    refine ⟨?_, fun level => ?_⟩
    · rw [flat, flat, hname, hbody.1]
    · rw [indentedAt, indentedAt, hname, hbody.2]
  | true =>
    have hp' : param'.isPresent = true := hpresent ▸ hp
    refine ⟨?_, fun level => ?_⟩
    · rw [flat_abs_present hp, flat_abs_present hp', hname, hbody.1, hparam.1]
    · rw [indentedAt_abs_present hp, indentedAt_abs_present hp', hname, hbody.2, hparam.2]

theorem ShownAlike.app {i j : Ident} {args args' : List Term}
    (hname : names.lookup i = names'.lookup j)
    (hargs : List.Forall₂ (ShownAlike names names') args args') :
    ShownAlike names names' (.app i args) (.app j args') := by
  refine ⟨?_, fun level => ?_⟩
  · have hflat : flatArgs names args = flatArgs names' args' := by
      induction hargs with
      | nil => rfl
      | cons harg _ ih => rw [flatArgs, flatArgs, harg.1, ih]
    rw [flat, flat, hname, hflat]
  · have hindented : indentedArgs names level args = indentedArgs names' level args' := by
      induction hargs with
      | nil => rfl
      | cons harg _ ih => rw [indentedArgs, indentedArgs, harg.2, ih]
    rw [indentedAt, indentedAt, hname, hindented]

/-- **Display.** Terms that are alike are shown alike, if binders that correspond have the same
    names, and so have free identities that belong together. -/
theorem Alike.shown {t u : Term}
    (h : Alike (fun i j => names.lookup i = names'.lookup j) Γ t u)
    (hnames : NamedAlike names names' Γ t.frees) : ShownAlike names names' t u := by
  induction t generalizing Γ u with
  | absent =>
    cases h
    exact ⟨rfl, fun _ => rfl⟩
  | var i =>
    cases h with
    | var h =>
      have hname := hnames i (mem_frees_var.mpr rfl) _ h
      exact ⟨hname, fun _ => hname⟩
  | abs i body param ihb ihp =>
    cases h with
    | abs hname hbody hparam =>
      refine .abs hname hparam.isPresent_eq (ihb hbody (hnames.below hname)) (ihp hparam ?_)
      exact hnames.mono (List.subset_append_right _ _)
  | app i args ih =>
    cases h with
    | app hhead hargs =>
      rw [frees, argsFrees_eq] at hnames
      refine .app (hnames i List.mem_cons_self _ hhead) (hargs.forall₂ fun arg arg' harg hmem => ?_)
      refine ih arg hmem harg (hnames.mono fun k hk => ?_)
      exact List.mem_cons_of_mem _ (List.mem_flatMap.mpr ⟨arg, hmem, hk⟩)

/-- They are displayed in the same way, if their binders and free identities show as the same
    names. -/
theorem Alike.display_eq {t u : Term}
    (h : Alike (fun i j => names.lookup i = names'.lookup j) [] t u)
    (hfree : ∀ i ∈ t.frees, names.lookup i = names'.lookup i) (overLines : Bool) :
    t.display names overLines = u.display names' overLines := by
  have hshown := h.shown fun i hi j hlinked => hlinked.eq_of_nil ▸ hfree i hi
  cases overLines with
  | false => exact hshown.1
  | true => exact hshown.2 0

end

/-! ### Normal forms -/

/-- Normal forms: no abstraction has a parameter, and every application has arguments. -/
inductive NormalForm : Term → Prop where
  | var (id : Ident) : NormalForm (.var id)
  | abs {id : Ident} {body : Term} (hbody : NormalForm body) : NormalForm (.abs id body .absent)
  | app {id : Ident} {args : List Term} (hne : args ≠ [])
      (hargs : ∀ arg ∈ args, NormalForm arg) : NormalForm (.app id args)

/-- A term to which no step applies is a normal form, if it is whole and tidy. -/
theorem normalForm_of_not_reducible {t : Term} (hr : t.reducible = false)
    (hw : t.isWhole = true) (ht : t.Tidy) : t.NormalForm := by
  induction ht with
  | absent => exact absurd hw (by simp [isWhole])
  | var id => exact .var id
  | abs _ _ ihb _ =>
    simp only [reducible, Bool.or_eq_false_iff] at hr
    rw [eq_absent_of_not_isPresent hr.1]
    exact .abs (ihb hr.2 (isWhole_abs.mp hw).1)
  | app hne _ ih =>
    rw [reducible, argsReducible_eq_false] at hr
    rw [isWhole_app] at hw
    exact .app hne fun arg harg => ih arg harg (hr arg harg) (hw arg harg)

/-! ### Reading a rendering back -/

section

open Lambda

variable {α : Type} {ρ : Ident → Lambda α}

/-- Identities that stand for the same belong together. -/
theorem linked_of_enterAll_eq (hρ : Function.Injective ρ) {i j : Ident}
    (h : enterAll ρ (Γ.map Prod.fst) i = enterAll ρ (Γ.map Prod.snd) j) : Linked Γ i j := by
  induction Γ with
  | nil =>
    obtain rfl := hρ h
    exact .free i
  | cons p Γ ih =>
    obtain ⟨k, l⟩ := p
    simp only [List.map_cons, enterAll] at h
    -- The innermost binder stands for the index `0`, and nothing else does.
    by_cases hi : i = k <;> by_cases hj : j = l
    · subst hi hj
      exact .here i j
    · rw [hi, enter_self, enter_of_ne _ hj] at h
      exact absurd h.symm (shift_ne_bound_zero _)
    · rw [hj, enter_self, enter_of_ne _ hi] at h
      exact absurd h (shift_ne_bound_zero _)
    · rw [enter_of_ne _ hi, enter_of_ne _ hj] at h
      exact .outside hi hj (ih (shift_injective h))

variable {sign sign' : Ident → α}

theorem alikeEach_of_map_eq {args args' : List Term} {f g : Term → Lambda α}
    (h : args.map f = args'.map g)
    (halike : ∀ arg ∈ args, ∀ arg' ∈ args', f arg = g arg' → Alike B Γ arg arg') :
    AlikeEach B Γ args args' := by
  induction args generalizing args' with
  | nil =>
    cases args' with
    | nil => exact .nil Γ
    | cons arg' args' => cases h
  | cons arg args ih =>
    cases args' with
    | nil => cases h
    | cons arg' args' =>
      rw [List.map_cons, List.map_cons, List.cons.injEq] at h
      refine .cons (halike arg List.mem_cons_self arg' List.mem_cons_self h.1) (ih h.2 ?_)
      exact fun a ha a' ha' => halike a (List.mem_cons_of_mem _ ha) a' (List.mem_cons_of_mem _ ha')

/-- **Reading back.** Normal forms that are written alike with signs are alike, and binders that
    correspond have the same sign. -/
theorem NormalForm.alike_of_render_eq (hρ : Function.Injective ρ) (hname : ∀ i, (ρ i).IsName)
    (hB : ∀ i j, sign i = sign' j → B i j) {t u : Term} (ht : t.NormalForm) (hu : u.NormalForm)
    (h : t.render (.signed sign) (enterAll ρ (Γ.map Prod.fst))
      = u.render (.signed sign') (enterAll ρ (Γ.map Prod.snd))) : Alike B Γ t u := by
  have hhead := IsName.enterAll hname
  -- A variable is written like a head without arguments, which no application is.
  induction ht generalizing Γ u with
  | var i =>
    rw [render, ← (Rendering.signed sign).apply_nil (enterAll ρ (Γ.map Prod.fst) i)] at h
    cases hu with
    | var j => exact .var (linked_of_enterAll_eq hρ h)
    | abs _ =>
      rw [render_abs_absent] at h
      exact absurd h (Rendering.signed_apply_ne_lam (hhead _ i))
    | app hne _ =>
      rw [render_app] at h
      have hargs := (Rendering.signed_apply_inj (hhead _ i) (hhead _ _) h).2
      exact absurd (List.map_eq_nil_iff.mp hargs.symm) hne
  | @abs i body hbody ih =>
    rw [render_abs_absent] at h
    cases hu with
    | var j =>
      rw [render, ← (Rendering.signed sign').apply_nil (enterAll ρ (Γ.map Prod.snd) j)] at h
      exact absurd h.symm (Rendering.signed_apply_ne_lam (hhead _ j))
    | @abs j body' hbody' =>
      rw [render_abs_absent] at h
      obtain ⟨hsign, hsame⟩ := Rendering.signed_lam_inj h
      exact .abs (hB i j hsign) (ih (Γ := (i, j) :: Γ) hbody' hsame) (.absent Γ)
    | app _ _ =>
      rw [render_app] at h
      exact absurd h.symm (Rendering.signed_apply_ne_lam (hhead _ _))
  | @app i args hne hargs ih =>
    rw [render_app] at h
    cases hu with
    | var j =>
      rw [render, ← (Rendering.signed sign').apply_nil (enterAll ρ (Γ.map Prod.snd) j)] at h
      have hargs := (Rendering.signed_apply_inj (hhead _ i) (hhead _ j) h).2
      exact absurd (List.map_eq_nil_iff.mp hargs) hne
    | abs _ =>
      rw [render_abs_absent] at h
      exact absurd h (Rendering.signed_apply_ne_lam (hhead _ i))
    | app _ hargs' =>
      rw [render_app] at h
      obtain ⟨hsameHead, hsame⟩ := Rendering.signed_apply_inj (hhead _ i) (hhead _ _) h
      refine .app (linked_of_enterAll_eq hρ hsameHead) (alikeEach_of_map_eq hsame ?_)
      exact fun arg harg arg' harg' heq => ih arg harg (hargs' arg' harg') heq

end

end Term

end DotLambda
