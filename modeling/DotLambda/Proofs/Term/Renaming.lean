import DotLambda.Proofs.Term.Alpha

namespace DotLambda

/-!
# Terms — laws of renaming

Equality up to the identities of binders is an equivalence, it does not look at binders outside
that are not used, and it is kept by supplying arguments.

* `Linked.map_pairs`, `Linked.eq_of_map_pairs` — identities that belong together by a function;
* `Term.Alike.mono`, `Term.Alike.outside` — other binders outside;
* `Term.Alike.refl`, `Term.Alike.symm`, `Term.Alike.trans` — an equivalence;
* `Removes` — binders outside without one pair of them;
* `Term.Alike.reducible_eq`, `Term.Alike.length_binders_eq` — what terms that are alike have in
  common;
* `Term.Alike.supply` — arguments for terms that are alike.
-/

/-! ### Linked identities -/

namespace Linked

variable {Γ Γ₁ Γ₂ Γ₃ : List (Ident × Ident)} {i j k l : Ident}

/-- Links go both ways. -/
theorem symm (h : Linked Γ i j) : Linked (Γ.map Prod.swap) j i := by
  induction h with
  | free i => exact .free i
  | here i j => exact .here j i
  | outside hi hj _ ih => exact .outside hj hi ih

/-- Links of two chains make a chain below one more binder of each term. -/
theorem trans_below (h : ∀ i j k, Linked Γ₁ i j → Linked Γ₂ j k → Linked Γ₃ i k) {a b c : Ident}
    (h₁ : Linked ((a, b) :: Γ₁) i j) (h₂ : Linked ((b, c) :: Γ₂) j k) :
    Linked ((a, c) :: Γ₃) i k := by
  cases h₁ with
  | here =>
    cases h₂ with
    | here => exact .here _ _
    | outside hj _ _ => exact absurd rfl hj
  | outside hi hj h₁ =>
    cases h₂ with
    | here => exact absurd rfl hj
    | outside _ hk h₂ => exact .outside hi hk (h i j k h₁ h₂)

/-- Binders further in that are not the two identities do not matter. -/
theorem append {Δ : List (Ident × Ident)} (hΔ : ∀ p ∈ Δ, i ≠ p.1 ∧ j ≠ p.2) (h : Linked Γ i j) :
    Linked (Δ ++ Γ) i j := by
  induction Δ with
  | nil => exact h
  | cons p Δ ih =>
    rw [List.forall_mem_cons] at hΔ
    exact .outside hΔ.1.1 hΔ.1.2 (ih hΔ.2)

/-- A pair is linked where no other pair has one of its identities. -/
theorem of_mem {Δ : List (Ident × Ident)} (hmem : (i, j) ∈ Δ)
    (hone : ∀ p ∈ Δ, p.1 = i ∨ p.2 = j → p = (i, j)) : Linked (Δ ++ Γ) i j := by
  induction Δ with
  | nil => exact absurd hmem List.not_mem_nil
  | cons p Δ ih =>
    rw [List.forall_mem_cons] at hone
    by_cases hp : p = (i, j)
    · rw [hp]
      exact .here i j
    · have hi : i ≠ p.1 := fun hi => hp (hone.1 (.inl hi.symm))
      have hj : j ≠ p.2 := fun hj => hp (hone.1 (.inr hj.symm))
      exact .outside hi hj (ih ((List.mem_cons.mp hmem).resolve_left (Ne.symm hp)) hone.2)

/-- What is linked to an identity of the pairs is of a pair with it. -/
theorem mem_of_linked (h : Linked Γ i j) (hi : i ∈ Γ.map Prod.fst) : (i, j) ∈ Γ := by
  induction h with
  | free i => exact absurd hi List.not_mem_nil
  | here i j => exact List.mem_cons_self
  | outside hne _ _ ih =>
    rw [List.map_cons, List.mem_cons] at hi
    exact List.mem_cons_of_mem _ (ih (hi.resolve_left hne))

section

variable {is : List Ident} {f : Ident → Ident}

/-- The pairs of a function that keeps identities apart link each with its value. -/
theorem map_pairs (hf : ∀ k ∈ is, ∀ l ∈ is, f k = f l → k = l) (hi : i ∈ is) :
    Linked (is.map fun k => (k, f k)) i (f i) := by
  rw [← List.append_nil (is.map _)]
  refine of_mem (List.mem_map.mpr ⟨i, hi, rfl⟩) fun p hp hsame => ?_
  obtain ⟨k, hk, rfl⟩ := List.mem_map.mp hp
  have hki : k = i := hsame.elim id (hf k hk i hi)
  rw [hki]

/-- They link it with nothing else. -/
theorem eq_of_map_pairs (h : Linked (is.map fun k => (k, f k)) i j) (hi : i ∈ is) : j = f i := by
  have hmem := h.mem_of_linked (List.mem_map.mpr ⟨_, List.mem_map.mpr ⟨i, hi, rfl⟩, rfl⟩)
  obtain ⟨k, -, heq⟩ := List.mem_map.mp hmem
  cases heq
  rfl

end

end Linked

/-- Of the binders `Γ`, what remains without the pair `i`, `j` is `Γ'`: two identities that `Γ`
    links are this pair, or neither is of it and `Γ'` links them. -/
def Removes (i j : Ident) (Γ Γ' : List (Ident × Ident)) : Prop :=
  ∀ k l, Linked Γ k l → (k = i ∧ l = j) ∨ (k ≠ i ∧ l ≠ j ∧ Linked Γ' k l)

theorem Removes.here (i j : Ident) (Γ : List (Ident × Ident)) : Removes i j ((i, j) :: Γ) Γ := by
  intro k l h
  cases h with
  | here => exact .inl ⟨rfl, rfl⟩
  | outside hk hl h => exact .inr ⟨hk, hl, h⟩

/-- Below binders that are not of the pair. -/
theorem Removes.below {i j a b : Ident} {Γ Γ' : List (Ident × Ident)} (h : Removes i j Γ Γ')
    (ha : a ≠ i) (hb : b ≠ j) : Removes i j ((a, b) :: Γ) ((a, b) :: Γ') := by
  intro k l hlinked
  cases hlinked with
  | here => exact .inr ⟨ha, hb, .here _ _⟩
  | outside hk hl hlinked =>
    exact (h k l hlinked).imp_right fun h => ⟨h.1, h.2.1, .outside hk hl h.2.2⟩

namespace Term

variable {B B' B₁ B₂ B₃ : Ident → Ident → Prop} {Γ Γ' Γ₁ Γ₂ Γ₃ : List (Ident × Ident)}

theorem alikeEach_iff {args args' : List Term} :
    AlikeEach B Γ args args' ↔ List.Forall₂ (Alike B Γ) args args' := by
  constructor
  · intro h
    exact h.forall₂ fun _ _ harg _ => harg
  · intro h
    induction h with
    | nil => exact .nil Γ
    | cons harg _ ih => exact .cons harg ih

/-- Arguments that are alike one by one, where each is so in another way. -/
theorem AlikeEach.map {args args' : List Term} (h : AlikeEach B Γ args args')
    (hmap : ∀ arg ∈ args, ∀ arg' ∈ args', Alike B Γ arg arg' → Alike B' Γ' arg arg') :
    AlikeEach B' Γ' args args' := by
  induction args generalizing args' with
  | nil =>
    cases h
    exact .nil Γ'
  | cons arg args ih =>
    cases h with
    | cons harg hargs =>
      rw [List.forall_mem_cons] at hmap
      exact .cons (hmap.1 _ List.mem_cons_self harg)
        (ih hargs fun a ha a' ha' => hmap.2 a ha a' (List.mem_cons_of_mem _ ha'))

/-- Arguments that are alike those of a third list. -/
theorem AlikeEach.comp {args₁ args₂ args₃ : List Term} (h₁ : AlikeEach B₁ Γ₁ args₁ args₂)
    (h₂ : AlikeEach B₂ Γ₂ args₂ args₃)
    (hcomp : ∀ a ∈ args₁, ∀ b c, Alike B₁ Γ₁ a b → Alike B₂ Γ₂ b c → Alike B₃ Γ₃ a c) :
    AlikeEach B₃ Γ₃ args₁ args₃ := by
  induction args₁ generalizing args₂ args₃ with
  | nil =>
    cases h₁
    cases h₂
    exact .nil Γ₃
  | cons arg args ih =>
    rw [List.forall_mem_cons] at hcomp
    cases h₁ with
    | cons harg₁ hargs₁ =>
      cases h₂ with
      | cons harg₂ hargs₂ => exact .cons (hcomp.1 _ _ harg₁ harg₂) (ih hargs₁ hargs₂ hcomp.2)

/-- Arguments that are alike may be put behind one another. -/
theorem AlikeEach.append {args args' more more' : List Term} (h : AlikeEach B Γ args args')
    (hmore : AlikeEach B Γ more more') : AlikeEach B Γ (args ++ more) (args' ++ more') :=
  alikeEach_iff.mpr (List.rel_append (alikeEach_iff.mp h) (alikeEach_iff.mp hmore))

/-- An argument, with those in front of it and those behind it. -/
theorem AlikeEach.split {before after args' : List Term} {arg : Term}
    (h : AlikeEach B Γ (before ++ arg :: after) args') :
    ∃ before' arg' after', args' = before' ++ arg' :: after' ∧ AlikeEach B Γ before before' ∧
      Alike B Γ arg arg' ∧ AlikeEach B Γ after after' := by
  induction before generalizing args' with
  | nil =>
    cases h with
    | cons harg hafter => exact ⟨[], _, _, rfl, .nil Γ, harg, hafter⟩
  | cons first before ih =>
    cases h with
    | cons hfirst hrest =>
      obtain ⟨before', arg', after', rfl, hbefore, harg, hafter⟩ := ih hrest
      exact ⟨_ :: before', arg', after', rfl, .cons hfirst hbefore, harg, hafter⟩

namespace Alike

/-! ### Binders outside -/

/-- Only the binders outside that are used matter. -/
theorem mono {t u : Term} (h : Alike B Γ t u)
    (hlink : ∀ i ∈ t.frees, ∀ j ∈ u.frees, Linked Γ i j → Linked Γ' i j) : Alike B Γ' t u := by
  induction t generalizing Γ Γ' u with
  | absent =>
    cases h
    exact .absent Γ'
  | var i =>
    cases h with
    | var h => exact .var (hlink _ (mem_frees_var.mpr rfl) _ (mem_frees_var.mpr rfl) h)
  | abs i body param ihb ihp =>
    cases h with
    | abs hB hbody hparam =>
      refine .abs hB (ihb hbody fun k hk l hl hlinked => ?_) (ihp hparam fun k hk l hl => ?_)
      · cases hlinked with
        | here => exact .here _ _
        | outside hi hj hlinked =>
          exact .outside hi hj (hlink k (mem_frees_abs.mpr (.inl ⟨hk, hi⟩)) l
            (mem_frees_abs.mpr (.inl ⟨hl, hj⟩)) hlinked)
      · exact hlink k (mem_frees_abs.mpr (.inr hk)) l (mem_frees_abs.mpr (.inr hl))
  | app i args ih =>
    cases h with
    | app hhead hargs =>
      refine .app (hlink _ (mem_frees_app.mpr (.inl rfl)) _ (mem_frees_app.mpr (.inl rfl)) hhead)
        (hargs.map fun arg harg arg' harg' h => ih arg harg h fun k hk l hl => ?_)
      exact hlink k (mem_frees_app.mpr (.inr ⟨arg, harg, hk⟩)) l
        (mem_frees_app.mpr (.inr ⟨arg', harg', hl⟩))

/-- Terms that do not use some binders are alike below them if they are alike outside. -/
theorem outside {Δ : List (Ident × Ident)} {t u : Term} (h : Alike B Γ t u)
    (hΔ : ∀ p ∈ Δ, p.1 ∉ t.frees ∧ p.2 ∉ u.frees) : Alike B (Δ ++ Γ) t u := by
  refine h.mono fun i hi j hj hlinked => hlinked.append fun p hp => ⟨?_, ?_⟩
  · rintro rfl
    exact (hΔ p hp).1 hi
  · rintro rfl
    exact (hΔ p hp).2 hj

/-! ### An equivalence -/

/-- A term is like itself. -/
theorem refl (hB : ∀ i, B i i) (hΓ : ∀ i, Linked Γ i i) (t : Term) : Alike B Γ t t := by
  induction t generalizing Γ with
  | absent => exact .absent Γ
  | var i => exact .var (hΓ i)
  | abs i body param ihb ihp =>
    refine .abs (hB i) (ihb fun k => ?_) (ihp hΓ)
    by_cases hk : k = i
    · subst hk
      exact .here k k
    · exact .outside hk hk (hΓ k)
  | app i args ih =>
    exact .app (hΓ i) (alikeEach_iff.mpr (List.forall₂_same.mpr fun arg harg => ih arg harg hΓ))

theorem symm {t u : Term} (h : Alike B Γ t u) : Alike (flip B) (Γ.map Prod.swap) u t := by
  induction t generalizing Γ u with
  | absent =>
    cases h
    exact .absent _
  | var i =>
    cases h with
    | var h => exact .var h.symm
  | abs i body param ihb ihp =>
    cases h with
    | abs hB hbody hparam => exact .abs hB (ihb hbody) (ihp hparam)
  | app i args ih =>
    cases h with
    | app hhead hargs =>
      refine .app hhead.symm (alikeEach_iff.mpr ?_)
      exact (hargs.forall₂ fun arg arg' harg hmem => ih arg hmem harg).flip

/-- A third term that is alike the second is alike the first. -/
theorem trans {t u v : Term} (h₁ : Alike B₁ Γ₁ t u) (h₂ : Alike B₂ Γ₂ u v)
    (hB : ∀ i j k, B₁ i j → B₂ j k → B₃ i k)
    (hlink : ∀ i j k, Linked Γ₁ i j → Linked Γ₂ j k → Linked Γ₃ i k) : Alike B₃ Γ₃ t v := by
  induction t generalizing Γ₁ Γ₂ Γ₃ u v with
  | absent =>
    cases h₁
    cases h₂
    exact .absent Γ₃
  | var i =>
    cases h₁ with
    | var h₁ =>
      cases h₂ with
      | var h₂ => exact .var (hlink _ _ _ h₁ h₂)
  | abs i body param ihb ihp =>
    cases h₁ with
    | abs hB₁ hbody₁ hparam₁ =>
      cases h₂ with
      | abs hB₂ hbody₂ hparam₂ =>
        exact .abs (hB _ _ _ hB₁ hB₂) (ihb hbody₁ hbody₂ fun _ _ _ => Linked.trans_below hlink)
          (ihp hparam₁ hparam₂ hlink)
  | app i args ih =>
    cases h₁ with
    | app hhead₁ hargs₁ =>
      cases h₂ with
      | app hhead₂ hargs₂ =>
        refine .app (hlink _ _ _ hhead₁ hhead₂) (hargs₁.comp hargs₂ fun arg harg _ _ h₁ h₂ => ?_)
        exact ih arg harg h₁ h₂ hlink

/-! ### What terms that are alike have in common -/

/-- Terms that are alike are both in normal form or both not. -/
theorem reducible_eq {t u : Term} (h : Alike B Γ t u) : t.reducible = u.reducible := by
  induction t generalizing Γ u with
  | absent =>
    cases h
    rfl
  | var i =>
    cases h
    rfl
  | abs i body param ihb _ =>
    cases h with
    | abs _ hbody hparam => rw [reducible, reducible, ihb hbody, hparam.isPresent_eq]
  | app i args ih =>
    cases h with
    | app _ hargs =>
      have heach := hargs.forall₂ fun arg arg' harg hmem => ih arg hmem harg
      rw [reducible, reducible]
      clear ih hargs
      induction heach with
      | nil => rfl
      | cons harg _ ihs => rw [argsReducible, argsReducible, harg, ihs]

/-- If the free identities belong together by a function, those of the other term are its values. -/
theorem frees_of_map_pairs {f : Ident → Ident} {t u : Term}
    (h : Alike B (t.frees.map fun i => (i, f i)) t u) : u.frees = t.frees.map f := by
  have heach : List.Forall₂ (fun i j => f i = j) t.frees u.frees :=
    ((List.forall₂_and_left t.frees u.frees).mpr ⟨fun _ hi => hi, h.linked_frees⟩).imp
      fun i j ⟨hi, hlinked⟩ => (hlinked.eq_of_map_pairs hi).symm
  rw [← List.forall₂_map_left_iff, List.forall₂_eq_eq_eq] at heach
  exact heach.symm

/-- They have as many binders. -/
theorem length_binders_eq {t u : Term} (h : Alike B Γ t u) :
    t.binders.length = u.binders.length := by
  induction t generalizing Γ u with
  | absent =>
    cases h
    rfl
  | var i =>
    cases h
    rfl
  | abs i body param ihb ihp =>
    cases h with
    | abs _ hbody hparam => simp only [binders, List.length_cons, List.length_append, ihb hbody,
        ihp hparam]
  | app i args ih =>
    cases h with
    | app _ hargs =>
      have heach := hargs.forall₂ fun arg arg' harg hmem => ih arg hmem harg
      rw [binders, binders]
      clear ih hargs
      induction heach with
      | nil => rfl
      | cons harg _ ihs =>
        rw [argsBinders, argsBinders, List.length_append, List.length_append, harg, ihs]

/-! ### Arguments -/

/-- **Arguments.** Terms that are alike are alike with arguments that are alike, if their binders
    capture nothing of these. -/
theorem supply {t u : Term} {args args' : List Term} (h : Alike B Γ t u)
    (hargs : AlikeEach B Γ args args') (ht : ∀ i ∈ t.binders, ∀ arg ∈ args, i ∉ arg.frees)
    (hu : ∀ j ∈ u.binders, ∀ arg ∈ args', j ∉ arg.frees) :
    Alike B Γ (t.supply args) (u.supply args') := by
  -- Below a binder, the arguments are alike as they are outside.
  have hbelow {i j : Ident} {Γ : List (Ident × Ident)} {as as' : List Term}
      (has : AlikeEach B Γ as as') (hi : ∀ arg ∈ as, i ∉ arg.frees)
      (hj : ∀ arg ∈ as', j ∉ arg.frees) : AlikeEach B ((i, j) :: Γ) as as' :=
    has.map fun arg harg arg' harg' h =>
      h.outside (Δ := [(i, j)]) (List.forall_mem_singleton.mpr ⟨hi arg harg, hj arg' harg'⟩)
  fun_induction Term.supply t args generalizing Γ u args' with
  | case1 t =>
    cases hargs
    rwa [Term.supply]
  | case2 =>
    cases h
    cases hargs
    exact .absent Γ
  | case3 id arg args =>
    cases h with
    | var h =>
      cases hargs with
      | cons harg hargs => exact .app h (.cons harg hargs)
  | case4 id body arg args ih =>
    cases h with
    | abs hB hbody hparam =>
      cases hparam
      cases hargs with
      | cons harg hargs =>
        simp only [mem_binders_abs, List.forall_mem_cons] at ht hu
        refine .abs hB (ih hbody (hbelow hargs (ht _ (.inl rfl)).2 (hu _ (.inl rfl)).2) ?_ ?_) harg
        · exact fun i hi => (ht i (.inr (.inl hi))).2
        · exact fun j hj => (hu j (.inr (.inl hj))).2
  | case5 id body param arg args hpresent ih =>
    cases h with
    | @abs _ _ j _ body' _ param' hB hbody hparam =>
      have hp : param'.isPresent = true := by
        rw [← hparam.isPresent_eq]
        cases hp : param.isPresent with
        | true => rfl
        | false => exact absurd (eq_absent_of_not_isPresent hp) hpresent
      cases hargs with
      | cons harg hargs =>
        rw [supply_abs_present hp]
        simp only [mem_binders_abs] at ht hu
        refine .abs hB (ih hbody (hbelow (.cons harg hargs) (ht _ (.inl rfl)) (hu _ (.inl rfl)))
          ?_ ?_) hparam
        · exact fun i hi => ht i (.inr (.inl hi))
        · exact fun j hj => hu j (.inr (.inl hj))
  | case6 id own arg args =>
    cases h with
    | app hhead hown =>
      cases hargs with
      | cons harg hargs =>
        exact .app hhead (hown.append (.cons harg hargs))

end Alike

end Term

end DotLambda
