import DotLambda.Proofs.Reduction.Copy

namespace DotLambda

/-!
# Reduction — substitution

Substituting a value for a binder is entering what the value means for the binder.  Nothing is
renamed on the way: the value goes in as it stands at its first use and as a copy with new
binders at every later one, so capture is excluded by where identities can occur.

* `Term.sites` — the uses of a binder, in the order in which they are replaced;
* `Splice.models`, `Splice.Advances` — the identities that are handed out while uses are replaced;
* `Term.substitute_induct` — induction along a substitution, by the uses that it replaces;
* `Splice.given` — the binders that come into a term by it;
* `Term.count_binders_substitute` — all binders of the result, each with its source;
* `Term.mem_frees_substitute` — the free identities of the result;
* `Splice.Hosted` — where a value may go in without capture;
* `Term.render_substitute` — the meaning of the result.
-/

open Lambda

/-! ### Uses of a binder -/

namespace Term

mutual

/-- The uses of the binder `id` by the rules that replace them, in order: the parameter of an
    abstraction comes before its body, and the head of an application before its arguments.  A
    body that binds `id` anew has none. -/
def sites (id : Ident) : Term → List Rule
  | absent => []
  | var i => if i = id then [.substituteVar] else []
  | abs i body param => sites id param ++ if i = id then [] else sites id body
  | app i args => (if i = id then [.substituteApp] else []) ++ argsSites id args

/-- The uses of the binder `id` in an argument list. -/
def argsSites (id : Ident) : List Term → List Rule
  | [] => []
  | arg :: args => sites id arg ++ argsSites id args

end

section

variable {i id : Ident}

theorem sites_self (id : Ident) : (var id).sites id = [.substituteVar] := by
  rw [sites, if_pos rfl]

theorem sites_var (h : i ≠ id) : (var i).sites id = [] := by
  rw [sites, if_neg h]

/-- Below a binder of the same identity there are no uses of the outer one. -/
theorem sites_rebound (id : Ident) (body param : Term) :
    (abs id body param).sites id = param.sites id := by
  rw [sites, if_pos rfl, List.append_nil]

theorem sites_abs (h : i ≠ id) (body param : Term) :
    (abs i body param).sites id = param.sites id ++ body.sites id := by
  rw [sites, if_neg h]

theorem sites_head (id : Ident) (args : List Term) :
    (app id args).sites id = [.substituteApp] ++ argsSites id args := by
  rw [sites, if_pos rfl]

theorem sites_app (h : i ≠ id) (args : List Term) :
    (app i args).sites id = argsSites id args := by
  rw [sites, if_neg h, List.nil_append]

end

/-- The models of the identities that are handed out for a number of copies. -/
def copyModels (t : Term) (copies : Nat) : List Ident :=
  (List.replicate copies t.models).flatten

theorem copyModels_add (t : Term) (m n : Nat) :
    t.copyModels (m + n) = t.copyModels m ++ t.copyModels n := by
  rw [copyModels, List.replicate_add, List.flatten_append, copyModels, copyModels]

theorem length_copyModels (t : Term) (copies : Nat) :
    (t.copyModels copies).length = copies * t.binders.length := by
  rw [copyModels, List.length_flatten, List.map_replicate, List.sum_replicate_nat, length_models]

theorem mem_copyModels {t : Term} {copies : Nat} {i : Ident} (h : i ∈ t.copyModels copies) :
    i ∈ t.binders := by
  obtain ⟨models, hmodels, hi⟩ := List.mem_flatten.mp h
  rw [(List.mem_replicate.mp hmodels).2] at hi
  exact t.models_perm.mem_iff.mp hi

end Term

/-! ### Splices -/

namespace Splice

/-- The models of the identities that are handed out while `uses` are replaced.  The value goes in
    as it stands once; every other use takes a copy. -/
def models (s : Splice) (uses : List Rule) : List Ident :=
  s.value.copyModels (uses.length - if s.used then 0 else 1)

/-- `s'` is the splice `s` after `uses` have been replaced. -/
structure Advances (s : Splice) (uses : List Rule) (s' : Splice) : Prop where
  value : s'.value = s.value
  used : s'.used = (s.used || !uses.isEmpty)
  reducer : s.reducer.Advances (s.models uses) s'.reducer

theorem models_nil (s : Splice) : s.models [] = [] := by
  rw [models, List.length_nil, Nat.zero_sub]
  rfl

/-- The value goes in as it stands at its first use. -/
theorem models_first {s : Splice} (h : s.used = false) (rule : Rule) : s.models [rule] = [] := by
  rw [models, h]
  rfl

/-- A later use takes a copy. -/
theorem models_later {s : Splice} (h : s.used = true) (rule : Rule) :
    s.models [rule] = s.value.models := by
  rw [models, h]
  exact List.append_nil _

theorem Advances.refl (s : Splice) : s.Advances [] s :=
  ⟨rfl, by simp, by rw [models_nil]; exact .refl _⟩

/-- The identities handed out in two stretches: the value goes in as it stands in one of them at
    most. -/
theorem Advances.models_append {s s' : Splice} {uses : List Rule} (h : s.Advances uses s')
    (uses' : List Rule) : s.models (uses ++ uses') = s.models uses ++ s'.models uses' := by
  rw [models, models, models, h.value, h.used, ← Term.copyModels_add, List.length_append]
  cases s.used with
  | true => rfl
  | false =>
    cases uses with
    | nil => simp
    | cons rule uses =>
      simp only [List.length_cons, List.isEmpty_cons, Bool.not_false, Bool.or_true, if_true,
        Bool.false_eq_true, if_false]
      congr 1
      omega

theorem Advances.trans {s s' s'' : Splice} {uses uses' : List Rule} (h₁ : s.Advances uses s')
    (h₂ : s'.Advances uses' s'') : s.Advances (uses ++ uses') s'' where
  value := h₂.value.trans h₁.value
  used := by
    rw [h₂.used, h₁.used]
    cases uses <;> simp
  reducer := by
    rw [h₁.models_append]
    exact h₁.reducer.trans h₂.reducer

/-- The two ways to use a value. -/
theorem take_cases {s s' : Splice} {rule : Rule} {binder : Ident} {w : Term}
    (h : (s.count rule binder).take = (w, s')) :
    (s.used = false ∧ w = s.value ∧ s' = ⟨s.value, true, s.reducer.count rule binder⟩) ∨
      (s.used = true ∧ ∃ r', (s.reducer.count rule binder).duplicate s.value = (w, r') ∧
        s' = ⟨s.value, true, r'⟩) := by
  obtain ⟨value, used, reducer⟩ := s
  cases used with
  | false =>
    cases h
    exact .inl ⟨rfl, rfl, rfl⟩
  | true =>
    cases h
    exact .inr ⟨rfl, _, rfl, rfl⟩

/-- Replacing a use advances the splice by it. -/
theorem advances_take {s s' : Splice} {rule : Rule} {binder : Ident} {w : Term}
    (h : (s.count rule binder).take = (w, s')) : s.Advances [rule] s' := by
  have hcount := Reducer.Advances.count s.reducer rule binder
  rcases take_cases h with ⟨hused, -, rfl⟩ | ⟨hused, r', hdup, rfl⟩
  · exact ⟨rfl, by simp, by rw [models_first hused]; exact hcount⟩
  · refine ⟨rfl, by simp, ?_⟩
    rw [models_later hused]
    exact hcount.head (Reducer.advances_duplicate hdup)

/-- The binders that come into a term while `uses` are replaced: those of the value at its first
    use, and the identities handed out for the copies. -/
def given (s : Splice) (uses : List Rule) : List Ident :=
  (if !s.used && !uses.isEmpty then s.value.binders else []) ++ s.reducer.handed (s.models uses)

theorem given_nil (s : Splice) : s.given [] = [] := by
  simp [given, models_nil]

/-- No binders come in but those of the value and those that are handed out. -/
theorem given_sublist (s : Splice) (uses : List Rule) :
    (s.given uses).Sublist (s.value.binders ++ s.reducer.handed (s.models uses)) := by
  unfold given
  refine List.Sublist.append_right ?_ _
  split
  · exact .refl _
  · exact List.nil_sublist _

/-- What is given in two stretches is what is given in the first and what is given in the
    second: the value itself goes in once at most. -/
theorem Advances.count_given {s s' : Splice} {uses : List Rule} (h : s.Advances uses s')
    (uses' : List Rule) (j : Ident) :
    (s.given (uses ++ uses')).count j = (s.given uses).count j + (s'.given uses').count j := by
  rw [given, given, given, h.models_append, h.reducer.handed_append, h.value, h.used]
  simp only [List.count_append]
  -- Once used, a value stays used, so it is given in one of the two stretches at most.
  cases s.used <;> cases uses <;> cases uses' <;> simp <;> omega

/-- A value to put in that is proper and whose identities are below the counter. -/
structure Ready (s : Splice) : Prop where
  proper : s.value.Proper
  low : ∀ i ∈ s.value.idents, i < s.reducer.next

/-- A value stays ready while it is used, if the counter does not come around. -/
theorem Ready.of_advances {s s' : Splice} {uses : List Rule} (hs : s.Ready)
    (h : s.Advances uses s') (hu : s.reducer.Unwrapped (s.models uses)) : s'.Ready := by
  obtain ⟨hproper, hlow⟩ := hs
  refine ⟨h.value ▸ hproper, fun i hi => ?_⟩
  rw [h.value] at hi
  exact lt_of_lt_of_le (hlow i hi) (hu.le h.reducer)

/-- A stretch without a wrap in two parts: neither wraps, and the value is as good in between. -/
theorem Ready.split {s s' : Splice} {uses uses' : List Rule} (hs : s.Ready)
    (h : s.Advances uses s') (hu : s.reducer.Unwrapped (s.models (uses ++ uses'))) :
    s.reducer.Unwrapped (s.models uses) ∧ s'.Ready ∧ s'.reducer.Unwrapped (s'.models uses') := by
  rw [h.models_append] at hu
  exact ⟨hu.left, hs.of_advances h hu.left, hu.right h.reducer⟩

/-- What a use is replaced by has all its parts if the value has. -/
theorem isWhole_take {s s' : Splice} {rule : Rule} {binder : Ident} {w : Term}
    (h : (s.count rule binder).take = (w, s')) : w.isWhole = s.value.isWhole := by
  rcases take_cases h with ⟨-, rfl, -⟩ | ⟨-, r', hdup, -⟩
  · rfl
  · exact Reducer.isWhole_duplicate hdup

/-- The binders of what is handed out are those given. -/
theorem count_binders_take (j : Ident) {s s' : Splice} {rule : Rule} {binder : Ident} {w : Term}
    (h : (s.count rule binder).take = (w, s')) :
    w.binders.count j = (s.given [rule]).count j := by
  rcases take_cases h with ⟨hused, rfl, rfl⟩ | ⟨hused, r', hdup, rfl⟩
  · simp [given, hused, models_first hused]
  · rw [Reducer.count_binders_duplicate j hdup, given, hused, models_later hused]
    rfl

/-- What is handed out means what the value means. -/
theorem render_take {α : Type} {R : Rendering Ident α} {s s' : Splice} {rule : Rule}
    {binder : Ident} {w : Term} (h : (s.count rule binder).take = (w, s')) (hs : s.Ready)
    (hu : s.reducer.Unwrapped (s.models [rule])) (hR : R.Follows s.reducer (s.models [rule]))
    (ρ : Ident → Lambda α) : w.render R ρ = s.value.render R ρ := by
  rcases take_cases h with ⟨-, rfl, -⟩ | ⟨hused, r', hdup, rfl⟩
  · rfl
  · rw [models_later hused] at hu hR
    exact Reducer.render_duplicate hdup hs.proper.toApart hs.low hu hR ρ

/-- It has the free identities of the value. -/
theorem mem_frees_take {s s' : Splice} {rule : Rule} {binder : Ident} {w : Term}
    (h : (s.count rule binder).take = (w, s')) (hs : s.Ready)
    (hu : s.reducer.Unwrapped (s.models [rule])) {i : Ident} :
    i ∈ w.frees ↔ i ∈ s.value.frees := by
  rcases take_cases h with ⟨-, rfl, -⟩ | ⟨hused, r', hdup, rfl⟩
  · rfl
  · rw [models_later hused] at hu
    exact Reducer.mem_frees_duplicate hdup hs.proper.toApart hs.low hu

end Splice

namespace Term

/-! ### Induction along a substitution -/

/-- A property of substitution for `id` holds if it holds at variables, passes through
    abstractions, the parameter coming first, and passes through applications, where a replaced
    head comes before the arguments.  It may tell of the uses that are replaced. -/
theorem substitute_induct {id : Ident} {P : Term → Splice → List Rule → Term → Splice → Prop}
    {Q : List Term → Splice → List Rule → List Term → Splice → Prop}
    (absent : ∀ s, P absent s [] absent s)
    (site : ∀ {s s' w}, (s.count .substituteVar id).take = (w, s') →
      P (var id) s [.substituteVar] w s')
    (other : ∀ {i s}, i ≠ id → P (var i) s [] (var i) s)
    (rebound : ∀ {body param param' s s'}, P param s (param.sites id) param' s' →
      P (abs id body param) s (param.sites id) (abs id body param') s')
    (abs : ∀ {i body param body' param' s s₁ s₂}, i ≠ id → param.substitute id s = (param', s₁) →
      body.substitute id s₁ = (body', s₂) → P param s (param.sites id) param' s₁ →
      P body s₁ (body.sites id) body' s₂ →
      P (abs i body param) s (param.sites id ++ body.sites id) (abs i body' param') s₂)
    (head : ∀ {args args' w s s₁ s₂}, (s.count .substituteApp id).take = (w, s₁) →
      substituteEach id args s₁ = (args', s₂) → Q args s₁ (argsSites id args) args' s₂ →
      P (app id args) s ([.substituteApp] ++ argsSites id args) (w.supply args') s₂)
    (app : ∀ {i args args' s s'}, i ≠ id → Q args s (argsSites id args) args' s' →
      P (app i args) s (argsSites id args) (app i args') s')
    (nil : ∀ s, Q [] s [] [] s)
    (cons : ∀ {arg arg' args args' s s₁ s₂}, arg.substitute id s = (arg', s₁) →
      substituteEach id args s₁ = (args', s₂) → P arg s (arg.sites id) arg' s₁ →
      Q args s₁ (argsSites id args) args' s₂ →
      Q (arg :: args) s (arg.sites id ++ argsSites id args) (arg' :: args') s₂) :
    (∀ {t s t' s'}, t.substitute id s = (t', s') → P t s (t.sites id) t' s') ∧
      ∀ {args s args' s'}, substituteEach id args s = (args', s') →
        Q args s (argsSites id args) args' s' := by
  -- Substitution threads the splice, so that both parts are stated about the pair it returns.
  have hlist {args : List Term} (h : ∀ arg ∈ args, ∀ s,
      P arg s (arg.sites id) (arg.substitute id s).1 (arg.substitute id s).2) :
      ∀ s, Q args s (argsSites id args) (substituteEach id args s).1
        (substituteEach id args s).2 := by
    induction args with
    | nil => exact nil
    | cons arg args ih =>
      intro s
      rw [List.forall_mem_cons] at h
      exact cons rfl rfl (h.1 s) (ih h.2 _)
  have hterm (t : Term) :
      ∀ s, P t s (t.sites id) (t.substitute id s).1 (t.substitute id s).2 := by
    induction t with
    | absent => exact absent
    | var i =>
      intro s
      by_cases hi : i = id
      · subst hi
        rw [substitute, if_pos rfl, sites_self]
        exact site rfl
      · rw [substitute, if_neg hi, sites_var hi]
        exact other hi
    | abs i body param ihb ihp =>
      intro s
      by_cases hi : i = id
      · subst hi
        simp only [substitute, sites_rebound, if_true]
        exact rebound (ihp s)
      · simp only [substitute, sites_abs hi, if_neg hi]
        exact abs hi rfl rfl (ihp s) (ihb _)
    | app i args ih =>
      intro s
      by_cases hi : i = id
      · subst hi
        rw [substitute, if_pos rfl, sites_head]
        exact head rfl rfl (hlist ih _)
      · rw [substitute, if_neg hi, sites_app hi]
        exact app hi (hlist ih s)
  -- The equations name the components of that pair.
  constructor
  · intro t s t' s' h
    have := hterm t s
    rwa [h] at this
  · intro args s args' s' h
    have : Q args s (argsSites id args) (substituteEach id args s).1 (substituteEach id args s).2 :=
      hlist (fun arg _ => hterm arg) s
    rwa [h] at this

/-- What holds of each use that is replaced, and of two stretches together if it holds of both,
    holds of them all. -/
theorem substitutes_along {id : Ident} {R : Splice → List Rule → Splice → Prop}
    (refl : ∀ s, R s [] s)
    (trans : ∀ {s s₁ s₂ uses uses'}, R s uses s₁ → R s₁ uses' s₂ → R s (uses ++ uses') s₂)
    (take : ∀ {rule s s' w}, (Splice.count s rule id).take = (w, s') → R s [rule] s') :
    (∀ {t s t' s'}, substitute id t s = (t', s') → R s (t.sites id) s') ∧
      ∀ {args s args' s'}, substituteEach id args s = (args', s') →
        R s (argsSites id args) s' := by
  apply substitute_induct (P := fun _ s uses _ s' => R s uses s')
    (Q := fun _ s uses _ s' => R s uses s')
  case absent => exact refl
  case site => exact take
  case other => exact fun _ => refl _
  case rebound => exact fun h => h
  case abs => exact fun _ _ _ hparam hbody => trans hparam hbody
  case head => exact fun htake _ hargs => trans (take htake) hargs
  case app => exact fun _ h => h
  case nil => exact refl
  case cons => exact fun _ _ harg hargs => trans harg hargs

/-- A substitution replaces the uses of the binder. -/
theorem advances_substitute {id : Ident} {t t' : Term} {s s' : Splice}
    (h : t.substitute id s = (t', s')) : s.Advances (t.sites id) s' :=
  (substitutes_along .refl .trans Splice.advances_take).1 h

/-! ### Parts and binders of the result -/

/-- `t'` has the parts that `t` has. -/
def KeepsParts (t t' : Term) : Prop :=
  t'.isPresent = t.isPresent ∧ (t.isWhole = true → t'.isWhole = true)

/-- A parameter that is missing or whole stays so. -/
theorem KeepsParts.param {t t' : Term} (h : KeepsParts t t')
    (ht : t = absent ∨ t.isWhole = true) : t' = absent ∨ t'.isWhole = true := by
  rcases ht with rfl | ht
  · exact .inl (eq_absent_of_not_isPresent h.1)
  · exact .inr (h.2 ht)

/-- Substituting a whole value leaves terms and arguments with the parts that they have. -/
theorem substitutes_whole (id : Ident) :
    (∀ {t s t' s'}, substitute id t s = (t', s') → s.value.isWhole = true →
      KeepsParts t t') ∧
      ∀ {args s args' s'}, substituteEach id args s = (args', s') → s.value.isWhole = true →
        (∀ arg ∈ args, arg.isWhole = true) → ∀ arg ∈ args', arg.isWhole = true := by
  apply substitute_induct
    (P := fun t s _ t' _ => s.value.isWhole = true → KeepsParts t t')
    (Q := fun args s _ args' _ => s.value.isWhole = true →
      (∀ arg ∈ args, arg.isWhole = true) → ∀ arg ∈ args', arg.isWhole = true)
  case absent => exact fun _ _ => ⟨rfl, fun h => h⟩
  case site =>
    intro s s' w htake hv
    have hw : w.isWhole = true := (Splice.isWhole_take htake).trans hv
    exact ⟨isPresent_of_isWhole hw, fun _ => hw⟩
  case other => exact fun _ _ => ⟨rfl, fun h => h⟩
  case rebound =>
    intro body param param' s s' hparam hv
    refine ⟨rfl, fun h => ?_⟩
    rw [isWhole_abs] at h ⊢
    exact ⟨h.1, (hparam hv).param h.2⟩
  case abs =>
    intro i body param body' param' s s₁ s₂ _ hp _ hparam hbody hv
    refine ⟨rfl, fun h => ?_⟩
    rw [isWhole_abs] at h ⊢
    exact ⟨(hbody ((advances_substitute hp).value ▸ hv)).2 h.1, (hparam hv).param h.2⟩
  -- The value takes the place of the head, and is there because it is whole.
  case head =>
    intro args args' w s s₁ s₂ htake _ hargs hv
    have hw : w.isWhole = true := (Splice.isWhole_take htake).trans hv
    have hadv := Splice.advances_take htake
    refine ⟨(isPresent_supply w args').trans (isPresent_of_isWhole hw), fun h => ?_⟩
    exact isWhole_supply hw (hargs (hadv.value ▸ hv) (isWhole_app.mp h))
  case app =>
    intro i args args' s s' _ hargs hv
    exact ⟨rfl, fun h => isWhole_app.mpr (hargs hv (isWhole_app.mp h))⟩
  case nil => exact fun _ _ h => h
  case cons =>
    intro arg arg' args args' s s₁ s₂ ha _ harg hargs hv h
    rw [List.forall_mem_cons] at h ⊢
    exact ⟨(harg hv).2 h.1, hargs ((advances_substitute ha).value ▸ hv) h.2⟩

/-- Putting a whole value in leaves no part out. -/
theorem keepsParts_substitute {id : Ident} {t t' : Term} {s s' : Splice}
    (h : t.substitute id s = (t', s')) (hv : s.value.isWhole = true) : KeepsParts t t' :=
  (substitutes_whole id).1 h hv

theorem isWhole_substituteEach {id : Ident} {args args' : List Term} {s s' : Splice}
    (h : substituteEach id args s = (args', s')) (hv : s.value.isWhole = true)
    (hargs : ∀ arg ∈ args, arg.isWhole = true) : ∀ arg ∈ args', arg.isWhole = true :=
  (substitutes_whole id).2 h hv hargs

/-- **Binders.** The binders of the result are those of the term and those given by the splice,
    each as often. -/
theorem count_binders_substitute (j : Ident) {id : Ident} {t t' : Term} {s s' : Splice}
    (h : t.substitute id s = (t', s')) (hv : s.value.isWhole = true) :
    t'.binders.count j = t.binders.count j + (s.given (t.sites id)).count j := by
  refine (substitute_induct
    (P := fun t s uses t' _ => s.value.isWhole = true →
      t'.binders.count j = t.binders.count j + (s.given uses).count j)
    (Q := fun args s uses args' _ => s.value.isWhole = true →
      (args'.flatMap binders).count j = (args.flatMap binders).count j + (s.given uses).count j)
    ?absent ?site ?other ?rebound ?abs ?head ?app ?nil ?cons).1 h hv
  case absent => exact fun s _ => by simp [Splice.given_nil]
  case site =>
    intro s s' w htake _
    rw [Splice.count_binders_take j htake, binders, List.count_nil, Nat.zero_add]
  case other => exact fun _ _ => by simp [Splice.given_nil]
  case rebound =>
    intro body param param' s s' hparam hv
    simp only [binders, List.count_cons, List.count_append, hparam hv]
    omega
  -- What is given to two parts is given to them one after the other.
  case abs =>
    intro i body param body' param' s s₁ s₂ _ hp _ hparam hbody hv
    have hadv := advances_substitute hp
    rw [hadv.count_given]
    simp only [binders, List.count_cons, List.count_append, hparam hv,
      hbody (hadv.value ▸ hv)]
    omega
  case head =>
    intro args args' w s s₁ s₂ htake _ hargs hv
    have hadv := Splice.advances_take htake
    rw [hadv.count_given,
      count_binders_supply j ((Splice.isWhole_take htake).trans hv),
      Splice.count_binders_take j htake, hargs (hadv.value ▸ hv), binders, argsBinders_eq]
    omega
  case app =>
    intro i args args' s s' _ hargs hv
    rw [binders, argsBinders_eq, binders, argsBinders_eq, hargs hv]
  case nil => exact fun s _ => by simp [Splice.given_nil]
  case cons =>
    intro arg arg' args args' s s₁ s₂ ha _ harg hargs hv
    have hadv := advances_substitute ha
    rw [hadv.count_given, List.flatMap_cons, List.flatMap_cons,
      List.count_append, List.count_append, harg hv, hargs (hadv.value ▸ hv)]
    omega

/-- The binders after a substitution are those before it and those that came in. -/
theorem binders_substitute_perm {id : Ident} {t t' : Term} {s s' : Splice}
    (h : t.substitute id s = (t', s')) (hv : s.value.isWhole = true) :
    t'.binders.Perm (t.binders ++ s.given (t.sites id)) := by
  rw [List.perm_iff_count]
  intro j
  rw [List.count_append, count_binders_substitute j h hv]

/-- **Free identities.** What is free in the result was free in the term, and is not the binder
    that was replaced, or is free in the value. -/
theorem mem_frees_substitutes (i id : Ident) :
    (∀ {t s t' s'}, substitute id t s = (t', s') → s.Ready →
      s.reducer.Unwrapped (s.models (t.sites id)) → i ∈ t'.frees →
      i ∈ t.frees ∧ i ≠ id ∨ i ∈ s.value.frees) ∧
      ∀ {args s args' s'}, substituteEach id args s = (args', s') → s.Ready →
        s.reducer.Unwrapped (s.models (argsSites id args)) → i ∈ args'.flatMap frees →
        i ∈ args.flatMap frees ∧ i ≠ id ∨ i ∈ s.value.frees := by
  apply substitute_induct
    (P := fun t s uses t' _ => s.Ready → s.reducer.Unwrapped (s.models uses) → i ∈ t'.frees →
      i ∈ t.frees ∧ i ≠ id ∨ i ∈ s.value.frees)
    (Q := fun args s uses args' _ => s.Ready → s.reducer.Unwrapped (s.models uses) →
      i ∈ args'.flatMap frees → i ∈ args.flatMap frees ∧ i ≠ id ∨ i ∈ s.value.frees)
  case absent => exact fun _ _ _ h => absurd h List.not_mem_nil
  case site =>
    intro s s' w htake hs hu h
    exact .inr ((Splice.mem_frees_take htake hs hu).mp h)
  case other =>
    intro k s hk _ _ h
    exact .inl ⟨h, fun heq => hk ((mem_frees_var.mp h).symm.trans heq)⟩
  -- A rebound identity is not free in the body, so that only the parameter is looked at.
  case rebound =>
    intro body param param' s s' hparam hs hu h
    rw [mem_frees_abs] at h ⊢
    rcases h with h | h
    · exact .inl ⟨.inl h, h.2⟩
    · exact (hparam hs hu h).imp_left fun h => ⟨.inr h.1, h.2⟩
  case abs =>
    intro k body param body' param' s s₁ s₂ _ hp _ hparam hbody hs hu h
    have hadv := advances_substitute hp
    obtain ⟨hup, hs₁, hub⟩ := hs.split hadv hu
    rw [mem_frees_abs] at h ⊢
    rcases h with ⟨h, hk⟩ | h
    · have hsource := hbody hs₁ hub h
      -- The splice has moved on, but the value in it is the same.
      rw [hadv.value] at hsource
      exact hsource.imp_left fun h => ⟨.inl ⟨h.1, hk⟩, h.2⟩
    · exact (hparam hs hup h).imp_left fun h => ⟨.inr h.1, h.2⟩
  case head =>
    intro args args' w s s₁ s₂ htake _ hargs hs hu h
    have hadv := Splice.advances_take htake
    obtain ⟨hut, hs₁, hua⟩ := hs.split hadv hu
    rcases mem_frees_supply h with h | h
    · exact .inr ((Splice.mem_frees_take htake hs hut).mp h)
    · have hsource := hargs hs₁ hua (List.mem_flatMap.mpr h)
      rw [hadv.value] at hsource
      exact hsource.imp_left fun h => ⟨mem_frees_app.mpr (.inr (List.mem_flatMap.mp h.1)), h.2⟩
  case app =>
    intro k args args' s s' hk hargs hs hu h
    rw [mem_frees_app] at h ⊢
    rcases h with rfl | h
    · exact .inl ⟨.inl rfl, hk⟩
    · exact (hargs hs hu (List.mem_flatMap.mpr h)).imp_left
        fun h => ⟨.inr (List.mem_flatMap.mp h.1), h.2⟩
  case nil => exact fun _ _ _ h => absurd h List.not_mem_nil
  case cons =>
    intro arg arg' args args' s s₁ s₂ ha _ harg hargs hs hu h
    have hadv := advances_substitute ha
    obtain ⟨hua, hs₁, hus⟩ := hs.split hadv hu
    rw [List.flatMap_cons, List.mem_append] at h ⊢
    rcases h with h | h
    · exact (harg hs hua h).imp_left fun h => ⟨.inl h.1, h.2⟩
    · have hsource := hargs hs₁ hus h
      rw [hadv.value] at hsource
      exact hsource.imp_left fun h => ⟨.inr h.1, h.2⟩

/-- What is free after a substitution was free before it, and is not the binder, or is free in the
    value. -/
theorem mem_frees_substitute {i id : Ident} {t t' : Term} {s s' : Splice}
    (h : t.substitute id s = (t', s')) (hs : s.Ready)
    (hu : s.reducer.Unwrapped (s.models (t.sites id)))
    (hi : i ∈ t'.frees) : i ∈ t.frees ∧ i ≠ id ∨ i ∈ s.value.frees :=
  (mem_frees_substitutes i id).1 h hs hu hi

/-- The same for arguments. -/
theorem mem_frees_substituteEach {i id : Ident} {args args' : List Term} {s s' : Splice}
    (h : substituteEach id args s = (args', s')) (hs : s.Ready)
    (hu : s.reducer.Unwrapped (s.models (argsSites id args))) (hi : i ∈ args'.flatMap frees) :
    i ∈ args.flatMap frees ∧ i ≠ id ∨ i ∈ s.value.frees :=
  (mem_frees_substitutes i id).2 h hs hu hi

end Term

/-! ### The meaning of the result -/

/-- A place with the binders `bs` and the identities `is` may take in the value for `id`: it does
    not bind `id` anew, it binds nothing that is free in the value, nothing in it is bound by the
    value, and all that is in it is below the counter. -/
structure Splice.Hosted (s : Splice) (id : Ident) (bs is : List Ident) : Prop where
  binder : id ∉ bs
  capture : ∀ i ∈ bs, i ∉ s.value.frees
  separate : ∀ i ∈ is, i ∉ s.value.binders
  low : ∀ i ∈ is, i < s.reducer.next

theorem Splice.Hosted.mono {s : Splice} {id : Ident} {bs bs' is is' : List Ident}
    (h : s.Hosted id bs is) (hb : bs' ⊆ bs) (hi : is' ⊆ is) : s.Hosted id bs' is' :=
  ⟨fun hid => h.binder (hb hid), fun i hmem => h.capture i (hb hmem),
    fun i hmem => h.separate i (hi hmem), fun i hmem => h.low i (hi hmem)⟩

theorem Splice.Hosted.of_advances {s s' : Splice} {id : Ident} {bs is : List Ident}
    {uses : List Rule} (h : s.Hosted id bs is) (hadv : s.Advances uses s')
    (hu : s.reducer.Unwrapped (s.models uses)) : s'.Hosted id bs is := by
  refine ⟨h.binder, ?_, ?_, fun i hi => lt_of_lt_of_le (h.low i hi) (hu.le hadv.reducer)⟩
  · rw [hadv.value]
    exact h.capture
  · rw [hadv.value]
    exact h.separate

section

variable {s : Splice} {id i : Ident} {t u : Term} {ts : List Term}

theorem Splice.Hosted.body (h : s.Hosted id (Term.abs i t u).binders (Term.abs i t u).idents) :
    s.Hosted id t.binders t.idents :=
  h.mono (fun _ hk => Term.mem_binders_abs.mpr (.inr (.inl hk)))
    fun _ hk => List.mem_cons_of_mem _ (List.mem_append_left _ hk)

theorem Splice.Hosted.param (h : s.Hosted id (Term.abs i t u).binders (Term.abs i t u).idents) :
    s.Hosted id u.binders u.idents :=
  h.mono (fun _ hk => Term.mem_binders_abs.mpr (.inr (.inr hk)))
    fun _ hk => List.mem_cons_of_mem _ (List.mem_append_right _ hk)

theorem Splice.Hosted.args (h : s.Hosted id (Term.app i ts).binders (Term.app i ts).idents) :
    s.Hosted id (ts.flatMap Term.binders) (ts.flatMap Term.idents) := by
  rw [Term.binders, Term.argsBinders_eq, Term.idents, Term.argsIdents_eq] at h
  exact h.mono (List.Subset.refl _) (List.subset_cons_self _ _)

end

/-- No binder of what goes in for a head is free in its arguments, neither in those of the place
    nor in what the value brought into them. -/
theorem Splice.Hosted.no_capture {s s₁ s₂ : Splice} {rule : Rule} {id : Ident} {w : Term}
    {args args' : List Term}
    (h : s.Hosted id (args.flatMap Term.binders) (args.flatMap Term.idents))
    (hs : s.Ready) (htake : (s.count rule id).take = (w, s₁))
    (heach : Term.substituteEach id args s₁ = (args', s₂))
    (hu : s.reducer.Unwrapped (s.models ([rule] ++ Term.argsSites id args))) :
    ∀ i ∈ w.binders, ∀ arg ∈ args', i ∉ arg.frees := by
  intro i hi arg harg hfree
  have hadv := Splice.advances_take htake
  obtain ⟨hut, hs₁, hus⟩ := hs.split hadv hu
  -- What is free in an argument was free in the place or is free in the value.
  have hsource := Term.mem_frees_substituteEach heach hs₁ hus
    (List.mem_flatMap.mpr ⟨arg, harg, hfree⟩)
  rw [hadv.value] at hsource
  have hplace : i ∈ args.flatMap Term.frees → i ∈ args.flatMap Term.idents := fun h => by
    obtain ⟨a, ha, hf⟩ := List.mem_flatMap.mp h
    exact List.mem_flatMap.mpr ⟨a, ha, Term.mem_idents.mpr (.inr hf)⟩
  rcases Splice.take_cases htake with ⟨-, rfl, -⟩ | ⟨hused, r', hdup, rfl⟩
  · rcases hsource with ⟨hf, -⟩ | hf
    · exact h.separate i (hplace hf) hi
    · exact hs.proper.disjoint i hi hf
  · -- The binders of a copy are above everything that was there before.
    have hcount := Reducer.count_binders_duplicate i hdup
    have hmem : i ∈ s.reducer.handed (s.models [rule]) := by
      rw [Splice.models_later hused, ← List.count_pos_iff]
      rw [← List.count_pos_iff, hcount] at hi
      exact hi
    have hnew := ((hut.mem_handed hadv.reducer).mp hmem).1
    rcases hsource with ⟨hf, -⟩ | hf
    · exact absurd (h.low i (hplace hf)) (not_lt.mpr hnew)
    · exact absurd (hs.low i (Term.mem_idents.mpr (.inr hf))) (not_lt.mpr hnew)

namespace Term

/-- **Substitution.** The result means what the term means where the binder stands for what the
    value means. -/
theorem render_substitute {α : Type} {R : Rendering Ident α} {id : Ident} {t t' : Term}
    {s s' : Splice} (h : t.substitute id s = (t', s')) (hs : s.Ready)
    (ht : s.Hosted id t.binders t.idents) (hw : t.isWhole = true)
    (hu : s.reducer.Unwrapped (s.models (t.sites id)))
    (hR : R.Follows s.reducer (s.models (t.sites id))) (ρ : Ident → Lambda α) :
    Conv (t'.render R ρ) (t.render R (Function.update ρ id (s.value.render R ρ))) := by
  refine (substitute_induct
    (P := fun t s uses t' _ => s.Ready → s.Hosted id t.binders t.idents →
      (t = absent ∨ t.isWhole = true) → s.reducer.Unwrapped (s.models uses) →
      R.Follows s.reducer (s.models uses) → ∀ ρ : Ident → Lambda α,
      Conv (t'.render R ρ) (t.render R (Function.update ρ id (s.value.render R ρ))))
    (Q := fun args s uses args' _ => s.Ready →
      s.Hosted id (args.flatMap binders) (args.flatMap idents) →
      (∀ arg ∈ args, arg.isWhole = true) → s.reducer.Unwrapped (s.models uses) →
      R.Follows s.reducer (s.models uses) → ∀ ρ : Ident → Lambda α,
      List.Forall₂ Conv (args'.map (render R · ρ))
        (args.map (render R · (Function.update ρ id (s.value.render R ρ)))))
    ?absent ?site ?other ?rebound ?abs ?head ?app ?nil ?cons).1 h hs ht (.inr hw) hu hR ρ
  case absent => exact fun _ _ _ _ _ _ _ => Conv.refl _
  case site =>
    intro s s' w htake hs _ _ hu hR ρ
    rw [Splice.render_take htake hs hu hR, render, Function.update_self]
    exact Conv.refl _
  case other =>
    intro i s hi _ _ _ _ _ ρ
    rw [render, render, Function.update_of_ne hi]
    exact Conv.refl _
  case rebound =>
    -- The place does not bind `id` anew.
    intro body param param' s s' _ _ ht _ _ _ _
    exact absurd (mem_binders_abs.mpr (.inl rfl)) ht.binder
  case abs =>
    intro i body param body' param' s s₁ s₂ hi hp _ hparam hbody hs ht hw hu hR ρ
    have hw := isWhole_abs.mp (hw.resolve_left (by simp))
    have hadv := advances_substitute hp
    obtain ⟨hup, hs₁, hub⟩ := hs.split hadv hu
    rw [hadv.models_append] at hR
    -- The binder is not free in the value, so the value means the same below it.
    have hfree : i ∉ s.value.frees := ht.capture i (mem_binders_abs.mpr (.inl rfl))
    have hin := hbody hs₁ (ht.body.of_advances hadv hup) (.inr hw.1) hub
      (hR.right hadv.reducer) (enter ρ i)
    rw [hadv.value, render_enter hfree, update_enter ρ (Ne.symm hi)] at hin
    have hparts := keepsParts_substitute hp hs.proper.whole
    exact conv_abs hparts.1.symm hin
      (hparam hs ht.param hw.2 hup hR.left ρ)
  case head =>
    intro args args' w s s₁ s₂ htake heach hargs hs ht hw hu hR ρ
    have hw := isWhole_app.mp (hw.resolve_left (by simp))
    have hadv := Splice.advances_take htake
    obtain ⟨hut, hs₁, hua⟩ := hs.split hadv hu
    rw [hadv.models_append] at hR
    have hconv := hargs hs₁ (ht.args.of_advances hadv hut) hw hua (hR.right hadv.reducer) ρ
    rw [hadv.value] at hconv
    have hwhole := isWhole_substituteEach heach (hadv.value ▸ hs.proper.whole) hw
    -- The arguments go below the binders of what replaces the head, and are not captured.
    have hsupply := render_supply (R := R) ((Splice.isWhole_take htake).trans hs.proper.whole)
      (fun arg harg => isPresent_of_isWhole (hwhole arg harg))
      (ht.args.no_capture hs htake heach hu) ρ
    rw [Splice.render_take htake hs hut hR.left] at hsupply
    rw [render_app, Function.update_self]
    exact hsupply.trans (Rendering.conv_apply (Conv.refl _) hconv)
  case app =>
    intro i args args' s s' hi hargs hs ht hw hu hR ρ
    have hw := isWhole_app.mp (hw.resolve_left (by simp))
    rw [render_app, render_app, Function.update_of_ne hi]
    exact Rendering.conv_apply (Conv.refl _) (hargs hs ht.args hw hu hR ρ)
  case nil => exact fun _ _ _ _ _ _ _ => .nil
  case cons =>
    intro arg arg' args args' s s₁ s₂ ha _ harg hargs hs ht hw hu hR ρ
    rw [List.forall_mem_cons] at hw
    have hadv := advances_substitute ha
    obtain ⟨hua, hs₁, hus⟩ := hs.split hadv hu
    rw [hadv.models_append] at hR
    have hfirst : s.Hosted id arg.binders arg.idents :=
      ht.mono (List.subset_append_left _ _) (List.subset_append_left _ _)
    have hrest : s.Hosted id (args.flatMap binders) (args.flatMap idents) :=
      ht.mono (List.subset_append_right _ _) (List.subset_append_right _ _)
    have hconv := hargs hs₁ (hrest.of_advances hadv hua) hw.2 hus (hR.right hadv.reducer) ρ
    rw [hadv.value] at hconv
    exact .cons (harg hs hfirst (.inr hw.1) hua hR.left ρ) hconv

end Term

end DotLambda
