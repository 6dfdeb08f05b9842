import DotLambda.Proofs.Reduction.Sites
import DotLambda.Proofs.Term.Renaming

namespace DotLambda

/-!
# Reduction — copies and substitutions up to renaming

A copy is the term with other identities for its binders.  Terms that are alike stay alike when
values that are alike are put in for corresponding binders, whichever copies of these are taken.

* `Term.alike_copy`, `Reducer.alike_duplicate` — a copy is alike the term;
* `Term.Alike.sites_eq` — corresponding binders are used at the same places;
* `Term.Renamed` — equality up to renaming, whatever the binders;
* `Term.Renamed.substitute` — substitution for corresponding binders.
-/

/-! ### Copies -/

namespace Term

variable {B : Ident → Ident → Prop} {Γ : List (Ident × Ident)}

/-- **Copy.** A copy is alike the term, if its free identities are linked to what they are called in
    the copy. -/
theorem alike_copy {t t' : Term} {c c' : Copying} (h : t.copy c = (t', c'))
    (ht : Apart t.binders t.frees) (hlow : ∀ i ∈ t.binders, i < c.reducer.next)
    (hu : c.reducer.Unwrapped t.models) (hB : c.reducer.Pairs B t.models)
    (hΓ : Transfers t.frees c (Linked Γ)) : Alike B Γ t t' := by
  refine (copy_induct
    (P := fun t c t' _ => Apart t.binders t.frees → (∀ i ∈ t.binders, i < c.reducer.next) →
      c.reducer.Unwrapped t.models → c.reducer.Pairs B t.models →
      ∀ Γ, Transfers t.frees c (Linked Γ) → Alike B Γ t t')
    (Q := fun args c args' _ => Apart (args.flatMap binders) (args.flatMap frees) →
      (∀ i ∈ args.flatMap binders, i < c.reducer.next) →
      c.reducer.Unwrapped (argsModels args) → c.reducer.Pairs B (argsModels args) →
      ∀ Γ, Transfers (args.flatMap frees) c (Linked Γ) →
      AlikeEach B Γ args args')
    ?absent ?var ?abs ?app ?nil ?cons).1 h ht hlow hu hB Γ hΓ
  case absent => exact fun _ _ _ _ _ Γ _ => .absent Γ
  case var => exact fun id _ _ _ _ _ _ hΓ => .var (hΓ id (mem_frees_var.mpr rfl)).2
  case abs =>
    intro id new body param body' param' c c₁ c₂ c₃ hp hn _ hparam hbody ht hlow hu hB Γ hΓ
    obtain ⟨htb, htp, -, -, hpb⟩ := ht.abs
    have hadvp := advances_copy hp
    have hadvn := Copying.advances_of_renew hn
    have hup : c.reducer.Unwrapped param.models := hu.left
    have hun : c₁.reducer.Unwrapped ([id] ++ body.models) := hu.right hadvp
    have hBn : c₁.reducer.Pairs B ([id] ++ body.models) := hB.right hadvp
    have hle₁ := hup.le hadvp
    have hle₂ := hun.left.le hadvn
    simp only [mem_binders_abs] at hlow
    -- The parameter is copied first; that renames nothing that is free in the body.
    have hbodyFree : Transfers (body.frees.filter (· ≠ id)) c (Linked Γ) := fun i hi =>
      hΓ i (List.mem_append_left _ hi)
    have hafter : Transfers (body.frees.filter (· ≠ id)) c₁ (Linked Γ) :=
      hbodyFree.of_copy hp hup fun i hi hf => hpb i hi (List.mem_filter.mp hf).1
    have hbelow : Transfers body.frees c₂ (Linked ((id, new) :: Γ)) :=
      hafter.of_renew hn hun.left (.here id new) fun _ _ => .outside
    have hnew : B id new := by
      rw [Copying.new_eq_of_renew hn]
      exact hBn.left.singleton (lt_of_lt_of_le (hlow id (.inl rfl)) hle₁)
    refine .abs hnew ?_ ?_
    · exact hbody htb
        (fun i hi => lt_of_lt_of_le (hlow i (.inr (.inl hi))) (le_trans hle₁ hle₂))
        (hun.right hadvn) (hBn.right hadvn) _ hbelow
    · exact hparam htp (fun i hi => hlow i (.inr (.inr hi))) hup hB.left Γ
        fun i hi => hΓ i (List.mem_append_right _ hi)
  case app =>
    intro id args args' c c' hargs ht hlow hu hB Γ hΓ
    rw [binders, argsBinders_eq] at hlow
    refine .app (hΓ id (mem_frees_app.mpr (.inl rfl))).2 (hargs ht.app hlow hu hB Γ fun i hi => ?_)
    exact hΓ i (mem_frees_app.mpr (.inr (List.mem_flatMap.mp hi)))
  case nil => exact fun _ _ _ _ _ Γ _ => .nil Γ
  case cons =>
    intro arg arg' args args' c c₁ c₂ ha _ harg hargs ht hlow hu hB Γ hΓ
    obtain ⟨hta, hts, htas, -⟩ := ht.append
    have hadva := advances_copy ha
    have hua : c.reducer.Unwrapped arg.models := hu.left
    rw [List.flatMap_cons, List.forall_mem_append] at hlow
    have hfirst : Transfers arg.frees c (Linked Γ) := fun i hi => hΓ i (List.mem_append_left _ hi)
    have hrest : Transfers (args.flatMap frees) c (Linked Γ) := fun i hi =>
      hΓ i (List.mem_append_right _ hi)
    -- No binder of the first argument is free in the others, so their names are what they were.
    exact .cons (harg hta hlow.1 hua hB.left Γ hfirst)
      (hargs hts (fun i hi => lt_of_lt_of_le (hlow.2 i hi) (hua.le hadva)) (hu.right hadva)
        (hB.right hadva) Γ (hrest.of_copy ha hua fun i hi => (htas i hi).2))

end Term

/-- A duplicate is alike the term. -/
theorem Reducer.alike_duplicate {B : Ident → Ident → Prop} {r r' : Reducer} {t t' : Term}
    (h : r.duplicate t = (t', r')) (ht : Term.Apart t.binders t.frees)
    (hlow : ∀ i ∈ t.idents, i < r.next) (hu : r.Unwrapped t.models)
    (hB : r.Pairs B t.models) :
    Term.Alike B [] t t' := by
  obtain ⟨c', hc, rfl⟩ := copy_of_duplicate h
  refine Term.alike_copy hc ht (fun i hi => hlow i (Term.mem_idents.mpr (.inl hi))) hu hB ?_
  intro i hi
  rw [Copying.rename_empty]
  exact ⟨hlow i (Term.mem_idents.mpr (.inr hi)), .free i⟩

/-! ### Uses of corresponding binders -/

/-- Corresponding binders are used at the same places. -/
theorem Term.Alike.sites_eq {B : Ident → Ident → Prop} {Γ Γ' : List (Ident × Ident)} {i j : Ident}
    {t u : Term} (h : Alike B Γ t u) (hΓ : Removes i j Γ Γ') (ht : i ∉ t.binders)
    (hu : j ∉ u.binders) : t.sites i = u.sites j := by
  induction t generalizing Γ Γ' u with
  | absent =>
    cases h
    rfl
  | var k =>
    cases h with
    | var hlinked =>
      -- A use of the one binder is linked to a use of the other, and to nothing else.
      rcases hΓ _ _ hlinked with ⟨rfl, rfl⟩ | ⟨hk, hl, -⟩
      · rw [sites_self, sites_self]
      · rw [sites_var hk, sites_var hl]
  | abs k body param ihb ihp =>
    cases h with
    | abs _ hbody hparam =>
      -- Neither binder is bound again, so that the link stays in force below.
      simp only [mem_binders_abs, not_or] at ht hu
      rw [sites_abs (Ne.symm ht.1), sites_abs (Ne.symm hu.1),
        ihp hparam hΓ ht.2.2 hu.2.2,
        ihb hbody (hΓ.below (Ne.symm ht.1) (Ne.symm hu.1)) ht.2.1 hu.2.1]
  | app k args ih =>
    cases h with
    | @app _ _ l _ args' hhead hargs =>
      have heach : argsSites i args = argsSites j args' := by
        rw [binders, argsBinders_eq] at ht hu
        clear hhead
        induction args generalizing args' with
        | nil =>
          cases hargs
          rfl
        | cons arg args ihs =>
          cases hargs with
          | cons harg hargs =>
            rw [List.forall_mem_cons] at ih
            simp only [List.flatMap_cons, List.mem_append, not_or] at ht hu
            rw [argsSites, argsSites, ih.1 harg hΓ ht.1 hu.1, ihs ih.2 ht.2 hargs hu.2]
      rcases hΓ _ _ hhead with ⟨rfl, rfl⟩ | ⟨hk, hl, -⟩
      · rw [sites_head, sites_head, heach]
      · rw [sites_app hk, sites_app hl, heach]

/-! ### Renaming alone -/

/-- Terms that are equal up to the identities of their binders. -/
abbrev Term.Renamed (Γ : List (Ident × Ident)) (t u : Term) : Prop :=
  Term.Alike (fun _ _ => True) Γ t u

namespace Term.Renamed

variable {Γ : List (Ident × Ident)} {t u v : Term}

/-- Renaming goes both ways. -/
theorem swap (h : Renamed [] t u) : Renamed [] u t :=
  Alike.symm h

/-- Free identities that are kept may be renamed first. -/
theorem head (h : Renamed [] t u) (h' : Renamed Γ u v) : Renamed Γ t v :=
  h.trans h' (fun _ _ _ _ _ => trivial) fun _ _ _ hij hjk => hij.eq_of_nil ▸ hjk

/-- Or last. -/
theorem tail (h : Renamed Γ t u) (h' : Renamed [] u v) : Renamed Γ t v :=
  h.trans h' (fun _ _ _ _ _ => trivial) fun _ _ _ hij hjk => hjk.eq_of_nil ▸ hij

end Term.Renamed

namespace Splice

/-- While `uses` are replaced at a place with the binders `bs` and the identities `is`, what goes in
    is a ready value that may go in there, and the counter does not come around. -/
structure Clean (s : Splice) (uses : List Rule) (id : Ident) (bs is : List Ident) : Prop where
  ready : s.Ready
  hosted : s.Hosted id bs is
  unwrapped : s.reducer.Unwrapped (s.models uses)

/-- What is clean for all uses is clean for the first ones, and after them for the others. -/
theorem Clean.split {s s' : Splice} {uses uses' : List Rule} {id : Ident} {bs is : List Ident}
    (h : s.Clean (uses ++ uses') id bs is) (hadv : s.Advances uses s') :
    s.Clean uses id bs is ∧ s'.Clean uses' id bs is := by
  obtain ⟨hleft, hready, hright⟩ := h.ready.split hadv h.unwrapped
  exact ⟨⟨h.ready, h.hosted, hleft⟩, hready, h.hosted.of_advances hadv hleft, hright⟩

/-- What is clean beside some identities is clean beside fewer. -/
theorem Clean.mono {s : Splice} {uses : List Rule} {id : Ident} {bs bs' is is' : List Ident}
    (h : s.Clean uses id bs is) (hb : bs' ⊆ bs) (hi : is' ⊆ is) : s.Clean uses id bs' is' :=
  ⟨h.ready, h.hosted.mono hb hi, h.unwrapped⟩

/-- What goes in is the value, up to its binders. -/
theorem renamed_take {s s' : Splice} {rule : Rule} {binder : Ident} {w : Term}
    (h : (s.count rule binder).take = (w, s')) (hs : s.Ready)
    (hu : s.reducer.Unwrapped (s.models [rule])) : Term.Renamed [] s.value w := by
  rcases take_cases h with ⟨-, rfl, -⟩ | ⟨hused, r', hdup, rfl⟩
  · exact .refl (fun _ => trivial) .free _
  · rw [models_later hused] at hu
    exact Reducer.alike_duplicate hdup hs.proper.toApart hs.low hu fun _ _ _ _ => trivial

/-- What goes in for two values that are equal up to renaming is so too. -/
theorem renamed_takes {Γ : List (Ident × Ident)} {s s' q q' : Splice} {rule : Rule} {i j : Ident}
    {w v : Term} (h : (s.count rule i).take = (w, s')) (h' : (q.count rule j).take = (v, q'))
    (hs : s.Ready) (hq : q.Ready) (hu : s.reducer.Unwrapped (s.models [rule]))
    (hu' : q.reducer.Unwrapped (q.models [rule])) (hv : Term.Renamed Γ s.value q.value) :
    Term.Renamed Γ w v :=
  (renamed_take h hs hu).swap.head (hv.tail (renamed_take h' hq hu'))

/-- Values that are renamed stay so while they are used. -/
theorem Advances.renamed {Γ : List (Ident × Ident)} {s s' q q' : Splice} {uses uses' : List Rule}
    (h : s.Advances uses s') (h' : q.Advances uses' q') (hv : Term.Renamed Γ s.value q.value) :
    Term.Renamed Γ s'.value q'.value := by
  rw [h.value, h'.value]
  exact hv

end Splice

/-! ### Substitution -/

namespace Term

section

variable {i id : Ident} {t' body param arg : Term} {args args' : List Term} {s s' : Splice}

/-- The parts of a substitution in an abstraction that does not bind the identity anew. -/
theorem substitute_abs (hi : i ≠ id) (h : (abs i body param).substitute id s = (t', s')) :
    ∃ param' body' s₁, param.substitute id s = (param', s₁) ∧
      body.substitute id s₁ = (body', s') ∧ t' = abs i body' param' := by
  simp only [substitute, if_neg hi] at h
  cases h
  exact ⟨_, _, _, rfl, rfl, rfl⟩

/-- The parts of a substitution in an application whose head is replaced. -/
theorem substitute_head (h : (app id args).substitute id s = (t', s')) :
    ∃ w args' s₁, (s.count .substituteApp id).take = (w, s₁) ∧
      substituteEach id args s₁ = (args', s') ∧ t' = w.supply args' := by
  rw [substitute, if_pos rfl] at h
  cases h
  exact ⟨_, _, _, rfl, rfl, rfl⟩

/-- The parts of a substitution in an application whose head stays. -/
theorem substitute_app (hi : i ≠ id) (h : (app i args).substitute id s = (t', s')) :
    ∃ args', substituteEach id args s = (args', s') ∧ t' = app i args' := by
  rw [substitute, if_neg hi] at h
  cases h
  exact ⟨_, rfl, rfl⟩

/-- Arguments are substituted in one after the other. -/
theorem substituteEach_cons (h : substituteEach id (arg :: args) s = (args', s')) :
    ∃ first rest s₁, arg.substitute id s = (first, s₁) ∧
      substituteEach id args s₁ = (rest, s') ∧ args' = first :: rest := by
  rw [substituteEach] at h
  cases h
  exact ⟨_, _, _, rfl, rfl, rfl⟩

end

/-- **Substitution.** Values that are equal up to renaming, put in for corresponding binders of
    terms that are, give terms that are. -/
theorem Renamed.substitute {i j : Ident} {Γ Γ' : List (Ident × Ident)} {t t' u u' : Term}
    {s s' q q' : Splice} (ht : t.substitute i s = (t', s')) (h : Renamed Γ t u)
    (hu : u.substitute j q = (u', q')) (hΓ : Removes i j Γ Γ') (hv : Renamed Γ' s.value q.value)
    (hs : s.Clean (t.sites i) i t.binders t.idents)
    (hq : q.Clean (u.sites j) j u.binders u.idents) : Renamed Γ' t' u' := by
  refine (substitute_induct
    (P := fun t s uses t' _ => ∀ {Γ Γ' u u' q q'}, Renamed Γ t u → u.substitute j q = (u', q') →
      Removes i j Γ Γ' → Renamed Γ' s.value q.value → s.Clean uses i t.binders t.idents →
      q.Clean (u.sites j) j u.binders u.idents → Renamed Γ' t' u')
    (Q := fun args s uses args' _ => ∀ {Γ Γ' us us' q q'},
      AlikeEach (fun _ _ => True) Γ args us → substituteEach j us q = (us', q') →
      Removes i j Γ Γ' → Renamed Γ' s.value q.value →
      s.Clean uses i (args.flatMap binders) (args.flatMap idents) →
      q.Clean (argsSites j us) j (us.flatMap binders) (us.flatMap idents) →
      AlikeEach (fun _ _ => True) Γ' args' us')
    ?absent ?site ?other ?rebound ?abs ?head ?app ?nil ?cons).1 ht h hu hΓ hv hs hq
  case absent =>
    intro s Γ Γ' u u' q q' h hu _ _ _ _
    cases h
    cases hu
    exact .absent Γ'
  case site =>
    intro s s' w htake Γ Γ' u u' q q' h hu hΓ hv hs hq
    cases h with
    | var hlinked =>
      obtain ⟨-, rfl⟩ := (hΓ _ _ hlinked).resolve_right fun h => h.1 rfl
      rw [Term.substitute, if_pos rfl] at hu
      rw [sites_self] at hq
      exact Splice.renamed_takes htake hu hs.ready hq.ready hs.unwrapped hq.unwrapped hv
  case other =>
    intro k s hk Γ Γ' u u' q q' h hu hΓ _ _ _
    cases h with
    | var hlinked =>
      obtain ⟨-, hl, hlinked'⟩ := (hΓ _ _ hlinked).resolve_left fun h => hk h.1
      rw [Term.substitute, if_neg hl] at hu
      cases hu
      exact .var hlinked'
  case rebound =>
    intro body param param' s s' _ Γ Γ' u u' q q' _ _ _ _ hs _
    exact absurd (mem_binders_abs.mpr (.inl rfl)) hs.hosted.binder
  case abs =>
    intro k body param body' param' s s₁ s₂ hk hp _ hparam hbody Γ Γ' u u' q q' h hu hΓ hv hs hq
    cases h with
    | @abs _ _ l _ ubody _ uparam _ hbodies hparams =>
      have hl : l ≠ j := fun heq =>
        hq.hosted.binder (mem_binders_abs.mpr (.inl heq.symm))
      obtain ⟨uparam', ubody', q₁, hup, hub, rfl⟩ := substitute_abs hl hu
      have hadv := advances_substitute hp
      have hadvu := advances_substitute hup
      rw [sites_abs hl] at hq
      obtain ⟨hs₁, hs₂⟩ := hs.split hadv
      obtain ⟨hq₁, hq₂⟩ := hq.split hadvu
      -- The two binders are not free in the values, which are as good below them.
      have hbelow : Renamed ((k, l) :: Γ') s.value q.value :=
        hv.outside (Δ := [(k, l)]) (List.forall_mem_singleton.mpr
          ⟨hs.hosted.capture k (mem_binders_abs.mpr (.inl rfl)),
            hq.hosted.capture l (mem_binders_abs.mpr (.inl rfl))⟩)
      refine .abs trivial ?_ ?_
      · exact hbody hbodies hub (hΓ.below hk hl) (hadv.renamed hadvu hbelow)
          { hs₂ with hosted := hs₂.hosted.body } { hq₂ with hosted := hq₂.hosted.body }
      · exact hparam hparams hup hΓ hv { hs₁ with hosted := hs₁.hosted.param }
          { hq₁ with hosted := hq₁.hosted.param }
  case head =>
    intro args args' w s s₁ s₂ htake heach hargs Γ Γ' u u' q q' h hu hΓ hv hs hq
    cases h with
    | app hlinked heachs =>
      obtain ⟨-, rfl⟩ := (hΓ _ _ hlinked).resolve_right fun h => h.1 rfl
      obtain ⟨w', us', q₁, htake', heach', rfl⟩ := substitute_head hu
      have hadv := Splice.advances_take htake
      have hadvu := Splice.advances_take htake'
      rw [sites_head] at hq
      have hsArgs := { hs with hosted := hs.hosted.args }
      have hqArgs := { hq with hosted := hq.hosted.args }
      obtain ⟨hs₁, hs₂⟩ := hsArgs.split hadv
      obtain ⟨hq₁, hq₂⟩ := hqArgs.split hadvu
      have hheads : Renamed Γ' w w' :=
        Splice.renamed_takes htake htake' hs.ready hq.ready hs₁.unwrapped hq₁.unwrapped hv
      exact hheads.supply (hargs heachs heach' hΓ (hadv.renamed hadvu hv) hs₂ hq₂)
        (hs.hosted.args.no_capture hs.ready htake heach hs.unwrapped)
        (hq.hosted.args.no_capture hq.ready htake' heach' hq.unwrapped)
  case app =>
    intro k args args' s s' hk hargs Γ Γ' u u' q q' h hu hΓ hv hs hq
    cases h with
    | app hlinked heachs =>
      obtain ⟨-, hl, hlinked'⟩ := (hΓ _ _ hlinked).resolve_left fun h => hk h.1
      obtain ⟨us', heach', rfl⟩ := substitute_app hl hu
      rw [sites_app hl] at hq
      exact .app hlinked' (hargs heachs heach' hΓ hv { hs with hosted := hs.hosted.args }
        { hq with hosted := hq.hosted.args })
  case nil =>
    intro s Γ Γ' us us' q q' h hu _ _ _ _
    cases h
    cases hu
    exact .nil Γ'
  case cons =>
    intro arg arg' args args' s s₁ s₂ ha _ harg hargs Γ Γ' us us' q q' h hu hΓ hv hs hq
    cases h with
    | cons hfirst hrest =>
      obtain ⟨u', us', q₁, hua, hueach, rfl⟩ := substituteEach_cons hu
      have hadv := advances_substitute ha
      have hadvu := advances_substitute hua
      obtain ⟨hs₁, hs₂⟩ := hs.split hadv
      obtain ⟨hq₁, hq₂⟩ := hq.split hadvu
      refine .cons ?_ ?_
      · exact harg hfirst hua hΓ hv
          (hs₁.mono (List.subset_append_left _ _) (List.subset_append_left _ _))
          (hq₁.mono (List.subset_append_left _ _) (List.subset_append_left _ _))
      · exact hargs hrest hueach hΓ (hadv.renamed hadvu hv)
          (hs₂.mono (List.subset_append_right _ _) (List.subset_append_right _ _))
          (hq₂.mono (List.subset_append_right _ _) (List.subset_append_right _ _))

end Term

end DotLambda
