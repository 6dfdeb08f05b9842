import DotLambda.Proofs.Reduction.Steps

namespace DotLambda

/-!
# Reduction — where identities come from

Whatever a term is like, also where parts are missing or binders are repeated, its reducts have no
identities but its own and those handed out on the way.  So the counter stays past them.

* `Term.DrawnFrom` — a term all of whose identities are among some;
* `Term.DrawnFrom.supply`, `Term.DrawnFrom.copy`, `Term.DrawnFrom.substitute` — what reduction is
  made of brings in nothing but what is handed out;
* `Fires.drawn`, `RunSteps.drawn`, `runAt_drawn` — nor do steps and runs;
* `Reducer.skipPast_of_drawn` — the counter need not be moved past identities below it.
-/

namespace Term

/-- A term all of whose identities are in `S`.  Where a part other than a parameter is missing, so
    is `-1`, which counts for it in the greatest identity. -/
inductive DrawnFrom (S : Ident → Prop) : Term → Prop where
  | absent (h : S (-1)) : DrawnFrom S absent
  | var {id : Ident} (h : S id) : DrawnFrom S (var id)
  | lam {id : Ident} {body : Term} (h : S id) (hbody : DrawnFrom S body) :
      DrawnFrom S (abs id body absent)
  | abs {id : Ident} {body param : Term} (h : S id) (hbody : DrawnFrom S body)
      (hparam : DrawnFrom S param) : DrawnFrom S (abs id body param)
  | app {id : Ident} {args : List Term} (h : S id) (hargs : ∀ arg ∈ args, DrawnFrom S arg) :
      DrawnFrom S (app id args)

namespace DrawnFrom

variable {S : Ident → Prop}

/-! ### The greatest identity -/

/-- The greatest identity is one of those that count. -/
theorem greatest {t : Term} (h : t.DrawnFrom S) : S t.greatest := by
  have hmax {i j : Ident} (hi : S i) (hj : S j) : S (max i j) := by
    rcases le_total i j with hle | hle
    · rwa [max_eq_right hle]
    · rwa [max_eq_left hle]
  induction h with
  | absent h => exact h
  | var h => exact h
  | lam h _ ih => exact hmax h ih
  | @abs id body param h _ _ ihb ihp =>
    have hbody := hmax h ihb
    cases param with
    | absent => exact hbody
    | var i => exact hmax hbody ihp
    | abs i b p => exact hmax hbody ihp
    | app i args => exact hmax hbody ihp
  | @app id args h _ ih =>
    show S (argsGreatest id args)
    clear * - h ih hmax
    induction args generalizing id with
    | nil => exact h
    | cons arg args ihs =>
      rw [List.forall_mem_cons] at ih
      exact ihs (hmax h ih.1) ih.2

/-- A term drawn from some identities is drawn from more of them. -/
theorem mono {S' : Ident → Prop} {t : Term} (h : t.DrawnFrom S) (hsub : ∀ i, S i → S' i) :
    t.DrawnFrom S' := by
  induction h with
  | absent h => exact .absent (hsub _ h)
  | var h => exact .var (hsub _ h)
  | lam h _ ih => exact .lam (hsub _ h) ih
  | abs h _ _ ihb ihp => exact .abs (hsub _ h) ihb ihp
  | app h _ ih => exact .app (hsub _ h) ih

/-- A binding is drawn from `S` if its binder is there and its parts are drawn from it. -/
theorem abs_iff {id : Ident} {body param : Term} :
    (Term.abs id body param).DrawnFrom S ↔
      S id ∧ body.DrawnFrom S ∧ (param = Term.absent ∨ param.DrawnFrom S) := by
  constructor
  · intro h
    cases h with
    | lam h hbody => exact ⟨h, hbody, .inl rfl⟩
    | abs h hbody hparam => exact ⟨h, hbody, .inr hparam⟩
  · rintro ⟨h, hbody, rfl | hparam⟩
    · exact .lam h hbody
    · exact .abs h hbody hparam

end DrawnFrom

/-- The identities of a term are at most its greatest one, which counts missing parts as well. -/
theorem drawnFrom_le_greatest {low n : Ident} (hlow : low ≤ -1) {t : Term}
    (hidents : ∀ i ∈ t.idents, low ≤ i) (hn : t.greatest ≤ n) :
    t.DrawnFrom fun i => low ≤ i ∧ i ≤ n := by
  induction t with
  | absent => exact .absent ⟨hlow, hn⟩
  | var id => exact .var ⟨hidents id (by simp [idents]), hn⟩
  | abs id body param ihb ihp =>
    obtain ⟨hid, hbody, hparam⟩ := le_greatest_abs id body param
    simp only [idents, List.forall_mem_cons, List.forall_mem_append] at hidents
    refine DrawnFrom.abs_iff.mpr ⟨⟨hidents.1, le_trans hid hn⟩,
      ihb hidents.2.1 (le_trans hbody hn), hparam.imp_right fun hparam => ?_⟩
    exact ihp hidents.2.2 (le_trans hparam hn)
  | app id args ih =>
    obtain ⟨hid, hargs⟩ := le_argsGreatest id args
    simp only [idents, argsIdents_eq, List.forall_mem_cons, List.mem_flatMap] at hidents
    refine .app ⟨hidents.1, le_trans hid hn⟩ fun arg harg => ?_
    exact ih arg harg (fun i hi => hidents.2 i ⟨arg, harg, hi⟩) (le_trans (hargs arg harg) hn)

namespace DrawnFrom

variable {S : Ident → Prop}

/-! ### What reduction is made of -/

/-- Terms supplied with terms drawn from `S` stay drawn from it. -/
theorem supply {t : Term} {args : List Term} (ht : t.DrawnFrom S)
    (hargs : ∀ arg ∈ args, arg.DrawnFrom S) : (t.supply args).DrawnFrom S := by
  fun_induction Term.supply t args with
  | case1 t => exact ht
  | case2 => exact ht
  | case3 id arg args =>
    cases ht with
    | var h => exact .app h hargs
  | case4 id body arg args ih =>
    rw [List.forall_mem_cons] at hargs
    obtain ⟨h, hbody, -⟩ := abs_iff.mp ht
    exact .abs h (ih hbody hargs.2) hargs.1
  | case5 id body param arg args _ ih =>
    obtain ⟨h, hbody, hparam⟩ := abs_iff.mp ht
    exact abs_iff.mpr ⟨h, ih hbody hargs, hparam⟩
  | case6 id own arg args =>
    cases ht with
    | app h hown => exact .app h (List.forall_mem_append.mpr ⟨hown, hargs⟩)

/-- Names that binders are given in a copy are in `S`, for identities in `S`. -/
def Renames (S : Ident → Prop) (c : Copying) : Prop :=
  ∀ i, S i → S (c.rename i)

/-- Copies are drawn from `S` if the term is, and if the identities that are handed out are
    there. -/
theorem copies (S : Ident → Prop) :
    (∀ {t c t' c'}, Term.copy t c = (t', c') → (∀ i ∈ c.reducer.handed t.models, S i) →
      Renames S c → t.DrawnFrom S → t'.DrawnFrom S ∧ Renames S c') ∧
      ∀ {args c args' c'}, copyEach args c = (args', c') →
        (∀ i ∈ c.reducer.handed (argsModels args), S i) → Renames S c →
        (∀ arg ∈ args, arg.DrawnFrom S) → (∀ arg ∈ args', arg.DrawnFrom S) ∧ Renames S c' := by
  apply copy_induct
    (P := fun t c t' c' => (∀ i ∈ c.reducer.handed t.models, S i) → Renames S c →
      t.DrawnFrom S → t'.DrawnFrom S ∧ Renames S c')
    (Q := fun args c args' c' => (∀ i ∈ c.reducer.handed (argsModels args), S i) → Renames S c →
      (∀ arg ∈ args, arg.DrawnFrom S) → (∀ arg ∈ args', arg.DrawnFrom S) ∧ Renames S c')
  case absent => exact fun c _ hc ht => ⟨ht, hc⟩
  case var =>
    intro id c _ hc ht
    cases ht with
    | var h => exact ⟨.var (hc id h), hc⟩
  case abs =>
    intro id new body param body' param' c c₁ c₂ c₃ hp hn _ hparam hbody hhanded hc ht
    rw [models, ← List.singleton_append, (advances_copy hp).handed_append,
      (Copying.advances_of_renew hn).handed_append, Copying.handed_of_renew hn] at hhanded
    simp only [List.forall_mem_append, List.forall_mem_singleton] at hhanded
    obtain ⟨hhp, hnew, hhb⟩ := hhanded
    -- Below the binder, its new name counts.
    have hrenew : Renames S c₁ → Renames S c₂ := by
      intro h i hi
      rw [Copying.rename_of_renew hn]
      split
      · exact hnew
      · exact h i hi
    cases ht with
    | lam h htb =>
      cases hp
      obtain ⟨hbody', hc₃⟩ := hbody hhb (hrenew hc) htb
      exact ⟨.lam hnew hbody', hc₃⟩
    | abs h htb htp =>
      obtain ⟨hparam', hc₁⟩ := hparam hhp hc htp
      obtain ⟨hbody', hc₃⟩ := hbody hhb (hrenew hc₁) htb
      exact ⟨.abs hnew hbody' hparam', hc₃⟩
  case app =>
    intro id args args' c c' hargs hhanded hc ht
    cases ht with
    | app h hold =>
      obtain ⟨hnew, hc'⟩ := hargs hhanded hc hold
      exact ⟨.app (hc id h) hnew, hc'⟩
  case nil => exact fun c _ hc h => ⟨h, hc⟩
  case cons =>
    intro arg arg' args args' c c₁ c₂ ha _ harg hargs hhanded hc h
    rw [argsModels, (advances_copy ha).handed_append, List.forall_mem_append] at hhanded
    rw [List.forall_mem_cons] at h ⊢
    obtain ⟨harg', hc₁⟩ := harg hhanded.1 hc h.1
    obtain ⟨hargs', hc₂⟩ := hargs hhanded.2 hc₁ h.2
    exact ⟨⟨harg', hargs'⟩, hc₂⟩

/-- So are duplicates. -/
theorem duplicate {t t' : Term} {r r' : Reducer} (h : r.duplicate t = (t', r'))
    (hhanded : ∀ i ∈ r.handed t.models, S i) (ht : t.DrawnFrom S) : t'.DrawnFrom S := by
  obtain ⟨c', hc, rfl⟩ := Reducer.copy_of_duplicate h
  refine ((copies S).1 hc hhanded (fun i hi => ?_) ht).1
  rwa [Copying.rename_empty]

/-- What a use is replaced by is drawn from `S`, if the value is and what is handed out is there. -/
theorem take {s s' : Splice} {rule : Rule} {binder : Ident} {w : Term}
    (h : (s.count rule binder).take = (w, s'))
    (hhanded : ∀ i ∈ s.reducer.handed (s.models [rule]), S i) (hv : s.value.DrawnFrom S) :
    w.DrawnFrom S := by
  rcases Splice.take_cases h with ⟨-, rfl, -⟩ | ⟨hused, r', hdup, rfl⟩
  · exact hv
  · rw [Splice.models_later hused] at hhanded
    exact hv.duplicate hdup hhanded

/-- `t'` is drawn from `S` if `t` is, and missing if `t` is. -/
def Passes (S : Ident → Prop) (t t' : Term) : Prop :=
  (t = Term.absent → t' = Term.absent) ∧ (t.DrawnFrom S → t'.DrawnFrom S)

/-- For a term that is there, only what it is drawn from matters. -/
theorem Passes.of_present {t t' : Term} (hne : t ≠ Term.absent)
    (h : t.DrawnFrom S → t'.DrawnFrom S) : Passes S t t' :=
  ⟨fun heq => absurd heq hne, h⟩

/-- A binding passes `S` on, if its parts do. -/
theorem Passes.abs {id : Ident} {body param body' param' : Term}
    (hbody : body.DrawnFrom S → body'.DrawnFrom S) (hparam : Passes S param param') :
    Passes S (Term.abs id body param) (Term.abs id body' param') := by
  refine .of_present (by simp) fun ht => ?_
  obtain ⟨h, htb, htp⟩ := abs_iff.mp ht
  exact abs_iff.mpr ⟨h, hbody htb, htp.imp hparam.1 hparam.2⟩

/-- Substituting in a term and in arguments leaves them drawn from `S`. -/
theorem substitutes (S : Ident → Prop) (id : Ident) :
    (∀ {t s t' s'}, Term.substitute id t s = (t', s') →
      (∀ i ∈ s.reducer.handed (s.models (t.sites id)), S i) → s.value.DrawnFrom S →
      Passes S t t') ∧
      ∀ {args s args' s'}, substituteEach id args s = (args', s') →
        (∀ i ∈ s.reducer.handed (s.models (argsSites id args)), S i) → s.value.DrawnFrom S →
        (∀ arg ∈ args, arg.DrawnFrom S) → ∀ arg ∈ args', arg.DrawnFrom S := by
  apply Term.substitute_induct
    (P := fun t s uses t' _ => (∀ i ∈ s.reducer.handed (s.models uses), S i) →
      s.value.DrawnFrom S → Passes S t t')
    (Q := fun args s uses args' _ => (∀ i ∈ s.reducer.handed (s.models uses), S i) →
      s.value.DrawnFrom S → (∀ arg ∈ args, arg.DrawnFrom S) → ∀ arg ∈ args', arg.DrawnFrom S)
  case absent => exact fun _ _ _ => ⟨fun h => h, fun h => h⟩
  case site => exact fun htake hhanded hv => .of_present (by simp) fun _ => hv.take htake hhanded
  case other => exact fun _ _ _ => ⟨fun h => h, fun h => h⟩
  case rebound => exact fun hparam hhanded hv => .abs (fun h => h) (hparam hhanded hv)
  -- What is handed out for two parts is handed out for one and then for the other.
  case abs =>
    intro i body param body' param' s s₁ s₂ _ hp _ hparam hbody hhanded hv
    have hadv := advances_substitute hp
    rw [hadv.models_append, hadv.reducer.handed_append, List.forall_mem_append] at hhanded
    exact .abs (hbody hhanded.2 (hadv.value ▸ hv)).2 (hparam hhanded.1 hv)
  case head =>
    intro args args' w s s₁ s₂ htake _ hargs hhanded hv
    have hadv := Splice.advances_take htake
    rw [hadv.models_append, hadv.reducer.handed_append, List.forall_mem_append] at hhanded
    refine .of_present (by simp) fun ht => ?_
    cases ht with
    | app _ hold =>
      exact (hv.take htake hhanded.1).supply (hargs hhanded.2 (hadv.value ▸ hv) hold)
  case app =>
    intro i args args' s s' _ hargs hhanded hv
    refine .of_present (by simp) fun ht => ?_
    cases ht with
    | app h hold => exact .app h (hargs hhanded hv hold)
  case nil => exact fun _ _ _ h => h
  case cons =>
    intro arg arg' args args' s s₁ s₂ ha _ harg hargs hhanded hv h
    have hadv := advances_substitute ha
    rw [hadv.models_append, hadv.reducer.handed_append, List.forall_mem_append] at hhanded
    rw [List.forall_mem_cons] at h ⊢
    exact ⟨(harg hhanded.1 hv).2 h.1, hargs hhanded.2 (hadv.value ▸ hv) h.2⟩

/-- A term stays drawn from `S` when a value drawn from it is substituted. -/
theorem substitute {id : Ident} {t t' : Term} {s s' : Splice} (h : t.substitute id s = (t', s'))
    (hhanded : ∀ i ∈ s.reducer.handed (s.models (t.sites id)), S i) (hv : s.value.DrawnFrom S)
    (ht : t.DrawnFrom S) : t'.DrawnFrom S :=
  ((substitutes S id).1 h hhanded hv).2 ht

end DrawnFrom

end Term

/-! ### Steps and runs -/

/-- A run brings in nothing but what is handed out. -/
structure RunDrawn (t : Term) (m : Machine) (fs : List Firing) (run : Run) : Prop where
  advances : RunAdvances t m fs run
  drawn : ∀ S : Ident → Prop, (∀ i ∈ m.toReducer.handed (Firing.modelsAll fs), S i) →
    t.DrawnFrom S → run.term.DrawnFrom S

section

variable {R : ParamRunner} (hR : R.Satisfies RunDrawn) {S : Ident → Prop}
include hR

/-- **Steps.** Where runs of parameters bring in nothing but what is handed out, neither do
    steps. -/
theorem Fires.drawn {t t' : Term} {m m' : Machine} {f : Firing} (h : Fires R t m f t' m')
    (hhanded : ∀ i ∈ m.toReducer.handed f.models, S i) (ht : t.DrawnFrom S) :
    t'.DrawnFrom S := by
  induction h with
  | @redex id body param t' m run s' _ hparam hrun hsub =>
    obtain ⟨hadv, hdrawn⟩ := hR _ _ _ hrun
    -- The parameter's run comes first, and the substitution second.
    rw [Firing.models, hadv.around.handed_append, List.forall_mem_append] at hhanded
    obtain ⟨-, hbody, hparam'⟩ := Term.DrawnFrom.abs_iff.mp ht
    have hdrawnParam := hparam'.resolve_left fun heq => by simp [heq, Term.isPresent] at hparam
    exact .substitute hsub hhanded.2 (hdrawn S hhanded.1 hdrawnParam) hbody
  | body _ ih =>
    obtain ⟨h, hbody, hparam⟩ := Term.DrawnFrom.abs_iff.mp ht
    exact Term.DrawnFrom.abs_iff.mpr ⟨h, ih hhanded hbody, hparam⟩
  | arg _ _ ih =>
    cases ht with
    | app h hargs =>
      rw [List.forall_mem_append, List.forall_mem_cons] at hargs
      refine .app h ?_
      rw [List.forall_mem_append, List.forall_mem_cons]
      exact ⟨hargs.1, ih hhanded hargs.2.1, hargs.2.2⟩

/-- A chain of steps brings in nothing but what is handed out. -/
theorem RunSteps.drawn {t t' : Term} {m m' : Machine} {fs : List Firing}
    (h : RunSteps R t m fs t' m') (hhanded : ∀ i ∈ m.toReducer.handed (Firing.modelsAll fs), S i)
    (ht : t.DrawnFrom S) : t'.DrawnFrom S := by
  induction h with
  | refl => exact ht
  | head hfires _ ih =>
    have hadv := hfires.advances fun p m run hp => (hR p m run hp).advances
    rw [Firing.modelsAll, hadv.handed_append, List.forall_mem_append] at hhanded
    exact ih hhanded.2 (hfires.drawn hR hhanded.1 ht)

end

/-- **Runs.** At every depth and under every budget, a run brings in nothing but what is handed
    out. -/
theorem runAt_drawn {depth budget : Nat} {t : Term} {m : Machine} {run : Run}
    (h : runAt depth budget t m = some run) : RunDrawn t m (firingsAt depth budget t m) run := by
  refine runAt_induct (P := RunDrawn) ?_ h
  intro R budget t m run hparams hrun
  have hsteps := runWith_steps hrun
  exact ⟨hsteps.advances fun p m run hp => (hparams p m run hp).advances,
    fun S hhanded ht => hsteps.drawn hparams hhanded ht⟩

/-! ### The counter -/

namespace Reducer

variable {r r' : Reducer} {models : List Ident} {t t' : Term}

/-- Identities that are words below the counter. -/
def Known (r : Reducer) (i : Ident) : Prop :=
  -2 ^ 63 ≤ i ∧ i < r.next

/-- As long as the counter does not come around, it stays above the identities that it was above,
    and comes to be above those handed out. -/
theorem Known.of_advances (hu : r.Unwrapped models) (hadv : r.Advances models r') {i : Ident}
    (h : r.Known i ∨ i ∈ r.handed models) : r'.Known i := by
  rcases h with ⟨hlow, hhigh⟩ | hnew
  · exact ⟨hlow, lt_of_lt_of_le hhigh (hu.le hadv)⟩
  · obtain ⟨hlow, hhigh⟩ := (hu.mem_handed hadv).mp hnew
    exact ⟨le_trans hu.1 hlow, hhigh⟩

/-- Where the counter is above all identities of a term, it need not be moved. -/
theorem skipPast_of_drawn (ht : t.DrawnFrom r.Known) (hr : r.next < 2 ^ 63) :
    r.skipPast t = r := by
  obtain ⟨hlow, hhigh⟩ := ht.greatest
  have hnext : Ident.next t.greatest ≤ r.next := by
    rw [Ident.next_eq hlow (by lia)]
    lia
  unfold skipPast
  rw [max_eq_left hnext]

end Reducer

end DotLambda
