import DotLambda.Proofs.Reduction.Counter
import DotLambda.Proofs.Term.Meaning
import DotLambda.Reduction.Substitution
import Mathlib.Data.List.Perm.Basic

namespace DotLambda

/-!
# Reduction — copies

A copy means what the term means, and its binders are the identities handed out for it.

* `Term.copy_induct` — induction along the copying of a term and of an argument list;
* `Term.models` — the binders of a term, in the order in which copying renames them;
* `Term.advances_copy` — copying hands out an identity for each of them;
* `Term.count_binders_copy` — the binders of a copy are the identities handed out;
* `Rendering.Follows` — a rendering that writes new identities like those they are handed out for;
* `Term.render_copy` — a copy is written like the term, each identity under its new name;
* `Reducer.render_duplicate`, `Reducer.mem_frees_duplicate` — the same for `Reducer.duplicate`,
  where nothing outside the term is renamed.
-/

open Lambda

/-! ### Renaming -/

namespace Copying

variable {c c' : Copying} {id new : Ident}

/-- A binder is renewed with the next identity. -/
theorem new_eq_of_renew (h : c.renew id = (new, c')) : new = c.reducer.next :=
  (congrArg Prod.fst h).symm

/-- The reducer hands it out for the binder. -/
theorem reducer_eq_of_renew (h : c.renew id = (new, c')) :
    c'.reducer = (c.reducer.allot id).2 :=
  (congrArg (fun p => p.2.reducer) h).symm

/-- It is the only one handed out. -/
theorem advances_of_renew (h : c.renew id = (new, c')) : c.reducer.Advances [id] c'.reducer := by
  rw [reducer_eq_of_renew h]
  exact .allot c.reducer id

/-- It is the new binder. -/
theorem handed_of_renew (h : c.renew id = (new, c')) : c.reducer.handed [id] = [new] := by
  rw [new_eq_of_renew h, Reducer.handed_singleton]

/-- A binder that gets a new identity is called by it, and all else is called what it was. -/
theorem rename_of_renew (h : c.renew id = (new, c')) (i : Ident) :
    c'.rename i = if i = id then new else c.rename i := by
  have hmap : c'.renamed = c.renamed.insert id new := by
    rw [new_eq_of_renew h]
    exact (congrArg (fun p => p.2.renamed) h).symm
  rw [rename, hmap, Std.TreeMap.getD_insert]
  by_cases hi : i = id
  · rw [if_pos hi, if_pos (Std.LawfulEqCmp.compare_eq_iff_eq.mpr hi.symm)]
  · rw [if_neg hi, if_neg fun h => hi (Std.LawfulEqCmp.compare_eq_iff_eq.mp h).symm]
    rfl

/-- Other identities are called what they were. -/
theorem rename_of_renew_of_ne (h : c.renew id = (new, c')) {i : Ident} (hne : i ≠ id) :
    c'.rename i = c.rename i := by
  rw [rename_of_renew h, if_neg hne]

/-- At the start of a copy, identities are called what they are. -/
theorem rename_empty (r : Reducer) (id : Ident) : ({ reducer := r } : Copying).rename id = id :=
  Std.TreeMap.getD_emptyc

end Copying

namespace Term

/-! ### Induction along a copy -/

/-- A property of copying holds if it holds where nothing is to be done, passes from the parts of
    an abstraction to the abstraction, the parameter being copied first, and passes along an
    argument list. -/
theorem copy_induct {P : Term → Copying → Term → Copying → Prop}
    {Q : List Term → Copying → List Term → Copying → Prop}
    (absent : ∀ c, P absent c absent c)
    (var : ∀ id c, P (var id) c (var (c.rename id)) c)
    (abs : ∀ {id new body param body' param' c c₁ c₂ c₃}, param.copy c = (param', c₁) →
      c₁.renew id = (new, c₂) → body.copy c₂ = (body', c₃) → P param c param' c₁ →
      P body c₂ body' c₃ → P (abs id body param) c (abs new body' param') c₃)
    (app : ∀ {id args args' c c'}, Q args c args' c' →
      P (app id args) c (app (c.rename id) args') c')
    (nil : ∀ c, Q [] c [] c)
    (cons : ∀ {arg arg' args args' c c₁ c₂}, arg.copy c = (arg', c₁) →
      copyEach args c₁ = (args', c₂) → P arg c arg' c₁ → Q args c₁ args' c₂ →
      Q (arg :: args) c (arg' :: args') c₂) :
    (∀ {t c t' c'}, t.copy c = (t', c') → P t c t' c') ∧
      ∀ {args c args' c'}, copyEach args c = (args', c') → Q args c args' c' := by
  -- The state is threaded, so that both parts are stated about the pair that is returned.
  have hlist {args : List Term} (h : ∀ arg ∈ args, ∀ c, P arg c (arg.copy c).1 (arg.copy c).2) :
      ∀ c, Q args c (copyEach args c).1 (copyEach args c).2 := by
    induction args with
    | nil => exact nil
    | cons arg args ih =>
      intro c
      rw [List.forall_mem_cons] at h
      exact cons rfl rfl (h.1 c) (ih h.2 _)
  have hterm (t : Term) : ∀ c, P t c (t.copy c).1 (t.copy c).2 := by
    induction t with
    | absent => exact absent
    | var id => exact var id
    | abs id body param ihb ihp =>
      intro c
      exact abs rfl rfl rfl (ihp c) (ihb _)
    | app id args ih =>
      intro c
      exact app (hlist ih c)
  constructor
  · intro t c t' c' h
    have := hterm t c
    rwa [h] at this
  · intro args c args' c' h
    have : Q args c (copyEach args c).1 (copyEach args c).2 := hlist (fun arg _ => hterm arg) c
    rwa [h] at this

/-! ### What copying does to the reducer -/

mutual

/-- The binders of a term in the order in which a copy gives them new identities: those of the
    parameter of an abstraction come before the abstraction itself, and those of its body after. -/
def models : Term → List Ident
  | absent => []
  | var _ => []
  | abs id body param => models param ++ id :: models body
  | app _ args => argsModels args

/-- The binders of arguments, from left to right. -/
def argsModels : List Term → List Ident
  | [] => []
  | arg :: args => models arg ++ argsModels args

end

/-- Arguments are copied one after the other. -/
theorem argsModels_eq (args : List Term) : argsModels args = args.flatMap models := by
  induction args with
  | nil => rfl
  | cons arg args ih => rw [argsModels, ih, List.flatMap_cons]

/-- The binders of a term are renamed once each. -/
theorem models_perm (t : Term) : t.models.Perm t.binders := by
  induction t with
  | absent => exact .nil
  | var id => exact .nil
  | abs id body param ihb ihp =>
    rw [models, binders]
    exact List.perm_middle.trans (((ihp.append ihb).trans List.perm_append_comm).cons id)
  | app id args ih =>
    rw [models, argsModels_eq, binders, argsBinders_eq]
    exact List.Perm.flatMap_left args ih

/-- A copy needs as many identities as the term has binders. -/
theorem length_models (t : Term) : t.models.length = t.binders.length :=
  t.models_perm.length_eq

/-- Copying a term hands out one identity for each binder, in the order in which they are met. -/
theorem advances_copies :
    (∀ {t c t' c'}, Term.copy t c = (t', c') → c.reducer.Advances t.models c'.reducer) ∧
      ∀ {args c args' c'}, copyEach args c = (args', c') →
        c.reducer.Advances (argsModels args) c'.reducer := by
  apply copy_induct (P := fun t c _ c' => c.reducer.Advances t.models c'.reducer)
    (Q := fun args c _ c' => c.reducer.Advances (argsModels args) c'.reducer)
  case absent => exact fun c => .refl _
  case var => exact fun id c => .refl _
  case abs =>
    intro id new body param body' param' c c₁ c₂ c₃ _ hn _ hparam hbody
    exact hparam.trans ((Copying.advances_of_renew hn).trans hbody)
  case app => exact fun h => h
  case nil => exact fun c => .refl _
  case cons => exact fun _ _ harg hargs => harg.trans hargs

/-- Copying hands out an identity for each binder. -/
theorem advances_copy {t t' : Term} {c c' : Copying} (h : t.copy c = (t', c')) :
    c.reducer.Advances t.models c'.reducer :=
  advances_copies.1 h

/-- The binders of a copy are the identities handed out while it was made. -/
theorem count_binders_copy (j : Ident) {t t' : Term} {c c' : Copying}
    (h : t.copy c = (t', c')) : t'.binders.count j = (c.reducer.handed t.models).count j := by
  refine (copy_induct
    (P := fun t c t' _ => t'.binders.count j = (c.reducer.handed t.models).count j)
    (Q := fun args c args' _ =>
      (args'.flatMap binders).count j = (c.reducer.handed (argsModels args)).count j)
    ?absent ?var ?abs ?app ?nil ?cons).1 h
  case absent => exact fun _ => rfl
  case var => exact fun _ _ => rfl
  case abs =>
    intro id new body param body' param' c c₁ c₂ c₃ hp hn hb hparam hbody
    rw [models, ← List.singleton_append, (advances_copy hp).handed_append,
      (Copying.advances_of_renew hn).handed_append, Copying.handed_of_renew hn]
    -- The parameter's identities are handed out first, but stand last in the list of binders.
    simp only [binders, List.count_append, List.count_cons, List.count_nil, hparam, hbody]
    omega
  case app =>
    intro id args args' c c' hargs
    rw [binders, argsBinders_eq, hargs, models]
  case nil => exact fun _ => rfl
  case cons =>
    intro arg arg' args args' c c₁ c₂ ha _ harg hargs
    rw [argsModels, (advances_copy ha).handed_append, List.flatMap_cons, List.count_append,
      List.count_append, harg, hargs]

/-- A copy is missing exactly where the term is. -/
theorem isPresent_copy {t t' : Term} {c c' : Copying} (h : t.copy c = (t', c')) :
    t'.isPresent = t.isPresent := by
  rw [← show (t.copy c).1 = t' from congrArg Prod.fst h]
  cases t <;> rfl

/-- A copy has all parts that the term has. -/
theorem isWhole_copy {t t' : Term} {c c' : Copying} (h : t.copy c = (t', c')) :
    t'.isWhole = t.isWhole := by
  refine (copy_induct (P := fun t _ t' _ => t'.isWhole = t.isWhole)
    (Q := fun args _ args' _ => areWhole args' = areWhole args)
    ?absent ?var ?abs ?app ?nil ?cons).1 h
  case absent => exact fun _ => rfl
  case var => exact fun _ _ => rfl
  case abs =>
    intro id new body param body' param' c c₁ c₂ c₃ hp _ _ hparam hbody
    rw [isWhole, isWhole, hparam, hbody, isPresent_copy hp]
  case app =>
    intro id args args' c c' hargs
    rw [isWhole, isWhole, hargs]
  case nil => exact fun _ => rfl
  case cons =>
    intro arg arg' args args' c c₁ c₂ _ _ harg hargs
    rw [areWhole, areWhole, harg, hargs]

/-- A copy does not change what identities are called that are not bound in the term. -/
theorem rename_copies (i : Ident) :
    (∀ {t c t' c'}, Term.copy t c = (t', c') → i ∉ t.binders → c'.rename i = c.rename i) ∧
      ∀ {args c args' c'}, copyEach args c = (args', c') → i ∉ args.flatMap binders →
        c'.rename i = c.rename i := by
  apply copy_induct (P := fun t c _ c' => i ∉ t.binders → c'.rename i = c.rename i)
    (Q := fun args c _ c' => i ∉ args.flatMap binders → c'.rename i = c.rename i)
  case absent => exact fun _ _ => rfl
  case var => exact fun _ _ _ => rfl
  case abs =>
    intro id new body param body' param' c c₁ c₂ c₃ _ hn _ hparam hbody h
    simp only [mem_binders_abs, not_or] at h
    rw [hbody h.2.1, Copying.rename_of_renew_of_ne hn h.1, hparam h.2.2]
  case app =>
    intro id args args' c c' hargs h
    rw [binders, argsBinders_eq] at h
    exact hargs h
  case nil => exact fun _ _ => rfl
  case cons =>
    intro arg arg' args args' c c₁ c₂ _ _ harg hargs h
    rw [List.flatMap_cons, List.mem_append, not_or] at h
    rw [hargs h.2, harg h.1]

/-- Copying a term renames nothing but its binders. -/
theorem rename_copy {i : Ident} {t t' : Term} {c c' : Copying} (h : t.copy c = (t', c'))
    (hi : i ∉ t.binders) : c'.rename i = c.rename i :=
  (rename_copies i).1 h hi

end Term

/-! ### Renderings of new identities -/

namespace Lambda.Rendering

variable {α : Type}

/-- Every identity that `r` hands out for `models` is written like its model. -/
def Follows (R : Rendering Ident α) (r : Reducer) (models : List Ident) : Prop :=
  r.Pairs (fun j i => R.lam i = R.lam j) models

/-- Plain lambda terms do not show their binders, so that new ones are written like old ones. -/
theorem plain_follows (r : Reducer) (models : List Ident) :
    (plain : Rendering Ident α).Follows r models :=
  fun _ _ _ _ => rfl

end Lambda.Rendering

/-- A renewed binder is written like the one that it is for. -/
theorem Copying.lam_of_renew {α : Type} {R : Rendering Ident α} {c c' : Copying} {id new : Ident}
    (hn : c.renew id = (new, c')) (hR : R.Follows c.reducer [id])
    (hlow : id < c.reducer.next) : R.lam new = R.lam id := by
  rw [Copying.new_eq_of_renew hn]
  exact hR.singleton hlow

/-! ### The meaning of a copy -/

namespace Term

variable {α : Type} {R : Rendering Ident α}

/-- The names that the identities `frees` have in a copy are below the counter, and `X` relates the
    identities to them. -/
def Transfers (frees : List Ident) (c : Copying) (X : Ident → Ident → Prop) : Prop :=
  ∀ i ∈ frees, c.rename i < c.reducer.next ∧ X i (c.rename i)

/-- Copying a term leaves the names of identities that it does not bind alone. -/
theorem Transfers.of_copy {t t' : Term} {c c' : Copying} {frees : List Ident}
    {X : Ident → Ident → Prop} (h : Transfers frees c X) (hc : t.copy c = (t', c'))
    (hu : c.reducer.Unwrapped t.models) (hfree : ∀ i ∈ t.binders, i ∉ frees) :
    Transfers frees c' X := by
  intro i hi
  rw [rename_copy hc fun hb => hfree i hb hi]
  exact ⟨lt_of_lt_of_le (h i hi).1 (hu.le (advances_copy hc)), (h i hi).2⟩

/-- Below a binder that was given a new identity, the binder is related to that identity, and what
    was related before to what is not that identity. -/
theorem Transfers.of_renew {id new : Ident} {c c' : Copying} {frees : List Ident}
    {X X' : Ident → Ident → Prop} (h : Transfers (frees.filter (· ≠ id)) c X)
    (hn : c.renew id = (new, c')) (hu : c.reducer.Unwrapped [id]) (hself : X' id new)
    (hother : ∀ i j, i ≠ id → j ≠ new → X i j → X' i j) : Transfers frees c' X' := by
  have hnew := Copying.new_eq_of_renew hn
  have hlt : new < c'.reducer.next := by
    have hmem : new ∈ c.reducer.handed [id] := by
      rw [Copying.handed_of_renew hn]
      exact List.mem_singleton_self new
    exact ((hu.mem_handed (Copying.advances_of_renew hn)).mp hmem).2
  intro i hi
  by_cases hid : i = id
  · rw [Copying.rename_of_renew hn, if_pos hid, hid]
    exact ⟨hlt, hself⟩
  · -- Another identity keeps its name, which is below the new one.
    obtain ⟨hlow, hsame⟩ := h i (List.mem_filter.mpr ⟨hi, decide_eq_true hid⟩)
    rw [Copying.rename_of_renew_of_ne hn hid]
    exact ⟨lt_trans (hnew ▸ hlow) hlt, hother i _ hid (hnew ▸ ne_of_lt hlow) hsame⟩

/-- What the names in a copy stand for in `ρ'` is what the identities stand for in `ρ`. -/
def StandsFor (ρ ρ' : Ident → Lambda α) (i j : Ident) : Prop :=
  ρ' j = ρ i

/-- Below a binder, the other identities stand for what they did. -/
theorem StandsFor.enter {ρ ρ' : Ident → Lambda α} {id new i j : Ident} (hi : i ≠ id) (hj : j ≠ new)
    (h : StandsFor ρ ρ' i j) : StandsFor (enter ρ id) (enter ρ' new) i j := by
  unfold StandsFor at h ⊢
  rw [enter_of_ne _ hi, enter_of_ne _ hj, h]

/-- The new binder stands for the old one. -/
theorem StandsFor.binder (ρ ρ' : Ident → Lambda α) (id new : Ident) :
    StandsFor (Lambda.enter ρ id) (Lambda.enter ρ' new) id new := by
  unfold StandsFor
  rw [enter_self, enter_self]

/-- **Copy.** A copy is written like the term, if what its free identities are called in the copy
    stands for what they stood for, and if the new identities are above all of these names and are
    written like the binders for which they are handed out. -/
theorem render_copy {t t' : Term} {c c' : Copying} (h : t.copy c = (t', c'))
    (ht : Apart t.binders t.frees) (hlow : ∀ i ∈ t.binders, i < c.reducer.next)
    (hu : c.reducer.Unwrapped t.models) (hR : R.Follows c.reducer t.models)
    {ρ ρ' : Ident → Lambda α} (hρ : Transfers t.frees c (StandsFor ρ ρ')) :
    t'.render R ρ' = t.render R ρ := by
  refine (copy_induct
    (P := fun t c t' _ => Apart t.binders t.frees → (∀ i ∈ t.binders, i < c.reducer.next) →
      c.reducer.Unwrapped t.models → R.Follows c.reducer t.models →
      ∀ ρ ρ' : Ident → Lambda α, Transfers t.frees c (StandsFor ρ ρ') →
      t'.render R ρ' = t.render R ρ)
    (Q := fun args c args' _ => Apart (args.flatMap binders) (args.flatMap frees) →
      (∀ i ∈ args.flatMap binders, i < c.reducer.next) →
      c.reducer.Unwrapped (argsModels args) → R.Follows c.reducer (argsModels args) →
      ∀ ρ ρ' : Ident → Lambda α,
      Transfers (args.flatMap frees) c (StandsFor ρ ρ') →
      args'.map (render R · ρ') = args.map (render R · ρ))
    ?absent ?var ?abs ?app ?nil ?cons).1 h ht hlow hu hR ρ ρ' hρ
  case absent => exact fun _ _ _ _ _ _ _ _ => rfl
  case var => exact fun id _ _ _ _ _ _ _ hρ => (hρ id (mem_frees_var.mpr rfl)).2
  case abs =>
    intro id new body param body' param' c c₁ c₂ c₃ hp hn _ hparam hbody ht hlow hu hR ρ ρ' hρ
    obtain ⟨htb, htp, hid, -, hpb⟩ := ht.abs
    have hadvp := advances_copy hp
    have hadvn := Copying.advances_of_renew hn
    have hup : c.reducer.Unwrapped param.models := hu.left
    have hun : c₁.reducer.Unwrapped ([id] ++ body.models) := hu.right hadvp
    have hRn : R.Follows c₁.reducer ([id] ++ body.models) := hR.right hadvp
    have hle₁ := hup.le hadvp
    have hle₂ := hun.left.le hadvn
    simp only [mem_binders_abs] at hlow
    -- The parameter is copied first; that renames nothing that is free in the body.
    have hbodyFree : Transfers (body.frees.filter (· ≠ id)) c (StandsFor ρ ρ') := fun i hi =>
      hρ i (List.mem_append_left _ hi)
    have hafter : Transfers (body.frees.filter (· ≠ id)) c₁ (StandsFor ρ ρ') :=
      hbodyFree.of_copy hp hup fun i hi hf => hpb i hi (List.mem_filter.mp hf).1
    have hrp := hparam htp (fun i hi => hlow i (.inr (.inr hi))) hup hR.left ρ ρ' fun i hi =>
      hρ i (List.mem_append_right _ hi)
    have hrb := hbody htb
      (fun i hi => lt_of_lt_of_le (hlow i (.inr (.inl hi))) (le_trans hle₁ hle₂))
      (hun.right hadvn) (hRn.right hadvn) (enter ρ id) (enter ρ' new)
      (hafter.of_renew hn hun.left (.binder ρ ρ' id new) fun _ _ => .enter)
    exact render_abs_congr rfl
      (Copying.lam_of_renew hn hRn.left (lt_of_lt_of_le (hlow id (.inl rfl)) hle₁))
      (isPresent_copy hp) hrb hrp
  case app =>
    intro id args args' c c' hargs ht hlow hu hR ρ ρ' hρ
    have hhead := (hρ id (mem_frees_app.mpr (.inl rfl))).2
    rw [binders, argsBinders_eq] at hlow
    rw [render_app, render_app, hhead, hargs ht.app hlow hu hR ρ ρ' fun i hi =>
      hρ i (mem_frees_app.mpr (.inr (List.mem_flatMap.mp hi)))]
  case nil => exact fun _ _ _ _ _ _ _ _ => rfl
  case cons =>
    intro arg arg' args args' c c₁ c₂ ha _ harg hargs ht hlow hu hR ρ ρ' hρ
    obtain ⟨hta, hts, htas, -⟩ := ht.append
    have hadva := advances_copy ha
    have hua : c.reducer.Unwrapped arg.models := hu.left
    rw [List.flatMap_cons, List.forall_mem_append] at hlow
    have hfirst : Transfers arg.frees c (StandsFor ρ ρ') := fun i hi =>
      hρ i (List.mem_append_left _ hi)
    have hrest : Transfers (args.flatMap frees) c (StandsFor ρ ρ') := fun i hi =>
      hρ i (List.mem_append_right _ hi)
    -- No binder of the first argument is free in the others, so their names are what they were.
    rw [List.map_cons, List.map_cons, harg hta hlow.1 hua hR.left ρ ρ' hfirst,
      hargs hts (fun i hi => lt_of_lt_of_le (hlow.2 i hi) (hua.le hadva)) (hu.right hadva)
        (hR.right hadva) ρ ρ' (hrest.of_copy ha hua fun i hi => (htas i hi).2)]

end Term

/-! ### Duplicates -/

namespace Reducer

variable {r r' : Reducer} {t t' : Term}

/-- A duplicate is a copy in which nothing has been renamed yet. -/
theorem copy_of_duplicate (h : r.duplicate t = (t', r')) :
    ∃ c', t.copy { reducer := r } = (t', c') ∧ c'.reducer = r' := by
  refine ⟨(t.copy { reducer := r }).2, ?_, congrArg Prod.snd h⟩
  rw [← show (t.copy { reducer := r }).1 = t' from congrArg Prod.fst h]

/-- It hands out the identities of a copy. -/
theorem advances_duplicate (h : r.duplicate t = (t', r')) : r.Advances t.models r' := by
  obtain ⟨c', hc, rfl⟩ := copy_of_duplicate h
  exact Term.advances_copy hc

/-- It has all its parts if the term has. -/
theorem isWhole_duplicate (h : r.duplicate t = (t', r')) : t'.isWhole = t.isWhole := by
  obtain ⟨c', hc, rfl⟩ := copy_of_duplicate h
  exact Term.isWhole_copy hc

/-- The binders of a duplicate are the identities handed out for it. -/
theorem count_binders_duplicate (j : Ident) (h : r.duplicate t = (t', r')) :
    t'.binders.count j = (r.handed t.models).count j := by
  obtain ⟨c', hc, rfl⟩ := copy_of_duplicate h
  exact Term.count_binders_copy j hc

/-- A duplicate means what the term means, where the identities of the term are below the
    counter. -/
theorem render_duplicate {α : Type} {R : Rendering Ident α} (h : r.duplicate t = (t', r'))
    (ht : Term.Apart t.binders t.frees) (hlow : ∀ i ∈ t.idents, i < r.next)
    (hu : r.Unwrapped t.models) (hR : R.Follows r t.models) (ρ : Ident → Lambda α) :
    t'.render R ρ = t.render R ρ := by
  obtain ⟨c', hc, rfl⟩ := copy_of_duplicate h
  refine Term.render_copy hc ht (fun i hi => hlow i (Term.mem_idents.mpr (.inl hi))) hu hR ?_
  intro i hi
  rw [Copying.rename_empty]
  exact ⟨hlow i (Term.mem_idents.mpr (.inr hi)), rfl⟩

/-- A duplicate has the free identities of the term. -/
theorem mem_frees_duplicate (h : r.duplicate t = (t', r')) (ht : Term.Apart t.binders t.frees)
    (hlow : ∀ i ∈ t.idents, i < r.next) (hu : r.Unwrapped t.models) {i : Ident} :
    i ∈ t'.frees ↔ i ∈ t.frees := by
  rw [← Term.mem_atoms_meaning, ← Term.mem_atoms_meaning, Term.meaning, Term.meaning,
    Term.readIn_eq_render, Term.readIn_eq_render,
    render_duplicate h ht hlow hu (Rendering.plain_follows r t.models)]

end Reducer

end DotLambda
