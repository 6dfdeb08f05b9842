import DotLambda.Proofs.Reading.Resolution
import DotLambda.Proofs.Reading.Verdicts
import DotLambda.Proofs.Term.Renaming

namespace DotLambda

/-!
# Reading — the same text again

A reader can read a text again.  Its scope is what it was, so the verdict is the same; and a term
that comes of it is the first one but for its binders, which are new, because free names keep the
identities that they have.

* `Term.Holds` — terms with all their binders in another;
* `Apart` — terms whose binders are not in use outside;
* `Resolves.alike` — terms that come of one tree are alike, if their binders are apart;
* `Reader.program_again` — reading a program again.
-/

/-! ### Parts of a term that was resolved -/

namespace Term

variable {B : Ident → Ident → Prop} {Γ : List (Ident × Ident)} {i j : Ident}
  {args args' : List Term}

/-- A name with the arguments that it takes, if there are any. -/
theorem mem_frees_headed :
    j ∈ (if args.isEmpty then var i else app i args).frees ↔ j = i ∨ j ∈ args.flatMap frees := by
  cases args with
  | nil => simp
  | cons arg args => simp [frees, argsFrees_eq]

/-- The binders of a name with arguments are those of the arguments. -/
theorem binders_headed :
    (if args.isEmpty then var i else app i args).binders = args.flatMap binders := by
  cases args with
  | nil => rfl
  | cons arg args => simp [binders, argsBinders_eq]

/-- Linked names with arguments that are alike are alike. -/
theorem Alike.headed (h : Linked Γ i j) (hargs : AlikeEach B Γ args args') :
    Alike B Γ (if args.isEmpty then Term.var i else Term.app i args)
      (if args'.isEmpty then Term.var j else Term.app j args') := by
  cases hargs with
  | nil => exact .var h
  | cons harg hargs => exact .app h (.cons harg hargs)

/-- Of arguments that are alike, the first are. -/
theorem AlikeEach.headD (h : AlikeEach B Γ args args') :
    Alike B Γ (args.headD .absent) (args'.headD .absent) := by
  cases h with
  | nil => exact .absent _
  | cons harg _ => exact harg

/-- And so are the others. -/
theorem AlikeEach.tail (h : AlikeEach B Γ args args') : AlikeEach B Γ args.tail args'.tail := by
  cases h with
  | nil => exact .nil _
  | cons _ hargs => exact hargs

/-- The binders of the terms `all` are among those of `t`, each in a place of its own. -/
def Holds (t : Term) (all : List Term) : Prop :=
  ∃ new, t.binders.Perm (new ++ all.flatMap binders)

namespace Holds

variable {t u : Term} {all : List Term}

/-- Terms have no binders that the term which holds them has not. -/
theorem subset (h : Holds t all) (hu : u ∈ all) : u.binders ⊆ t.binders := by
  obtain ⟨new, hperm⟩ := h
  intro i hi
  exact hperm.mem_iff.mpr (List.mem_append_right _ (List.mem_flatMap.mpr ⟨u, hu, hi⟩))

/-- A term with distinct binders holds terms with distinct binders. -/
theorem nodup (h : Holds t all) (ht : t.binders.Nodup) (hu : u ∈ all) : u.binders.Nodup := by
  obtain ⟨new, hperm⟩ := h
  have hall := (List.nodup_append'.mp (hperm.nodup_iff.mp ht)).2.1
  exact (List.nodup_flatMap.mp hall).1 u hu

/-- It holds fewer terms as well. -/
theorem behind {own queue : List Term} (h : Holds t (own ++ queue)) : Holds t queue := by
  obtain ⟨new, hperm⟩ := h
  refine ⟨new ++ own.flatMap Term.binders, ?_⟩
  rwa [List.append_assoc, ← List.flatMap_append]

/-- A name with arguments holds them. -/
theorem headed (i : Ident) (all : List Term) :
    Holds (if all.isEmpty then .var i else .app i all) all :=
  ⟨[], .of_eq Term.binders_headed⟩

/-- A binder takes the first argument, and its body holds the others. -/
theorem abs {i : Ident} {body : Term} (h : Holds body all.tail) :
    Holds (.abs i body (all.headD .absent)) all := by
  obtain ⟨new, hperm⟩ := h
  refine ⟨i :: new, ?_⟩
  rw [Term.binders, ← flatMap_headD_tail rfl all, List.cons_append]
  refine .cons _ ((hperm.append_right _).trans ?_)
  rw [List.append_assoc]
  exact List.perm_append_comm.append_left new

end Holds

end Term

section

variable {names : Names} {env env' : String → Ident} {e : Expr} {as : List Atom}
  {queue queue' ts ts' : List Term} {t t' : Term}

mutual

/-- What is free in a term is what a name outside stands for, or is free in what waits. -/
theorem Resolves.mem_frees {names : Names} {env : String → Ident} {e : Expr} {queue : List Term}
    {t : Term} : Resolves names env e queue t →
    ∀ i ∈ t.frees, (∃ name, i = env name) ∨ i ∈ queue.flatMap Term.frees
  | .name _ hargs => by
    intro i hi
    rw [Term.mem_frees_headed, List.flatMap_append, List.mem_append] at hi
    rcases hi with rfl | hi | hi
    · exact .inl ⟨_, rfl⟩
    · exact .inl (hargs.mem_frees i hi)
    · exact .inr hi
  | @Resolves.binder _ _ n _ _ ts _ _ _ _ hargs hbody => by
    intro i hi
    -- What is free in a term that waits is free outside, or was waiting before.
    have hwait : i ∈ (ts ++ queue).flatMap Term.frees →
        (∃ name, i = env name) ∨ i ∈ queue.flatMap Term.frees := by
      rw [List.flatMap_append, List.mem_append]
      exact Or.imp_left (hargs.mem_frees i)
    rw [← flatMap_headD_tail rfl, List.mem_append] at hwait
    rcases Term.mem_frees_abs.mp hi with ⟨hi, hne⟩ | hi
    · rcases hbody.mem_frees i hi with ⟨name, rfl⟩ | hi
      · -- A name other than the binder's stands for the same as outside.
        by_cases hname : name = n.word
        · subst hname
          exact absurd (Function.update_self _ _ _) hne
        · exact .inl ⟨name, Function.update_of_ne hname _ _⟩
      · exact hwait (.inr hi)
    · exact hwait (.inl hi)
  | .group hargs hinner => by
    intro i hi
    rcases hinner.mem_frees i hi with hi | hi
    · exact .inl hi
    · rw [List.flatMap_append, List.mem_append] at hi
      exact hi.imp_left (hargs.mem_frees i)

/-- What is free in arguments stands for names. -/
theorem ResolvesEach.mem_frees {names : Names} {env : String → Ident} {as : List Atom}
    {ts : List Term} : ResolvesEach names env as ts →
    ∀ i ∈ ts.flatMap Term.frees, ∃ name, i = env name
  | .nil _ => by simp
  | .cons harg hafter => by
    intro i hi
    rw [List.flatMap_cons, List.mem_append] at hi
    rcases hi with hi | hi
    · exact (harg.mem_frees i hi).resolve_right (by simp)
    · exact hafter.mem_frees i hi

end

/-- What waits is all in the term. -/
theorem Resolves.holds {names : Names} {env : String → Ident} {e : Expr} {queue : List Term}
    {t : Term} (h : Resolves names env e queue t) : t.Holds queue := by
  induction e generalizing env queue t with
  | name n as _ =>
    cases h with
    | name _ _ => exact (Term.Holds.headed _ _).behind
  | binder n e as ihe _ =>
    cases h with
    | binder _ _ hbody => exact (Term.Holds.abs (ihe hbody)).behind
  | group e as ihe _ =>
    cases h with
    | group _ hinner => exact (ihe hinner).behind

/-- The binders of a term are distinct, and none is what a name outside stands for, or is free in
    what waits. -/
structure Apart (env : String → Ident) (queue : List Term) (t : Term) : Prop where
  nodup : t.binders.Nodup
  stands : ∀ name, env name ∉ t.binders
  waiting : ∀ i ∈ queue.flatMap Term.frees, i ∉ t.binders

namespace Apart

/-- Own arguments wait in front of the others. -/
theorem hand (h : Apart env queue t) (hargs : ResolvesEach names env as ts) :
    Apart env (ts ++ queue) t where
  nodup := h.nodup
  stands := h.stands
  waiting := by
    intro i hi
    rw [List.flatMap_append, List.mem_append] at hi
    rcases hi with hi | hi
    · obtain ⟨name, rfl⟩ := hargs.mem_frees i hi
      exact h.stands name
    · exact h.waiting i hi

/-- Arguments that a term holds are apart from the names outside. -/
theorem own (h : Apart env queue t) (hall : t.Holds (ts ++ queue)) : ∀ u ∈ ts, Apart env [] u := by
  intro u hu
  have hmem : u ∈ ts ++ queue := List.mem_append_left queue hu
  exact ⟨hall.nodup h.nodup hmem, fun name hname => h.stands name (hall.subset hmem hname), by simp⟩

/-- Below a binder, its name stands for it, and all but the first argument wait. -/
theorem below {i : Ident} {body param : Term} (h : Apart env queue (.abs i body param))
    (name : String) : Apart (Function.update env name i) queue.tail body := by
  have hnodup := h.nodup
  rw [Term.binders, List.nodup_cons, List.mem_append, not_or] at hnodup
  have hsub : ∀ k ∈ body.binders, k ∈ (Term.abs i body param).binders := fun k hk =>
    List.mem_cons_of_mem _ (List.mem_append_left _ hk)
  refine ⟨(List.nodup_append'.mp hnodup.2).1, fun other hother => ?_, fun k hk hbody => ?_⟩
  · by_cases hname : other = name
    · subst hname
      rw [Function.update_self] at hother
      exact hnodup.1.1 hother
    · rw [Function.update_of_ne hname] at hother
      exact h.stands other (hsub _ hother)
  · refine h.waiting k ?_ (hsub k hbody)
    rw [← flatMap_headD_tail rfl]
    exact List.mem_append_right _ hk

end Apart

/-- The names for which both sides have an identity stand for identities that belong together. -/
def Links (names : Names) (env env' : String → Ident) (Γ : List (Ident × Ident)) : Prop :=
  ∀ name, names.lookup (env name) = name → names.lookup (env' name) = name →
    Linked Γ (env name) (env' name)

/-- Below a pair of binders for one name, other names stand for the same as outside: their
    identities have other names than the binders. -/
theorem Links.below {Γ : List (Ident × Ident)} {i j : Ident} {name : String}
    (h : Links names env env' Γ) (hi : names.lookup i = name) (hj : names.lookup j = name) :
    Links names (Function.update env name i) (Function.update env' name j) ((i, j) :: Γ) := by
  intro other
  by_cases hother : other = name
  · subst hother
    rw [Function.update_self, Function.update_self]
    exact fun _ _ => .here i j
  · rw [Function.update_of_ne hother, Function.update_of_ne hother]
    intro hname hname'
    refine .outside ?_ ?_ (h other hname hname')
    · intro heq
      exact hother (by rw [← hname, heq, hi])
    · intro heq
      exact hother (by rw [← hname', heq, hj])

/-- Arguments that wait are alike below a pair of binders that are apart from them. -/
theorem Apart.alike_below {B : Ident → Ident → Prop} {Γ : List (Ident × Ident)} {i j : Ident}
    {body body' param param' : Term} (h : Apart env queue (.abs i body param))
    (h' : Apart env' queue' (.abs j body' param')) (hqueue : Term.AlikeEach B Γ queue queue') :
    Term.AlikeEach B ((i, j) :: Γ) queue.tail queue'.tail := by
  refine hqueue.tail.map fun u hu u' hu' halike => ?_
  refine halike.outside (Δ := [(i, j)]) fun p hp => ?_
  obtain rfl := List.mem_singleton.mp hp
  exact ⟨fun hfree => h.waiting i
      (List.mem_flatMap.mpr ⟨u, List.mem_of_mem_tail hu, hfree⟩) List.mem_cons_self,
    fun hfree => h'.waiting j
      (List.mem_flatMap.mpr ⟨u', List.mem_of_mem_tail hu', hfree⟩) List.mem_cons_self⟩

mutual

/-- **One tree.** Terms that come of one tree are alike, if what waits is alike and the binders of
    each are apart from what is in use on its side. -/
theorem Resolves.alike {names : Names} {env env' : String → Ident} {e : Expr}
    {queue queue' : List Term} {t t' : Term} {Γ : List (Ident × Ident)} :
    Resolves names env e queue t → Resolves names env' e queue' t' → Links names env env' Γ →
    Apart env queue t → Apart env' queue' t' →
    Term.AlikeEach (fun i j => names.lookup i = names.lookup j) Γ queue queue' →
    Term.Alike (fun i j => names.lookup i = names.lookup j) Γ t t'
  | .name hname hargs, .name hname' hargs', hlinks, hapart, hapart', hqueue => by
    refine .headed (hlinks _ hname hname') (.append ?_ hqueue)
    exact hargs.alike hargs' hlinks (hapart.own (.headed _ _)) (hapart'.own (.headed _ _))
  | .binder hname hargs hbody, .binder hname' hargs' hbody', hlinks, hapart, hapart', hqueue => by
    have hown := hargs.alike hargs' hlinks (hapart.own (.abs hbody.holds))
      (hapart'.own (.abs hbody'.holds))
    have hall := hown.append hqueue
    have hhand := hapart.hand hargs
    have hhand' := hapart'.hand hargs'
    refine .abs (hname.trans hname'.symm) ?_ hall.headD
    exact hbody.alike hbody' (hlinks.below hname hname') (hhand.below _) (hhand'.below _)
      (hhand.alike_below hhand' hall)
  | .group hargs hinner, .group hargs' hinner', hlinks, hapart, hapart', hqueue => by
    have hown := hargs.alike hargs' hlinks (hapart.own hinner.holds) (hapart'.own hinner'.holds)
    exact hinner.alike hinner' hlinks (hapart.hand hargs) (hapart'.hand hargs')
      (hown.append hqueue)

/-- Arguments that are resolved twice come out alike. -/
theorem ResolvesEach.alike {names : Names} {env env' : String → Ident} {as : List Atom}
    {ts ts' : List Term} {Γ : List (Ident × Ident)} :
    ResolvesEach names env as ts → ResolvesEach names env' as ts' → Links names env env' Γ →
    (∀ u ∈ ts, Apart env [] u) → (∀ u ∈ ts', Apart env' [] u) →
    Term.AlikeEach (fun i j => names.lookup i = names.lookup j) Γ ts ts'
  | .nil _, .nil _, _, _, _ => .nil _
  | .cons harg hafter, .cons harg' hafter', hlinks, hapart, hapart' => by
    rw [List.forall_mem_cons] at hapart hapart'
    exact .cons (harg.alike harg' hlinks hapart.1 hapart'.1 (.nil _))
      (hafter.alike hafter' hlinks hapart.2 hapart'.2)

end

end

/-! ### Reading again -/

namespace Scope

/-- What each name stands for.  A name that stands for nothing gets an identity that is never handed
    out. -/
def environment (s : Scope) (name : String) : Ident :=
  (s.identity? name).elim (-1) Nat.cast

/-- In a scope, names stand for what its environment says. -/
theorem stands_environment (s : Scope) : s.Stands s.table s.environment where
  named _ hk := lookup_table hk
  stands name k hk := by
    rw [environment, hk]
    rfl

end Scope

/-- The binders of a term that was read are out of sight, then and later. -/
theorem Placed.apart {s q q' : Scope} {t : Term} (h : Placed s [] t q) (hg : q.Grows q') :
    Apart q'.environment [] t where
  nodup := h.introduces.nodup
  stands := by
    intro name hname
    unfold Scope.environment at hname
    cases hid : q'.identity? name with
    | none =>
      -- The identity for names that stand for nothing is below all that are handed out.
      rw [hid] at hname
      have hlow : (s.table.size : Int) ≤ -1 := h.introduces.low _ hname
      omega
    | some k =>
      rw [hid] at hname
      have hvisible : q'.Visible k := ⟨k, rfl, Scope.mem_of_identity? hid⟩
      exact h.introduces.hidden _ hname (hvisible.of_grows hg (h.introduces.high _ hname))
  waiting := by simp

namespace Reader

/-- The two terms come of one tree, with names that stand for what they stand for after both. -/
theorem alike_again {text : List Char} {r q q' : Reader} {t t' : Term} (hs : r.scope.Sound)
    (hread : expression text r.fresh = (.ok t, q))
    (hagain : expression text q.fresh = (.ok t', q')) :
    Term.Alike (fun i j => q'.scope.table.lookup i = q'.scope.table.lookup j) [] t t' ∧
      ∀ i ∈ t'.binders, (q.scope.table.size : Ident) ≤ i ∧ i ∉ t.idents := by
  obtain ⟨hplaced, e, htext, hresolves⟩ :=
    (expression_respects resolved_follows.respects hread).1 hs (.nil _)
  obtain ⟨hplaced', e', htext', hresolves'⟩ :=
    (expression_respects resolved_follows.respects hagain).1 hplaced.sound (.nil _)
  obtain rfl := Expr.text_injective (htext.trans htext'.symm)
  -- Both terms are compared under the last table, in which all names of the first reading remain.
  have hstands' := q'.scope.stands_environment
  have hstands := hstands'.mono hplaced'.grows hplaced.sound
  refine ⟨?_, fun i hi => ⟨hplaced'.introduces.low i hi, fun hold => ?_⟩⟩
  · have hfirst := hresolves hplaced.sound _ _ hstands
    have hsecond := hresolves' hplaced'.sound _ _ hstands'
    exact hfirst.alike hsecond (fun name _ _ => .free _) (hplaced.apart hplaced'.grows)
      (hplaced'.apart (.refl _)) (.nil _)
  · exact not_lt.mpr (hplaced'.introduces.low i hi) (hplaced.idents_lt hold).2

/-- **Reading again.** Whatever the state, the text and the arguments that wait, and whether it ends
    in a term or in an error, reading leaves the stack as it was, and adds to the table and to the
    free names.  So a program that is read again comes to the same: the same error, or a term that
    is the first one up to the identities of binders, with the same free identities, and with
    binders that have not been handed out before. -/
theorem program_again (text : List Char) (r : Reader) :
    (∀ queue, r.scope.Grows (expression text { r with pending := queue }).2.scope) ∧
    (r.scope.Arises →
      let first := program text r
      let again := program text first.2
      (∀ e, again.1 = .error e ↔ first.1 = .error e) ∧
      ∀ t, first.1 = .ok t → ∃ t', again.1 = .ok t' ∧
        Term.Alike (fun i j => again.2.scope.table.lookup i = again.2.scope.table.lookup j) []
          t t' ∧
        t'.frees = t.frees ∧
        ∀ i ∈ t'.binders, (first.2.scope.table.size : Ident) ≤ i ∧ i ∉ t.idents) := by
  have hgrows (r : Reader) : r.scope.Grows (expression text r).2.scope :=
    (expression_covers grows_covers rfl).1
  refine ⟨fun queue => hgrows { r with pending := queue }, fun harises => ?_⟩
  have hs := harises.sound
  unfold program
  split
  · exact ⟨fun _ => .rfl, nofun⟩
  · intro first again
    have hread : expression text r.fresh = (first.1, first.2) := rfl
    have hsound := ((expression_covers judged_covers hread).1 hs).sound
    -- The first reading has left no binder behind, so that both see the same ones.
    have hsight : r.fresh.scope.SameSight first.2.fresh.scope :=
      ⟨hs, hsound, ((hgrows r.fresh).boundNames hs).symm⟩
    -- So they succeed together, and fail with the same error.
    have hverdict : first.verdict = again.verdict := expression_verdict text hsight
    refine ⟨fun e => ?_, fun t ht => ?_⟩
    · rw [← Reading.verdict_eq_error, ← Reading.verdict_eq_error, hverdict]
    · obtain ⟨t', ht'⟩ := Reading.verdict_eq_ok.mp (hverdict ▸ Reading.verdict_eq_ok.mpr ⟨t, ht⟩)
      have hagain : expression text first.2.fresh = (.ok t', again.2) := by rw [← ht']
      rw [ht] at hread
      obtain ⟨halike, hnew⟩ := alike_again hs hread hagain
      exact ⟨t', ht', halike, halike.frees_eq.symm, hnew⟩

/-- In a scope with a binder `x`, a free name `y` and a binder that was left: a text that gives the
    free name `w` an identity, and one that ends in an error below two binders. -/
theorem program_again_in_scope :
    let r : Reader := { scope := ⟨#["x", "y", "z"], [0], [("y", 1)]⟩ }
    let text := "f(f.w).g(x.(g).y)".toList
    let t : Term := .abs 4 (.app 4 [.var 5]) (.abs 3 (.app 0 [.var 3, .var 1]) .absent)
    let wrong := "f(g(w).h(x(y)))".toList
    r.scope.Arises ∧ (program text r).1 = .ok t ∧
      (∃ t', (program text (program text r).2).1 = .ok t' ∧ t'.frees = t.frees ∧
        ∀ i ∈ t'.binders, ((program text r).2.scope.table.size : Ident) ≤ i ∧ i ∉ t.idents) ∧
      (program wrong r).1 = .error (.rebound "x") ∧
      (program wrong (program wrong r).2).1 = .error (.rebound "x") := by
  intro r text t wrong
  have harises : r.scope.Arises := (((Scope.Arises.empty.bind "x").freeName "y").bind "z").leave
  have hread : (program "f(f.w).g(x.(g).y)".toList
      { scope := ⟨#["x", "y", "z"], [0], [("y", 1)]⟩ }).1
      = .ok (.abs 4 (.app 4 [.var 5]) (.abs 3 (.app 0 [.var 3, .var 1]) .absent)) := by cbv
  have hwrong : (program "f(g(w).h(x(y)))".toList
      { scope := ⟨#["x", "y", "z"], [0], [("y", 1)]⟩ }).1 = .error (.rebound "x") := by cbv
  obtain ⟨-, hagain⟩ := (program_again text r).2 harises
  obtain ⟨t', ht', -, hfrees, hnew⟩ := hagain t hread
  obtain ⟨herror, -⟩ := (program_again wrong r).2 harises
  exact ⟨harises, hread, ⟨t', ht', hfrees, hnew⟩, hwrong, (herror _).mpr hwrong⟩

end Reader

end DotLambda
