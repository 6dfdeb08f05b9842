import DotLambda.Proofs.Reading.Meaning
import Mathlib

namespace DotLambda

/-!
# Reading — resolution of names

Which identity each name of a text gets.  Below a binder its name stands for it; a name without a
binder around it stands for one identity wherever it occurs.  Arguments are resolved where they are
written, although they may stand below other binders in the term.

* `Resolves` — the term that a tree gives, where it is said what the names outside stand for;
* `Scope.Stands` — the names in sight stand for their identities, and the table knows them;
* `resolved_follows` — all that is read is resolved along its tree;
* `Scope.Uses` — every identity that was handed out occurs;
* `parse_resolves_names` — the identities of a program.
-/

/-! ### Trees and terms -/

mutual

/-- The tree gives the term, where `env` is what the names in sight stand for, and the arguments
    `queue` wait.  Every identity has in the table the name for which it stands. -/
inductive Resolves (names : Names) :
    (env : String → Ident) → Expr → (queue : List Term) → Term → Prop where
  /-- A name takes its own arguments and those that wait. -/
  | name {env : String → Ident} {n : Name} {as : List Atom} {ts queue : List Term}
      (hname : names.lookup (env n.word) = n.word) (hargs : ResolvesEach names env as ts) :
      Resolves names env (.mk (.name n) as) queue
        (if (ts ++ queue).isEmpty then .var (env n.word) else .app (env n.word) (ts ++ queue))
  /-- Only the body of a binder is in its scope. -/
  | binder {env : String → Ident} {n : Name} {e : Expr} {as : List Atom} {ts queue : List Term}
      {id : Ident} {body : Term} (hname : names.lookup id = n.word)
      (hargs : ResolvesEach names env as ts)
      (hbody : Resolves names (Function.update env n.word id) e (ts ++ queue).tail body) :
      Resolves names env (.mk (.binder n e) as) queue
        (.abs id body ((ts ++ queue).headD .absent))
  | group {env : String → Ident} {e : Expr} {as : List Atom} {ts queue : List Term} {t : Term}
      (hargs : ResolvesEach names env as ts) (hinner : Resolves names env e (ts ++ queue) t) :
      Resolves names env (.mk (.group e) as) queue t

/-- The arguments give the terms, each with nothing waiting. -/
inductive ResolvesEach (names : Names) :
    (env : String → Ident) → List Atom → List Term → Prop where
  | nil (env : String → Ident) : ResolvesEach names env [] []
  | cons {env : String → Ident} {a : Atom} {as : List Atom} {t : Term} {ts : List Term}
      (harg : Resolves names env (.mk a []) [] t) (hafter : ResolvesEach names env as ts) :
      ResolvesEach names env (a :: as) (t :: ts)

end

/-- Arguments are resolved one to one. -/
theorem ResolvesEach.length_eq {names : Names} {env : String → Ident} {as : List Atom}
    {ts : List Term} (h : ResolvesEach names env as ts) : ts.length = as.length := by
  induction as generalizing ts with
  | nil =>
    cases h
    rfl
  | cons a as ih =>
    cases h with
    | cons _ hafter => rw [List.length_cons, List.length_cons, ih hafter]

/-! ### What names stand for -/

namespace Scope

variable {s s' : Scope} {names : Names} {env : String → Ident}

/-- Each name in sight stands for its identity, and the table has the names of all identities. -/
structure Stands (s : Scope) (names : Names) (env : String → Ident) : Prop where
  named : ∀ k < s.table.size, names.lookup k = s.nameOf k
  stands : ∀ name (k : Nat), s.identity? name = some k → env name = k

/-- What names stand for in a scope they stand for in the smaller one before it. -/
theorem Stands.mono (h : s'.Stands names env) (hg : s.Grows s') (hs : s.Sound) :
    s.Stands names env where
  named := fun k hk => (h.named k (Nat.lt_of_lt_of_le hk hg.size)).trans (hg.nameOf k hk)
  stands := fun name k hk => h.stands name k (hg.identity? hs hk)

/-- Below a binder, its name stands for it. -/
theorem Stands.enter {s₁ s₂ : Scope} {name : String} {id : Nat} (hs : s.Sound)
    (hid : s.bind name = (id, s₁)) (hs₂ : s₂.Sound) (hg : s₁.Grows s₂)
    (h : s₂.leave.Stands names env) : s₂.Stands names (Function.update env name id) where
  named := h.named
  stands := by
    intro other k hk
    rcases identity?_below hs hid hs₂ hg hk with ⟨rfl, rfl⟩ | ⟨hother, -, hbehind⟩
    · exact Function.update_self _ _ _
    · rw [Function.update_of_ne hother]
      exact h.stands other k hbehind

/-- The table has the name of a binder that is left. -/
theorem Stands.lookup_binder {s₁ s₂ : Scope} {name : String} {id : Nat} (hs : s.Sound)
    (hid : s.bind name = (id, s₁)) (hg : s₁.Grows s₂) (h : s₂.leave.Stands names env) :
    names.lookup id = name := by
  have hs₁ := hs.bind hid
  obtain ⟨rfl, rfl⟩ := bind_cases hid
  have hlt := hs₁.stack_lt _ List.mem_cons_self
  rw [h.named _ (Nat.lt_of_lt_of_le hlt hg.size)]
  show s₂.nameOf s.table.size = name
  rw [hg.nameOf _ hlt]
  exact nameOf_push_self name _ _

/-- A name that stands for an identity is its name. -/
theorem Sound.nameOf_identity? {name : String} {k : Nat} (hs : s.Sound)
    (h : s.identity? name = some k) : s.nameOf k = name := by
  rcases Option.or_eq_some_iff.mp h with hfind | ⟨-, hfree⟩
  · simpa using List.find?_some hfind
  · exact hs.named _ (mem_unbound_of_lookup hfree)

/-- A name that stands for its identity is the name that the table has for it. -/
theorem Stands.lookup_env {name : String} {k : Nat} (h : s.Stands names env) (hs : s.Sound)
    (hk : s.identity? name = some k) : env name = k ∧ names.lookup (env name) = name := by
  have henv := h.stands name k hk
  have hlt : k < s.table.size := (mem_of_identity? hk).elim (hs.stack_lt k) (hs.unbound_lt k)
  refine ⟨henv, ?_⟩
  rw [henv, h.named k hlt]
  exact hs.nameOf_identity? hk

/-- Outside all binders, names stand for what they were entered as. -/
theorem stands_table (s : Scope) (hstack : s.stack = []) :
    s.Stands s.table fun name => (s.unbound.lookup name).elim (-1) Nat.cast where
  named := fun k hk => lookup_table hk
  stands := by
    intro name k hk
    have hfind : s.find? name = none := by
      rw [find?, hstack, List.find?_nil]
    rw [identity?, hfind, Option.none_or] at hk
    rw [hk]
    rfl

end Scope

/-- **All that is read is resolved along its tree.** -/
theorem resolved_follows : Reader.Follows
    (fun e _ queue t s' => s'.Sound → ∀ names env, s'.Stands names env →
      Resolves names env e queue t)
    (fun as _ ts s' => ∀ names env, s'.Stands names env → ResolvesEach names env as ts) where
  bare queue hs hid := by
    intro hs' names env hstands
    obtain ⟨henv, hname⟩ := hstands.lookup_env hs' (hs.identity?_of_resolve hid)
    have h : Resolves names env _ queue _ := .name hname (.nil env)
    rw [List.nil_append, henv] at h
    exact h
  binder hplaced hqueue hid hinner hargs hbody := by
    intro _ names env hstands
    -- The binder is in force in the body only; the arguments behind it are resolved outside.
    have houtside := hstands.mono (.leave hid hinner.grows) hplaced.sound
    have hinside := hstands.enter hplaced.sound hid hinner.sound hinner.grows
    exact .binder (hstands.lookup_binder hplaced.sound hid hinner.grows) (hargs names env houtside)
      (hbody hinner.sound names _ hinside)
  call {_ as _ _ args _} queue hne hplaced hid hargs := by
    intro hs' names env hstands
    obtain ⟨henv, hname⟩ := hstands.lookup_env hs' (Scope.identity?_of_find? hid)
    have heach := hargs names env hstands
    -- A call has arguments of its own, so that it is no bare name.
    have hsome : (args ++ queue).isEmpty = false := by
      rw [List.isEmpty_eq_false_iff]
      intro hnil
      have hlength := heach.length_eq
      rw [(List.append_eq_nil_iff.mp hnil).1, List.length_nil] at hlength
      exact hne (List.length_eq_zero_iff.mp hlength.symm)
    have h : Resolves names env _ queue _ := .name hname heach
    rw [hsome, if_neg Bool.false_ne_true, henv] at h
    exact h
  group hplaced hblock hargs hinner := by
    intro hs' names env hstands
    exact .group (hargs names env (hstands.mono hblock.grows hplaced.sound))
      (hinner hs' names env hstands)
  nil _ := fun _ env _ => .nil env
  cons hplaced hrest harg hafter := by
    intro names env hstands
    exact .cons (harg hplaced.sound names env (hstands.mono hrest.grows hplaced.sound))
      (hafter names env hstands)

/-! ### Identities that occur -/

/-- Every identity that was handed out from `s` to `s'` is among `is`. -/
def Scope.Uses (s : Scope) (is : List Ident) (s' : Scope) : Prop :=
  ∀ k : Nat, s.table.size ≤ k → k < s'.table.size → (k : Ident) ∈ is

namespace Scope.Uses

variable {s s' s'' : Scope} {is js : List Ident}

/-- Nothing is handed out without a call. -/
theorem refl (s : Scope) (is : List Ident) : s.Uses is s :=
  fun _ hlow hhigh => absurd hhigh (Nat.not_lt.mpr hlow)

/-- What is handed out in two stretches is handed out in one. -/
theorem trans (h₁ : s.Uses is s') (h₂ : s'.Uses is s'') : s.Uses is s'' := by
  intro k hlow hhigh
  by_cases hk : k < s'.table.size
  · exact h₁ k hlow hk
  · exact h₂ k (Nat.not_lt.mp hk) hhigh

/-- It may be among more. -/
theorem mono (h : s.Uses is s') (hsub : is ⊆ js) : s.Uses js s' :=
  fun k hlow hhigh => hsub (h k hlow hhigh)

/-- The next identity is the only one between a table and the table with one name more. -/
theorem push {name : String} (hsize : s'.table = s.table.push name)
    (h : (s.table.size : Ident) ∈ is) : s.Uses is s' := by
  intro k hlow hhigh
  rw [hsize, Array.size_push] at hhigh
  obtain rfl : k = s.table.size := by omega
  exact h

end Scope.Uses

/-- **All that is handed out occurs**, and so does all that waits. -/
theorem uses_follows : Reader.Follows
    (fun _ s queue t s' => queue.flatMap Term.idents ⊆ t.idents ∧ s.Uses t.idents s')
    (fun _ s ts s' => s.Uses (ts.flatMap Term.idents) s') where
  bare {_ s s' id} queue _ hid := by
    have hsub : queue.flatMap Term.idents ⊆
        (if queue.isEmpty then Term.var id else .app id queue).idents ∧
        (id : Ident) ∈ (if queue.isEmpty then Term.var id else .app id queue).idents := by
      cases queue with
      | nil => simp [Term.idents]
      | cons arg queue => simp [Term.idents]
    refine ⟨hsub.1, ?_⟩
    -- Only a new free name has an entry of its own, and this name uses it.
    rcases Scope.resolve_cases hid with ⟨-, rfl⟩ | ⟨-, -, rfl⟩ | ⟨-, -, rfl, rfl⟩
    · exact .refl _ _
    · exact .refl _ _
    · exact .push rfl hsub.2
  binder {_ _ _ _ _ _ _ args queue id body} hplaced hqueue hid _ hargs hbody := by
    obtain ⟨hrest, hinside⟩ := hbody
    -- All that waits goes into the binding: the first as its parameter, the rest into its body.
    have hall : (args ++ queue).flatMap Term.idents
        ⊆ (Term.abs id body ((args ++ queue).headD .absent)).idents := by
      rw [← flatMap_headD_tail rfl, Term.idents]
      intro i hi
      rcases List.mem_append.mp hi with hi | hi
      · exact List.mem_cons_of_mem _ (List.mem_append_right _ hi)
      · exact List.mem_cons_of_mem _ (List.mem_append_left _ (hrest hi))
    rw [List.flatMap_append, List.append_subset] at hall
    refine ⟨hall.2, (hargs.mono hall.1).trans (Scope.Uses.trans ?_ (hinside.mono ?_))⟩
    · obtain ⟨rfl, rfl⟩ := Scope.bind_cases hid
      exact .push rfl List.mem_cons_self
    · rw [Term.idents]
      exact List.subset_cons_of_subset _ (List.subset_append_left _ _)
  call {_ _ _ _ args id} queue _ _ _ hargs := by
    have hall : (args ++ queue).flatMap Term.idents ⊆ (Term.app id (args ++ queue)).idents := by
      rw [Term.idents, Term.argsIdents_eq]
      exact List.subset_cons_self _ _
    rw [List.flatMap_append, List.append_subset] at hall
    exact ⟨hall.2, hargs.mono hall.1⟩
  group hplaced hblock hargs hinner := by
    obtain ⟨hall, hinside⟩ := hinner
    rw [List.flatMap_append, List.append_subset] at hall
    exact ⟨hall.2, (hargs.mono hall.1).trans hinside⟩
  nil s := .refl s _
  cons _ _ harg hafter := by
    rw [List.flatMap_cons]
    exact (harg.2.mono (List.subset_append_left _ _)).trans
      (hafter.mono (List.subset_append_right _ _))

/-! ### Programs -/

/-- The binders of a term read with nothing waiting have all been handed out for it, and are out of
    sight. -/
theorem Placed.introduces {t : Term} {s s' : Scope} (h : Placed s [] t s') :
    s.Introduces t.binders s' := by
  obtain ⟨new, hperm, hnew⟩ := h.binders
  rw [List.flatMap_nil, List.append_nil] at hperm
  exact hnew.perm hperm.symm

/-- The identities that occur in it have been handed out. -/
theorem Placed.idents_lt {t : Term} {s s' : Scope} (h : Placed s [] t s') {i : Ident}
    (hi : i ∈ t.idents) : 0 ≤ i ∧ i < s'.table.size := by
  rcases Term.mem_idents.mp hi with hbound | hfree
  · exact ⟨le_trans (Int.natCast_nonneg _) (h.introduces.low i hbound), h.introduces.high i hbound⟩
  · have hvisible := (h.frees i hfree).resolve_right (by simp)
    refine ⟨?_, hvisible.lt h.sound⟩
    obtain ⟨k, rfl, -⟩ := hvisible
    exact Int.natCast_nonneg k

/-- The identities that occur in a program are the places of its table. -/
theorem mem_idents_of_parse {text : List Char} {t : Term} {names : Names}
    (h : parse text = .ok (t, names)) (i : Ident) : i ∈ t.idents ↔ 0 ≤ i ∧ i < names.size := by
  obtain ⟨s, hread, rfl⟩ := parse_respects uses_follows.respects h
  obtain ⟨hplaced, -, -, -, huses⟩ := hread Scope.sound_empty (.nil _)
  refine ⟨hplaced.idents_lt, fun hi => ?_⟩
  obtain ⟨k, rfl⟩ := Int.eq_ofNat_of_zero_le hi.1
  exact huses k (Nat.zero_le k) (Int.ofNat_lt.mp hi.2)

/-- **The identities of a program.** Binders are distinct, and what belongs to a binder stands in
    its scope.  The term is that of the tree of the text, where each name stands for the innermost
    binder of that name around it in the text, or else for one identity that is no binder; and the
    table has the name for which each identity stands.  The identities that occur are the places of
    the table. -/
theorem parse_resolves_names {text : List Char} {t : Term} {names : Names}
    (h : parse text = .ok (t, names)) :
    t.binders.Nodup ∧ (∀ i ∈ t.binders, i ∉ t.frees) ∧
      (∃ (e : Expr) (free : String → Ident), e.text = removeBlanks text ∧
        Resolves names free e [] t ∧ ∀ name, free name ∉ t.binders) ∧
      ∀ i, i ∈ t.idents ↔ 0 ≤ i ∧ i < names.size := by
  have hproper := proper_of_parse h
  refine ⟨hproper.nodup, hproper.disjoint, ?_, mem_idents_of_parse h⟩
  obtain ⟨s, hread, rfl⟩ := parse_respects resolved_follows.respects h
  obtain ⟨hplaced, e, htext, hresolved⟩ := hread Scope.sound_empty (.nil _)
  have hstack : s.stack = [] := hplaced.grows.stack
  refine ⟨e, _, htext, hresolved hplaced.sound _ _ (s.stands_table hstack), fun name hbound => ?_⟩
  cases hfree : s.unbound.lookup name with
  | none =>
    rw [hfree] at hbound
    exact absurd (hplaced.introduces.low _ hbound) (by decide)
  | some k =>
    rw [hfree] at hbound
    have hmem := Scope.mem_unboundIds (Scope.mem_unbound_of_lookup hfree)
    exact hplaced.introduces.hidden _ hbound ⟨k, rfl, .inr hmem⟩

/-- The two binders `x` have identities of their own, and each `x` that is called is the one around
    it; the free `z` is one identity in both places. -/
theorem parse_resolves_names_twice :
    parse "y(x(x.z)).x(x.z)".toList
        = .ok (.abs 2 (.abs 3 (.app 3 [.var 1]) .absent) (.abs 0 (.app 0 [.var 1]) .absent),
          #["x", "z", "y", "x"]) ∧
      (∃ (e : Expr) (free : String → Ident), e.text = removeBlanks "y(x(x.z)).x(x.z)".toList ∧
        Resolves #["x", "z", "y", "x"] free e []
          (.abs 2 (.abs 3 (.app 3 [.var 1]) .absent) (.abs 0 (.app 0 [.var 1]) .absent)) ∧
        ∀ name, free name ∉ [(2 : Ident), 3, 0]) ∧
      ∀ i, i ∈ [(2 : Ident), 3, 3, 1, 0, 0, 1] ↔ 0 ≤ i ∧ i < 4 := by
  have hparse : parse "y(x(x.z)).x(x.z)".toList
      = .ok (.abs 2 (.abs 3 (.app 3 [.var 1]) .absent) (.abs 0 (.app 0 [.var 1]) .absent),
        #["x", "z", "y", "x"]) := by cbv
  obtain ⟨-, -, hresolves, hidents⟩ := parse_resolves_names hparse
  exact ⟨hparse, hresolves, hidents⟩

end DotLambda
