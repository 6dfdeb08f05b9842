import DotLambda.Proofs.Reading.Grammar
import DotLambda.Proofs.Reading.Resolution
import DotLambda.Proofs.Term.Layouts
import DotLambda.Proofs.Term.Renaming

namespace DotLambda

/-!
# Reading — what is displayed is read again

A term that is displayed and read comes back with other identities and is otherwise the same, as
long as its text tells it: names have to be legal, names of binders must not hide each other or a
free identity, and a redex must not swallow what stands behind it.

* `Term.Printable` — the terms whose text tells them;
* `Reread` — a tree with the text of a term, whose resolution gives the term back;
* `Term.Printable.reread` — every term that is printable has such a tree;
* `parse_of_derives` — a text of the grammar is read;
* `parse_display` — reading undoes displaying, in both layouts.
-/

/-! ### Printable terms -/

/-- A legal name without white space, so that it is still itself when a text is read. -/
def IsPlainName (name : String) : Prop :=
  name.toList ≠ [] ∧ ∀ c ∈ name.toList, isBlank c = false ∧ c ∉ ['(', ')', '.', ',', ';']

/-- A plain name is a name of the grammar. -/
theorem IsPlainName.exists_name {name : String} (h : IsPlainName name) :
    ∃ n : Name, n.word = name :=
  ⟨⟨name.toList, h.1, fun c hc => (h.2 c hc).2⟩, String.ofList_toList⟩

/-- There are no blanks in a plain name. -/
theorem IsPlainName.removeBlanks_eq {name : String} (h : IsPlainName name) :
    removeBlanks name.toList = name.toList :=
  removeBlanks_eq_self fun c hc => (h.2 c hc).1

/-- A variable, or an abstraction that has no parameter. -/
def Term.isSimple : Term → Bool
  | absent => false
  | var _ => true
  | abs _ _ param => !param.isPresent
  | app _ _ => false

/-- Terms that are told by their text below the binders `Γ`. -/
inductive Term.Printable (names : Names) : (Γ : List Ident) → Term → Prop where
  /-- Below a binder of its name, a variable belongs to a binder. -/
  | var {Γ : List Ident} {i : Ident} (hname : IsPlainName (names.lookup i))
      (hclear : i ∉ Γ → ∀ k ∈ Γ, names.lookup k ≠ names.lookup i) : Printable names Γ (.var i)
  /-- A binder has another name than those around it.  Its parameter, if there is one, stands
      behind a dot without parentheses. -/
  | abs {Γ : List Ident} {i : Ident} {body param : Term} (hname : IsPlainName (names.lookup i))
      (hnew : ∀ k ∈ Γ, names.lookup k ≠ names.lookup i) (hbody : Printable names (i :: Γ) body)
      (hsimple : param.isPresent = true → param.isSimple = true)
      (hparam : param.isPresent = true → Printable names Γ param) :
      Printable names Γ (.abs i body param)
  /-- What is called is bound. -/
  | app {Γ : List Ident} {i : Ident} {args : List Term} (hname : IsPlainName (names.lookup i))
      (hbound : i ∈ Γ) (hne : args ≠ []) (hargs : ∀ arg ∈ args, Printable names Γ arg) :
      Printable names Γ (.app i args)

namespace Term.Printable

variable {names : Names} {Γ : List Ident} {t : Term}

/-- All identities in a printable term have plain names. -/
theorem isPlainName (h : t.Printable names Γ) : ∀ i ∈ t.idents, IsPlainName (names.lookup i) := by
  induction h with
  | var hname _ => simpa [idents] using hname
  | @abs Γ i body param hname _ _ _ _ ihb ihp =>
    rw [idents, List.forall_mem_cons, List.forall_mem_append]
    refine ⟨hname, ihb, ?_⟩
    cases hp : param.isPresent with
    | true => exact ihp hp
    | false => simp [eq_absent_of_not_isPresent hp, idents]
  | app hname _ _ _ ih =>
    rw [idents, argsIdents_eq, List.forall_mem_cons]
    refine ⟨hname, fun i hi => ?_⟩
    obtain ⟨arg, harg, hi⟩ := List.mem_flatMap.mp hi
    exact ih arg harg i hi

/-- A free identity has another name than the binders around it, if it is none of them. -/
theorem clear (h : t.Printable names Γ) :
    ∀ i ∈ t.frees, i ∉ Γ → ∀ k ∈ Γ, names.lookup k ≠ names.lookup i := by
  induction h with
  | var _ hclear => simpa using hclear
  | @abs Γ i body param _ _ _ _ _ ihb ihp =>
    intro j hj hfree k hk
    rcases mem_frees_abs.mp hj with ⟨hj, hne⟩ | hj
    · exact ihb j hj (by simp [hne, hfree]) k (List.mem_cons_of_mem _ hk)
    · cases hp : param.isPresent with
      | true => exact ihp hp j hj hfree k hk
      | false => simp [eq_absent_of_not_isPresent hp, frees] at hj
  | app _ hbound _ _ ih =>
    intro j hj hfree
    rcases mem_frees_app.mp hj with rfl | ⟨arg, harg, hj⟩
    · exact absurd hbound hfree
    · exact ih arg harg j hj hfree

end Term.Printable

/-! ### Resolving what was displayed -/

/-- The binders `Γ` around a part of a term, each with the binder that it is read as, for which its
    name stands and which has that name in the new table. -/
structure Paired (names names' : Names) (env : String → Ident) (Γ : List Ident)
    (inner : List (Ident × Ident)) : Prop where
  binders : inner.map Prod.fst = Γ
  stands : ∀ p ∈ inner, env (names.lookup p.1) = p.2
  named : ∀ p ∈ inner, names'.lookup p.2 = names.lookup p.1
  distinct : ∀ p ∈ inner, ∀ q ∈ inner, names.lookup p.1 = names.lookup q.1 → p.1 = q.1

section

variable {names names' : Names} {env : String → Ident} {Γ : List Ident}
  {inner outer : List (Ident × Ident)}

/-- An identity is linked to the one for which its name stands. -/
theorem Paired.linked (h : Paired names names' env Γ inner) {i : Ident}
    (hname : names'.lookup (env (names.lookup i)) = names.lookup i)
    (hclear : i ∉ Γ → ∀ k ∈ Γ, names.lookup k ≠ names.lookup i)
    (houter : i ∉ Γ → Linked outer i (env (names.lookup i))) :
    Linked (inner ++ outer) i (env (names.lookup i)) := by
  by_cases hi : i ∈ Γ
  · rw [← h.binders, List.mem_map] at hi
    obtain ⟨p, hp, rfl⟩ := hi
    have hpair : p = (p.1, env (names.lookup p.1)) := by rw [h.stands p hp]
    refine .of_mem (hpair ▸ hp) fun q hq hsame => ?_
    have hfirst : q.1 = p.1 := by
      rcases hsame with hsame | hsame
      · exact hsame
      · -- Two binders with one name in the new table have one name in the old one.
        refine h.distinct q hq p hp ?_
        rw [← h.named q hq, hsame, hname]
    rw [← hfirst, h.stands q hq]
  · refine (houter hi).append fun p hp => ?_
    have hp' : p.1 ∈ Γ := h.binders ▸ List.mem_map_of_mem hp
    refine ⟨fun heq => hi (heq ▸ hp'), fun heq => hclear hi p.1 hp' ?_⟩
    rw [← h.named p hp, ← heq, hname]

/-- Below a binder with a name of its own there is one pair more. -/
theorem Paired.enter (h : Paired names names' env Γ inner) {i j : Ident}
    (hnew : ∀ k ∈ Γ, names.lookup k ≠ names.lookup i)
    (hname : names'.lookup j = names.lookup i) :
    Paired names names' (Function.update env (names.lookup i) j) (i :: Γ) ((i, j) :: inner) where
  binders := by rw [List.map_cons, h.binders]
  stands := by
    refine List.forall_mem_cons.mpr ⟨Function.update_self _ _ _, fun p hp => ?_⟩
    rw [Function.update_of_ne (hnew p.1 (h.binders ▸ List.mem_map_of_mem hp)), h.stands p hp]
  named := List.forall_mem_cons.mpr ⟨hname, h.named⟩
  distinct := by
    have hother : ∀ p ∈ inner, names.lookup p.1 ≠ names.lookup i :=
      fun p hp => hnew p.1 (h.binders ▸ List.mem_map_of_mem hp)
    refine List.forall_mem_cons.mpr ⟨?_, fun p hp => List.forall_mem_cons.mpr ⟨?_, ?_⟩⟩
    · exact List.forall_mem_cons.mpr ⟨fun _ => rfl, fun q hq heq => absurd heq.symm (hother q hq)⟩
    · exact fun heq => absurd heq (hother p hp)
    · exact h.distinct p hp

end

/-- A tree that stands for `t` below the binders `Γ`: it has the text of `t`, it is well scoped, and
    all that resolves it is like `t`, if the identities that are free in `t` are linked. -/
structure Reread (names : Names) (Γ : List Ident) (t : Term) (e : Expr) : Prop where
  text : e.text = (t.flat names).toList
  wellScoped : e.Scoped (Γ.map names.lookup)
  named : ∀ {names' : Names} {env : String → Ident} {u : Term}, Resolves names' env e [] u →
    ∀ i ∈ t.frees, names'.lookup (env (names.lookup i)) = names.lookup i
  alike : ∀ {names' : Names} {env : String → Ident} {inner outer : List (Ident × Ident)} {u : Term},
    Paired names names' env Γ inner →
    (∀ i ∈ t.frees, i ∉ Γ → Linked outer i (env (names.lookup i))) → Resolves names' env e [] u →
    Term.Alike (fun i j => names.lookup i = names'.lookup j) (inner ++ outer) t u

/-- A name and its word have the same characters. -/
theorem Name.toList_of_word {n : Name} {name : String} (h : n.word = name) :
    name.toList = n.chars := by
  rw [← h, Name.word, String.toList_ofList]

namespace Reread

variable {names : Names} {Γ : List Ident} {n : Name} {i : Ident}

/-- A variable is read again as itself, if no other binder around it has its name. -/
theorem var (hn : n.word = names.lookup i)
    (hclear : i ∉ Γ → ∀ k ∈ Γ, names.lookup k ≠ names.lookup i) :
    Reread names Γ (.var i) (.mk (.name n) []) where
  text := by
    rw [Expr.text_atom, Atom.text, Term.flat, Name.toList_of_word hn]
  wellScoped := .name _ n
  named h := by
    cases h with
    | name hname _ => simpa [hn] using hname
  alike hpaired houter h := by
    cases h with
    | name hname hargs =>
      cases hargs
      rw [hn] at hname ⊢
      exact .var (hpaired.linked hname hclear fun hfree => houter i (by simp) hfree)

/-- What stands behind a binder: nothing, or its parameter. -/
inductive Supplied (names : Names) (Γ : List Ident) : (param : Term) → (as : List Atom) → Prop where
  | absent : Supplied names Γ .absent []
  | present {param : Term} {a : Atom} (hp : param.isPresent = true)
      (h : Reread names Γ param (.mk a [])) : Supplied names Γ param [a]

/-- A redex has no more behind it than its parameter, which the binder takes. -/
theorem Supplied.resolves {param : Term} {as : List Atom} (h : Supplied names Γ param as)
    {names' : Names} {env : String → Ident} {us : List Term}
    (heach : ResolvesEach names' env as us) :
    (us ++ []).tail = [] ∧
      (∀ k ∈ param.frees, names'.lookup (env (names.lookup k)) = names.lookup k) ∧
      ∀ {inner outer : List (Ident × Ident)}, Paired names names' env Γ inner →
        (∀ k ∈ param.frees, k ∉ Γ → Linked outer k (env (names.lookup k))) →
        Term.Alike (fun i j => names.lookup i = names'.lookup j) (inner ++ outer) param
          ((us ++ []).headD .absent) := by
  cases h with
  | absent =>
    cases heach
    exact ⟨rfl, by simp [Term.frees], fun _ _ => .absent _⟩
  | present hp h =>
    cases heach with
    | cons harg hafter =>
      cases hafter
      exact ⟨rfl, h.named harg, fun hpaired houter => h.alike hpaired houter harg⟩

/-- A binder is read again as itself, if it hides no name that is used below it. -/
theorem abs {body param : Term} {e : Expr} {as : List Atom} (hn : n.word = names.lookup i)
    (hnew : ∀ k ∈ Γ, names.lookup k ≠ names.lookup i)
    (hclear : ∀ k ∈ body.frees, k ≠ i → names.lookup k ≠ names.lookup i)
    (hbody : Reread names (i :: Γ) body e) (hparam : Supplied names Γ param as) :
    Reread names Γ (.abs i body param) (.mk (.binder n e) as) where
  text := by
    cases hparam with
    | absent =>
      simp [Expr.text, Atom.text, argsText, Term.flat, hbody.text, Name.toList_of_word hn]
    | present hp h =>
      have hparam := h.text
      rw [Expr.text_atom] at hparam
      simp [Expr.text, Atom.text, argsText, Term.flat_abs_present hp, hbody.text, hparam,
        Name.toList_of_word hn]
  wellScoped := by
    have hout : n.word ∉ Γ.map names.lookup := by
      rw [hn, List.mem_map]
      rintro ⟨k, hk, heq⟩
      exact hnew k hk heq
    refine .binder hout (hn ▸ hbody.wellScoped) ?_
    cases hparam with
    | absent => simp
    | present hp h => exact List.forall_mem_singleton.mpr (Expr.scoped_atom.mp h.wellScoped)
  named h k hk := by
    cases h with
    | binder hname hargs hinner =>
      obtain ⟨htail, hnamed, -⟩ := hparam.resolves hargs
      rw [htail, hn] at hinner
      rcases Term.mem_frees_abs.mp hk with ⟨hk, hne⟩ | hk
      · -- The binder has another name, so that below it the name stands for the same as outside.
        have hlookup := hbody.named hinner k hk
        rwa [Function.update_of_ne (hclear k hk hne)] at hlookup
      · exact hnamed k hk
  alike {names' env inner outer u} hpaired houter h := by
    cases h with
    | @binder _ _ _ _ us _ id body' hname hargs hinner =>
      obtain ⟨htail, -, halike⟩ := hparam.resolves hargs
      rw [htail, hn] at hinner
      rw [hn] at hname
      refine .abs hname.symm (hbody.alike (hpaired.enter hnew hname) ?_ hinner)
        (halike hpaired fun k hk => houter k (Term.mem_frees_abs.mpr (.inr hk)))
      -- What is free in the body and no binder around it is free outside, under the same name.
      intro k hk hfree
      rw [List.mem_cons, not_or] at hfree
      rw [Function.update_of_ne (hclear k hk hfree.1)]
      exact houter k (Term.mem_frees_abs.mpr (.inl ⟨hk, hfree.1⟩)) hfree.2

end Reread

/-- Trees that stand for arguments, as `Reread` for one term. -/
structure RereadEach (names : Names) (Γ : List Ident) (args : List Term) (as : List Atom) :
    Prop where
  length : as.length = args.length
  text : argsText as = (Term.flatArgs names args).toList
  wellScoped : ∀ a ∈ as, a.Scoped (Γ.map names.lookup)
  named : ∀ {names' : Names} {env : String → Ident} {us : List Term},
    ResolvesEach names' env as us →
    ∀ arg ∈ args, ∀ i ∈ arg.frees, names'.lookup (env (names.lookup i)) = names.lookup i
  alike : ∀ {names' : Names} {env : String → Ident} {inner outer : List (Ident × Ident)}
    {us : List Term}, Paired names names' env Γ inner →
    (∀ arg ∈ args, ∀ i ∈ arg.frees, i ∉ Γ → Linked outer i (env (names.lookup i))) →
    ResolvesEach names' env as us →
    Term.AlikeEach (fun i j => names.lookup i = names'.lookup j) (inner ++ outer) args us

section

variable {names : Names} {Γ : List Ident}

/-- No arguments are read again as none. -/
theorem RereadEach.nil : RereadEach names Γ [] [] where
  length := rfl
  text := rfl
  wellScoped := by simp
  named _ := by simp
  alike _ _ h := by
    cases h
    exact .nil _

/-- An argument stands in parentheses, and takes nothing of what stands behind it. -/
theorem RereadEach.cons {arg : Term} {args : List Term} {e : Expr} {as : List Atom}
    (harg : Reread names Γ arg e) (hargs : RereadEach names Γ args as) :
    RereadEach names Γ (arg :: args) (.group e :: as) where
  length := by rw [List.length_cons, List.length_cons, hargs.length]
  text := by simp [argsText, Atom.text, Term.flatArgs, harg.text, hargs.text]
  wellScoped := List.forall_mem_cons.mpr ⟨.group harg.wellScoped, hargs.wellScoped⟩
  named h := by
    cases h with
    | cons hfirst hafter =>
      cases hfirst with
      | group hnone hinner =>
        cases hnone
        exact List.forall_mem_cons.mpr ⟨harg.named hinner, hargs.named hafter⟩
  alike hpaired houter h := by
    rw [List.forall_mem_cons] at houter
    cases h with
    | cons hfirst hafter =>
      cases hfirst with
      | group hnone hinner =>
        cases hnone
        exact .cons (harg.alike hpaired houter.1 hinner) (hargs.alike hpaired houter.2 hafter)

/-- Arguments that can each be read again can be read again together. -/
theorem RereadEach.exists_of_forall {args : List Term}
    (h : ∀ arg ∈ args, ∃ e, Reread names Γ arg e) : ∃ as, RereadEach names Γ args as := by
  induction args with
  | nil => exact ⟨[], .nil⟩
  | cons arg args ih =>
    rw [List.forall_mem_cons] at h
    obtain ⟨⟨e, harg⟩, hrest⟩ := h
    obtain ⟨as, hargs⟩ := ih hrest
    exact ⟨.group e :: as, .cons harg hargs⟩

/-- A bound identity on arguments is read again as itself. -/
theorem Reread.app {n : Name} {i : Ident} {args : List Term} {as : List Atom}
    (hn : n.word = names.lookup i) (hbound : i ∈ Γ) (hne : args ≠ [])
    (hargs : RereadEach names Γ args as) : Reread names Γ (.app i args) (.mk (.name n) as) where
  text := by
    simp [Expr.text, Atom.text, Term.flat, hargs.text, Name.toList_of_word hn]
  wellScoped := by
    refine .call (hn ▸ List.mem_map_of_mem hbound) (fun hnil => hne ?_) hargs.wellScoped
    rw [← List.length_eq_zero_iff, ← hargs.length, hnil, List.length_nil]
  named h k hk := by
    cases h with
    | name hname heach =>
      rcases Term.mem_frees_app.mp hk with rfl | ⟨arg, harg, hk⟩
      · rwa [hn] at hname
      · exact hargs.named heach arg harg k hk
  alike hpaired houter h := by
    cases h with
    | @name _ _ _ us _ hname heach =>
      have hsome : (us ++ []).isEmpty = false := by
        rw [List.append_nil, List.isEmpty_eq_false_iff, ← List.length_pos_iff, heach.length_eq,
          hargs.length]
        exact List.length_pos_iff.mpr hne
      rw [hsome, if_neg Bool.false_ne_true, List.append_nil, hn]
      rw [hn] at hname
      refine .app (hpaired.linked hname (fun hfree => absurd hbound hfree)
        fun hfree => absurd hbound hfree) (hargs.alike hpaired ?_ heach)
      exact fun arg harg k hk => houter k (Term.mem_frees_app.mpr (.inr ⟨arg, harg, hk⟩))

/-- **Trees.** A term that is printable has a tree that stands for it.  The tree of a simple term
    has no arguments, so that it may be one without parentheses. -/
theorem Term.Printable.reread {t : Term} (h : t.Printable names Γ) :
    ∃ a as, Reread names Γ t (.mk a as) ∧ (t.isSimple = true → as = []) := by
  induction h with
  | var hname hclear =>
    obtain ⟨n, hn⟩ := hname.exists_name
    exact ⟨.name n, [], .var hn hclear, fun _ => rfl⟩
  | @abs Γ i body param hname hnew hbody hsimple _ ihb ihp =>
    obtain ⟨n, hn⟩ := hname.exists_name
    obtain ⟨a, as, hread, -⟩ := ihb
    have hclear : ∀ k ∈ body.frees, k ≠ i → names.lookup k ≠ names.lookup i := by
      -- Either `k` is a binder around this one, or it is free and occurs below it.
      intro k hk hne
      by_cases hbound : k ∈ Γ
      · exact hnew k hbound
      · exact (hbody.clear k hk (by simp [hne, hbound]) i List.mem_cons_self).symm
    cases hp : param.isPresent with
    | false =>
      rw [eq_absent_of_not_isPresent hp]
      exact ⟨.binder n (.mk a as), [], .abs hn hnew hclear hread .absent, fun _ => rfl⟩
    | true =>
      obtain ⟨b, bs, hreadParam, hnone⟩ := ihp hp
      obtain rfl := hnone (hsimple hp)
      refine ⟨.binder n (.mk a as), [b], .abs hn hnew hclear hread (.present hp hreadParam), ?_⟩
      simp [isSimple, hp]
  | @app Γ i args hname hbound hne _ ih =>
    obtain ⟨n, hn⟩ := hname.exists_name
    obtain ⟨as, hread⟩ := RereadEach.exists_of_forall fun arg harg =>
      let ⟨a, as, hread, _⟩ := ih arg harg
      ⟨.mk a as, hread⟩
    exact ⟨.name n, as, .app hn hbound hne hread, by simp [isSimple]⟩

end

/-! ### Reading a display -/

/-- A text of the grammar is read. -/
theorem parse_of_derives {text : List Char} (h : Derives [] (removeBlanks text)) :
    ∃ t names, parse text = .ok (t, names) := by
  obtain ⟨outcome, s, hparse, ⟨hempty, rfl⟩ | hjudged⟩ := parse_covers judged_covers text
  · exact absurd (hempty ▸ h) not_derives_nil
  · obtain ⟨t, rfl⟩ := (hjudged Scope.sound_empty).accepts.mpr h
    exact ⟨t, s.table, hparse⟩

/-- What is read is a text of the grammar. -/
theorem derives_of_parse {text : List Char} {t : Term} {names : Names}
    (h : parse text = .ok (t, names)) : Derives [] (removeBlanks text) := by
  obtain ⟨outcome, s, hparse, ⟨-, rfl⟩ | hjudged⟩ := parse_covers judged_covers text
  · rw [hparse] at h
    cases h
  · rw [hparse] at h
    cases outcome with
    | error e => cases h
    | ok t => exact (hjudged Scope.sound_empty).accepts.mp ⟨t, rfl⟩

/-- What is read is resolved along the tree of the text. -/
theorem resolves_of_parse {text : List Char} {t : Term} {names : Names}
    (h : parse text = .ok (t, names)) {e : Expr} (he : e.text = removeBlanks text) :
    ∃ env, Resolves names env e [] t := by
  obtain ⟨s, hread, rfl⟩ := parse_respects resolved_follows.respects h
  obtain ⟨hplaced, e', htext, hresolved⟩ := hread Scope.sound_empty (.nil _)
  obtain rfl := Expr.text_injective (htext.trans he.symm)
  have hstack : s.stack = [] := hplaced.grows.stack
  exact ⟨_, hresolved hplaced.sound _ _ (s.stands_table hstack)⟩

/-- Both layouts of a printable term are, without white space, the one on one line. -/
theorem Term.Printable.removeBlanks_display {names : Names} {Γ : List Ident} {t : Term}
    (h : t.Printable names Γ) (overLines : Bool) :
    removeBlanks (t.display names overLines).toList = (t.flat names).toList := by
  have hflat := removeBlanks_flat fun i hi => (h.isPlainName i hi).removeBlanks_eq
  cases overLines with
  | false => exact hflat
  | true => exact (t.removeBlanks_indentedAt names 0).trans hflat

/-- **Displaying and reading.** A printable term in which identities that are free have different
    names is read again from either layout.  What is read is the same up to the identities of
    binders, where binders that correspond have the same names; the free identities correspond by
    their names, in the order in which they occur; and it is displayed as before. -/
theorem parse_display {names : Names} {t : Term} (ht : t.Printable names [])
    (hfrees : ∀ i ∈ t.frees, ∀ j ∈ t.frees, names.lookup i = names.lookup j → i = j)
    (overLines : Bool) :
    ∃ t' names', parse (t.display names overLines).toList = .ok (t', names') ∧
      Term.Alike (fun i j => names.lookup i = names'.lookup j) (t.frees.zip t'.frees) t t' ∧
      List.Forall₂ (fun i j => names.lookup i = names'.lookup j) t.frees t'.frees ∧
      t'.display names' overLines = t.display names overLines := by
  obtain ⟨a, as, hread, -⟩ := ht.reread
  have htext := hread.text.trans (ht.removeBlanks_display overLines).symm
  obtain ⟨t', names', hparse⟩ := parse_of_derives ⟨_, hread.wellScoped, htext⟩
  obtain ⟨env, hresolves⟩ := resolves_of_parse hparse htext
  have hnamed := hread.named hresolves
  -- Names keep the free identities apart, so what they stand for is different too.
  have hapart : ∀ i ∈ t.frees, ∀ j ∈ t.frees,
      env (names.lookup i) = env (names.lookup j) → i = j := by
    intro i hi j hj heq
    refine hfrees i hi j hj ?_
    rw [← hnamed i hi, heq, hnamed j hj]
  have hpaired : Paired names names' env [] [] := ⟨rfl, by simp, by simp, by simp⟩
  have halike := hread.alike hpaired (fun i hi _ => Linked.map_pairs hapart hi) hresolves
  rw [List.nil_append] at halike
  -- What a free identity is linked to is what its name stands for, and has that name.
  have hshown := halike.shown fun i hi j hlinked => by
    rw [hlinked.eq_of_map_pairs hi, hnamed i hi]
  have hzip : t.frees.zip t'.frees = t.frees.map fun i => (i, env (names.lookup i)) := by
    rw [halike.frees_of_map_pairs, List.map_prod_left_eq_zip]
  refine ⟨t', names', hparse, hzip ▸ halike, ?_, ?_⟩
  · rw [halike.frees_of_map_pairs, List.forall₂_map_right_iff, List.forall₂_same]
    exact fun i hi => (hnamed i hi).symm
  · cases overLines with
    | false => exact hshown.1.symm
    | true => exact (hshown.2 0).symm

/-- In `f(f.(x).(x(x.(g)))).x(x)` a free identity and two binders are called `x`. -/
theorem parse_display_shared_name :
    let names : Names := #["f", "g", "x", "x", "x"]
    let t : Term := .abs 0 (.app 0 [.var 4, .abs 2 (.app 2 [.var 1]) .absent])
      (.abs 3 (.var 3) .absent)
    t.Printable names [] ∧
      (∀ i ∈ t.frees, ∀ j ∈ t.frees, names.lookup i = names.lookup j → i = j) ∧
      t.flat names = "f(f.(x).(x(x.(g)))).x(x)" ∧
      ∃ t' names', parse (t.display names true).toList = .ok (t', names') ∧
        Term.Alike (fun i j => names.lookup i = names'.lookup j) (t.frees.zip t'.frees) t t' ∧
        t'.display names' true = t.display names true := by
  intro names t
  have hplain : ∀ i ∈ t.idents, IsPlainName (names.lookup i) := by
    simp [t, names, Term.idents, Names.lookup, IsPlainName, isBlank]
  have hcall : Term.Printable names [2, 0] (.app 2 [.var 1]) := by
    refine .app (hplain 2 (by decide)) (by simp) (by simp) (List.forall_mem_singleton.mpr ?_)
    exact .var (hplain 1 (by decide)) fun _ => by decide
  have hargs : ∀ arg ∈ [.var 4, .abs 2 (.app 2 [.var 1]) .absent],
      Term.Printable names [0] arg := by
    refine List.forall_mem_cons.mpr ⟨.var (hplain 4 (by decide)) fun _ => by decide, ?_⟩
    exact List.forall_mem_singleton.mpr (.abs (hplain 2 (by decide)) (by decide) hcall
      (by simp [Term.isPresent]) (by simp [Term.isPresent]))
  have hparam : Term.Printable names [] (.abs 3 (.var 3) .absent) :=
    .abs (hplain 3 (by decide)) (by simp) (.var (hplain 3 (by decide)) (by simp))
      (by simp [Term.isPresent]) (by simp [Term.isPresent])
  have ht : t.Printable names [] :=
    .abs (hplain 0 (by decide)) (by simp) (.app (hplain 0 (by decide)) (by simp) (by simp) hargs)
      (fun _ => rfl) fun _ => hparam
  have hfrees : ∀ i ∈ t.frees, ∀ j ∈ t.frees, names.lookup i = names.lookup j → i = j := by decide
  obtain ⟨t', names', hparse, halike, -, hdisplay⟩ := parse_display ht hfrees true
  exact ⟨ht, hfrees, by decide, t', names', hparse, halike, hdisplay⟩

end DotLambda
