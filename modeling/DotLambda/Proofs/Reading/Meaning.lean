import DotLambda.Proofs.Reading.Following
import DotLambda.Proofs.Term.Meaning
import Mathlib

namespace DotLambda

/-!
# Reading — meaning

A text that is read has one tree, and the term that it is read as means what the tree means.
Arguments stand in the term where they wait to be taken, below binders that were met later; they
are never captured, because an identity is handed out once.

* `Scope.Agrees` — identities mean what the names that stand for them mean;
* `Meant` — what a term that was read has to do with its tree;
* `meant_follows` — all that is read means what its tree means;
* `parse_keeps_meaning` — so does a program.
-/

open Lambda

/-! ### Names and identities -/

namespace Scope

variable {s s' : Scope} {α : Type} {ρ : Ident → Lambda α} {Γ : String → Lambda α}

/-- The identity that a name stands for, as far as it has one already. -/
def identity? (s : Scope) (name : String) : Option Nat :=
  (s.find? name).or (s.unbound.lookup name)

/-- While a scope grows, the binders in sight stay the same. -/
theorem Grows.find?_eq (hg : s.Grows s') (hs : s.Sound) (name : String) :
    s'.find? name = s.find? name := by
  have hsame : ∀ stack : List Nat, (∀ k ∈ stack, k < s.table.size) →
      stack.find? (fun k => s'.nameOf k == name) = stack.find? fun k => s.nameOf k == name := by
    intro stack hlt
    induction stack with
    | nil => rfl
    | cons k stack ih =>
      rw [List.forall_mem_cons] at hlt
      rw [List.find?_cons, List.find?_cons, hg.nameOf k hlt.1, ih hlt.2]
  unfold find?
  rw [hg.stack]
  exact hsame s.stack hs.stack_lt

/-- What a name stands for, it stands for from then on. -/
theorem Grows.identity? {name : String} {k : Nat} (hg : s.Grows s') (hs : s.Sound)
    (h : s.identity? name = some k) : s'.identity? name = some k := by
  unfold Scope.identity? at h ⊢
  rw [hg.find?_eq hs]
  cases hfind : s.find? name with
  | some j =>
    rw [hfind] at h
    exact h
  | none =>
    rw [hfind, Option.none_or] at h
    exact hg.lookup name k h

/-- A name that is bound stands for its binder. -/
theorem identity?_of_find? {name : String} {k : Nat} (h : s.find? name = some k) :
    s.identity? name = some k := by
  rw [identity?, h, Option.some_or]

/-- A name stands for a binder in sight or for a free identity. -/
theorem mem_of_identity? {name : String} {k : Nat} (h : s.identity? name = some k) :
    k ∈ s.stack ∨ k ∈ s.unboundIds := by
  rcases Option.or_eq_some_iff.mp h with hfind | ⟨-, hfree⟩
  · exact .inl (List.mem_of_find?_eq_some hfind)
  · exact .inr (mem_unboundIds (mem_unbound_of_lookup hfree))

/-- A name stands for what it is resolved to. -/
theorem Sound.identity?_of_resolve {name : String} {id : Nat} (hs : s.Sound)
    (h : s.resolve name = (id, s')) : s'.identity? name = some id := by
  rcases resolve_cases h with ⟨hfind, rfl⟩ | ⟨hfind, hfree, rfl⟩ | ⟨hfind, hnew, rfl, heq⟩
  · exact identity?_of_find? hfind
  · rw [identity?, hfind, hfree, Option.none_or]
  · rw [identity?, (hs.enterFree hnew heq).2.find?_eq hs, hfind, Option.none_or, heq]
    exact List.lookup_cons_self

/-- An identity means what the name that stands for it means. -/
def Agrees (s : Scope) (ρ : Ident → Lambda α) (Γ : String → Lambda α) : Prop :=
  ∀ name (k : Nat), s.identity? name = some k → ρ k = Γ name

/-- What agrees with a scope agrees with the smaller one before it. -/
theorem Agrees.mono (h : s'.Agrees ρ Γ) (hg : s.Grows s') (hs : s.Sound) : s.Agrees ρ Γ :=
  fun name k hk => h name k (hg.identity? hs hk)

/-- Below a binder, its name stands for its identity, and another name for what it stands for
    outside, which is not the binder. -/
theorem identity?_below {s₁ s₂ : Scope} {name other : String} {id k : Nat} (hs : s.Sound)
    (hid : s.bind name = (id, s₁)) (hs₂ : s₂.Sound) (hg : s₁.Grows s₂)
    (hk : s₂.identity? other = some k) :
    other = name ∧ k = id ∨ other ≠ name ∧ k ≠ id ∧ s₂.leave.identity? other = some k := by
  have hs₁ := hs.bind hid
  obtain ⟨rfl, rfl⟩ := bind_cases hid
  have hstack : s₂.stack = s.table.size :: s.stack := hg.stack
  have hname : s₂.nameOf s.table.size = name := by
    rw [hg.nameOf _ (hs₁.stack_lt _ List.mem_cons_self)]
    exact nameOf_push_self name _ _
  by_cases hother : other = name
  · subst hother
    have hfind : s₂.find? other = some s.table.size := by
      rw [find?, hstack]
      exact List.find?_cons_of_pos (by rw [hname, beq_self_eq_true])
    rw [identity?_of_find? hfind, Option.some.injEq] at hk
    exact .inl ⟨rfl, hk.symm⟩
  · -- The identity of another name is looked up behind the binder, so it is not the binder's.
    have hbehind : s₂.leave.identity? other = some k := by
      have hfind : s₂.find? other = s₂.leave.find? other := by
        rw [find?, find?, Scope.leave, hstack]
        exact List.find?_cons_of_neg (by rw [hname, beq_iff_eq]; exact fun h => hother h.symm)
      rw [identity?, hfind] at hk
      exact hk
    refine .inr ⟨hother, ?_, hbehind⟩
    rintro rfl
    rcases mem_of_identity? hbehind with hk | hk
    · rw [Scope.leave, hstack] at hk
      exact Nat.lt_irrefl _ (hs.stack_lt _ hk)
    · exact hs₂.disjoint s.table.size (hstack ▸ List.mem_cons_self) hk

/-- Below a binder, its name and its identity mean its variable, and all else means what it meant
    outside. -/
theorem Agrees.enter {s₁ s₂ : Scope} {name : String} {id : Nat} (hs : s.Sound)
    (hid : s.bind name = (id, s₁)) (hs₂ : s₂.Sound) (hg : s₁.Grows s₂)
    (h : s₂.leave.Agrees ρ Γ) : s₂.Agrees (enter ρ id) (enter Γ name) := by
  intro other k hk
  rcases identity?_below hs hid hs₂ hg hk with ⟨rfl, rfl⟩ | ⟨hother, hne, hbehind⟩
  · rw [enter_self, enter_self]
  · rw [enter_of_ne ρ fun heq => hne (Int.ofNat_inj.mp heq), enter_of_ne Γ hother]
    exact congrArg shift (h other k hbehind)

end Scope

/-! ### Terms and trees -/

/-- A term means what a tree means, applied to the arguments that waited.  The two may differ in
    where arguments stand. -/
def Meant (e : Expr) (queue : List Term) (t : Term) (s' : Scope) : Prop :=
  ∀ {α : Type} (ρ : Ident → Lambda α) (Γ : String → Lambda α), s'.Agrees ρ Γ →
    Regroup (t.readIn ρ) ((e.reading Γ).apply (queue.map (Term.readIn · ρ)))

/-- The same for arguments, one by one. -/
def MeantEach (as : List Atom) (ts : List Term) (s' : Scope) : Prop :=
  ∀ {α : Type} (ρ : Ident → Lambda α) (Γ : String → Lambda α), s'.Agrees ρ Γ →
    List.Forall₂ Regroup (ts.map (Term.readIn · ρ)) (argsReading as Γ)

section

variable {α : Type} {ρ : Ident → Lambda α} {Γ : String → Lambda α} {queue ts : List Term}

/-- Own arguments stand in front of those that wait. -/
theorem regroup_own {t head : Lambda α} {own : List (Lambda α)}
    (h : Regroup t (head.apply ((ts ++ queue).map (Term.readIn · ρ))))
    (hown : List.Forall₂ Regroup (ts.map (Term.readIn · ρ)) own) :
    Regroup t ((head.apply own).apply (queue.map (Term.readIn · ρ))) := by
  rw [List.map_append, apply_append] at h
  exact h.trans (((Regroup.refl head).apply hown).apply_left _)

/-- A binder that takes the first argument, with the others below it, means its abstraction
    applied to all of them. -/
theorem regroup_binder {id : Ident} {body : Term} {b : Lambda α}
    (hpresent : ∀ u ∈ queue, u.isPresent = true) (hfree : ∀ u ∈ queue, id ∉ u.frees)
    (h : Regroup (body.readIn (enter ρ id))
      (b.apply (queue.tail.map (Term.readIn · (enter ρ id))))) :
    Regroup ((Term.abs id body (queue.headD .absent)).readIn ρ)
      ((Lambda.lam b).apply (queue.map (Term.readIn · ρ))) := by
  cases queue with
  | nil => exact h.lam
  | cons arg queue =>
    rw [List.headD_cons, Term.readIn_redex_eq (hpresent arg List.mem_cons_self)]
    exact Term.regroup_supplied (fun u hu => hfree u (List.mem_cons_of_mem _ hu)) h _

end

/-- **All that is read means what its tree means.** -/
theorem meant_follows : Reader.Follows
    (fun e _ queue t s' => Meant e queue t s') (fun as _ ts s' => MeantEach as ts s') where
  bare {n _ _ _} queue hs hid := by
    intro α ρ Γ hagree
    have hmeans := hagree _ _ (hs.identity?_of_resolve hid)
    show Regroup _ ((Γ n.word).apply (queue.map (Term.readIn · ρ)))
    rw [← hmeans]
    cases queue with
    | nil => exact .refl _
    | cons arg queue =>
      rw [List.isEmpty_cons, if_neg Bool.false_ne_true, Term.readIn_app]
      exact .refl _
  binder hplaced hqueue hid hinner hargs hbody := by
    intro α ρ Γ hagree
    -- The arguments are read outside the binder, the body inside.
    have houtside := hagree.mono (.leave hid hinner.grows) hplaced.sound
    have hinside := hagree.enter hplaced.sound hid hinner.sound hinner.grows
    refine regroup_own (regroup_binder ?_ (hqueue.not_free hid) ?_) (hargs ρ Γ houtside)
    · exact fun u hu => Term.isPresent_of_isWhole (hqueue.whole u hu)
    · exact hbody _ _ hinside
  call {n _ _ _ _ id} queue _ _ hid hargs := by
    intro α ρ Γ hagree
    have hhead : ρ id = Γ n.word := hagree _ _ (Scope.identity?_of_find? hid)
    refine regroup_own ?_ (hargs ρ Γ hagree)
    rw [Term.readIn_app, hhead]
    exact .refl _
  group hplaced hblock hargs hinner := by
    intro α ρ Γ hagree
    -- The arguments were read before the block was.
    exact regroup_own (hinner ρ Γ hagree) (hargs ρ Γ (hagree.mono hblock.grows hplaced.sound))
  nil _ := fun _ _ _ => .nil
  cons hplaced hrest harg hafter := by
    intro α ρ Γ hagree
    exact .cons (harg ρ Γ (hagree.mono hrest.grows hplaced.sound)) (hafter ρ Γ hagree)

/-! ### Programs -/

/-- The table shows the name that an identity was handed out for. -/
theorem Scope.lookup_table {s : Scope} {k : Nat} (hk : k < s.table.size) :
    Names.lookup s.table k = s.nameOf k := by
  rw [Names.lookup, if_neg (Int.not_lt.mpr (Int.natCast_nonneg k)), Int.toNat_natCast,
    Scope.nameOf, Array.getElem?_eq_getElem hk, Option.getD_some, Option.getD_some]

namespace Scope.Sound

variable {s : Scope}

/-- A free name is what the table has for its identity. -/
theorem table_lookup (hs : s.Sound) {name : String} {k : Nat} (h : (name, k) ∈ s.unbound) :
    Names.lookup s.table k = name :=
  (lookup_table (hs.unbound_lt k (mem_unboundIds h))).trans (hs.named _ h)

/-- Outside all binders, every name means itself. -/
theorem agrees_table (hs : s.Sound) (hstack : s.stack = []) :
    s.Agrees (fun i => .atom (Names.lookup s.table i)) Lambda.atom := by
  intro name k hk
  have hfind : s.find? name = none := by
    rw [find?, hstack, List.find?_nil]
  rw [identity?, hfind, Option.none_or] at hk
  exact congrArg Lambda.atom (hs.table_lookup (mem_unbound_of_lookup hk))

/-- Outside all binders, one name is one identity. -/
theorem eq_of_table_lookup (hs : s.Sound) (hstack : s.stack = []) {i j : Ident}
    (hi : s.Visible i) (hj : s.Visible j)
    (h : Names.lookup s.table i = Names.lookup s.table j) : i = j := by
  have hfree : ∀ {i : Ident}, s.Visible i →
      ∃ k : Nat, i = k ∧ s.unbound.lookup (Names.lookup s.table i) = some k := by
    rintro _ ⟨k, rfl, hk | hk⟩
    · rw [hstack] at hk
      cases hk
    · obtain ⟨⟨name, k⟩, hmem, rfl⟩ := List.mem_map.mp hk
      exact ⟨k, rfl, by rw [hs.table_lookup hmem, hs.lookup _ hmem]⟩
  obtain ⟨k, rfl, hk⟩ := hfree hi
  obtain ⟨l, rfl, hl⟩ := hfree hj
  rw [h, hl, Option.some.injEq] at hk
  rw [hk]

end Scope.Sound

/-- **Reading keeps the meaning.** A text that is read as `t` has one tree, and `t`, with its free
    identities called by their names, is β-equivalent to the reading of the tree.  It even is that
    reading up to where arguments stand, so that none is lost, doubled, moved past another or
    captured; and different free identities have different names. -/
theorem parse_keeps_meaning {text : List Char} {t : Term} {names : Names}
    (h : parse text = .ok (t, names)) :
    ∃ e : Expr, e.text = removeBlanks text ∧
      (∀ e' : Expr, e'.text = removeBlanks text → e' = e) ∧
      Conv (t.readIn fun i => .atom (names.lookup i)) (e.reading .atom) ∧
      Regroup (t.readIn fun i => .atom (names.lookup i)) (e.reading .atom) ∧
      ∀ i ∈ t.frees, ∀ j ∈ t.frees, names.lookup i = names.lookup j → i = j := by
  obtain ⟨s, hread, rfl⟩ := parse_respects meant_follows.respects h
  obtain ⟨hplaced, e, htext, hmeans⟩ := hread Scope.sound_empty (.nil _)
  have hstack : s.stack = [] := hplaced.grows.stack
  have hregroup := hmeans _ _ (hplaced.sound.agrees_table hstack)
  have hvisible : ∀ i ∈ t.frees, s.Visible i := fun i hi =>
    (hplaced.frees i hi).resolve_right (by simp)
  refine ⟨e, htext, fun e' htext' => ?_, hregroup.conv, hregroup, fun i hi j hj hname => ?_⟩
  · exact Expr.text_injective (htext'.trans htext.symm)
  · exact hplaced.sound.eq_of_table_lookup hstack (hvisible i hi) (hvisible j hj) hname

/-- The free `y` waits until it stands below the binder `y`, and is not captured there: the term
    is `(λx. (λy. x y y') b) a` for `(λx. λy. x y) a b y'`. -/
theorem parse_keeps_meaning_below_binders :
    parse "x(y(x.y)).a.b.y".toList
        = .ok (.abs 3 (.abs 4 (.app 3 [.var 4, .var 2]) (.var 1)) (.var 0),
          #["a", "b", "y", "x", "y"]) ∧
      Regroup
        (.app (.lam (.app (.lam (.app (.app (.bound 1) (.bound 0)) (.atom "y"))) (.atom "b")))
          (.atom "a"))
        (.app (.app (.app (.lam (.lam (.app (.bound 1) (.bound 0)))) (.atom "a")) (.atom "b"))
          (.atom "y")) := by
  have hparse : parse "x(y(x.y)).a.b.y".toList
      = .ok (.abs 3 (.abs 4 (.app 3 [.var 4, .var 2]) (.var 1)) (.var 0),
        #["a", "b", "y", "x", "y"]) := by cbv
  obtain ⟨e, -, honly, -, hregroup, -⟩ := parse_keeps_meaning hparse
  have htree := honly
    (.mk (.binder (.ofChars ['x'] rfl (by decide)) (.mk (.binder (.ofChars ['y'] rfl (by decide))
        (.mk (.name (.ofChars ['x'] rfl (by decide))) [.name (.ofChars ['y'] rfl (by decide))]))
        []))
      [.name (.ofChars ['a'] rfl (by decide)), .name (.ofChars ['b'] rfl (by decide)),
        .name (.ofChars ['y'] rfl (by decide))])
    (by cbv)
  rw [← htree] at hregroup
  exact ⟨hparse, hregroup⟩

end DotLambda
