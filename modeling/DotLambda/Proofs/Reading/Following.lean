import DotLambda.Proofs.Reading.Scopes
import DotLambda.Proofs.Reading.Trees

namespace DotLambda

/-!
# Reading — along a tree

A text that is read has a tree, and reading follows it.  What is proved about the trees of texts
that are read goes by induction along this.

* `Reader.Follows` — what passes from the parts of a tree to the tree, where all that is read is
  placed in its scope;
* `Reader.Follows.respects` — then every text that is read has a tree of which it holds.
-/

namespace Reader

/-- The ways to read, each as a rule on trees: `P` of expressions and `Q` of argument lists pass
    from the parts of a tree to the tree. -/
structure Follows (P : Expr → Scope → List Term → Term → Scope → Prop)
    (Q : List Atom → Scope → List Term → Scope → Prop) : Prop where
  bare {n : Name} {s s' : Scope} {id : Nat} (queue : List Term) (hs : s.Sound)
      (hid : s.resolve n.word = (id, s')) :
      P (.mk (.name n) []) s queue (if queue.isEmpty then .var id else .app id queue) s'
  /-- The arguments are read outside the binder; all but the first wait for its body. -/
  binder {n : Name} {e : Expr} {as : List Atom} {s s₁ s₂ s₃ : Scope} {args queue : List Term}
      {id : Nat} {body : Term} (hplaced : PlacedEach s args s₁)
      (hqueue : Waiting s₁ (args ++ queue)) (hid : s₁.bind n.word = (id, s₂))
      (hinner : Placed s₂ (args ++ queue).tail body s₃) (hargs : Q as s args s₁)
      (hbody : P e s₂ (args ++ queue).tail body s₃) :
      P (.mk (.binder n e) as) s queue (.abs id body ((args ++ queue).headD .absent)) s₃.leave
  call {n : Name} {as : List Atom} {s s₁ : Scope} {args : List Term} {id : Nat}
      (queue : List Term) (hne : as ≠ []) (hplaced : PlacedEach s args s₁)
      (hid : s₁.find? n.word = some id) (hargs : Q as s args s₁) :
      P (.mk (.name n) as) s queue (.app id (args ++ queue)) s₁
  group {e : Expr} {as : List Atom} {s s₁ s₂ : Scope} {args queue : List Term} {t : Term}
      (hplaced : PlacedEach s args s₁) (hblock : Placed s₁ (args ++ queue) t s₂)
      (hargs : Q as s args s₁) (hinner : P e s₁ (args ++ queue) t s₂) :
      P (.mk (.group e) as) s queue t s₂
  nil (s : Scope) : Q [] s [] s
  cons {a : Atom} {as : List Atom} {s s₁ s₂ : Scope} {t : Term} {ts : List Term}
      (hplaced : Placed s [] t s₁) (hrest : PlacedEach s₁ ts s₂) (harg : P (.mk a []) s [] t s₁)
      (hafter : Q as s₁ ts s₂) : Q (a :: as) s (t :: ts) s₂

variable {P : Expr → Scope → List Term → Term → Scope → Prop}
  {Q : List Atom → Scope → List Term → Scope → Prop}

/-- **Trees.** A text that is read from a sound scope is the text of a tree, and what passes along
    trees holds of it. -/
theorem Follows.respects (h : Follows P Q) : Respects
    (fun text s queue t s' => s.Sound → Waiting s queue →
      Placed s queue t s' ∧ ∃ e : Expr, e.text = text ∧ P e s queue t s')
    (fun text s ts s' => s.Sound →
      PlacedEach s ts s' ∧ ∃ as : List Atom, argsText as = text ∧ Q as s ts s') where
  bare {text _ _ _ _} hform hname hid := by
    intro hs hqueue
    refine ⟨.bare hs hid hqueue.whole,
      .mk (.name (.ofChars text hname (Form.not_dot_of_bare hform))) [], ?_, h.bare _ hs hid⟩
    rw [Expr.text_atom]
    rfl
  binding {_ block _ _ _ _ _ _ _ _} hcut hname hform _ hargs hid hbody := by
    intro hs hqueue
    obtain ⟨hplaced, as, htail, hargs⟩ := hargs hs
    -- The arguments behind the block were read before its binder was bound.
    have hall := hqueue.append hplaced
    obtain ⟨hinner, e, htext, hbody⟩ := hbody (hplaced.sound.bind hid) (hall.below hid)
    exact ⟨.group hplaced (.binder hplaced.sound hid hall.whole hinner), _,
      Expr.text_binder_of_cut hcut hname (Expr.not_dot_of_cut hcut hform) htext htail,
      h.binder hplaced hall hid hinner hargs hbody⟩
  call {text _ _ _ _ _} hform hname hargs hid := by
    intro hs hqueue
    obtain ⟨hplaced, as, htail, hargs⟩ := hargs hs
    have htext := Expr.text_call_of_cut hname htail
    rw [← htext] at hform
    exact ⟨.headed hplaced ⟨_, rfl, .inl (List.mem_of_find?_eq_some hid)⟩ hqueue.whole, _, htext,
      h.call _ (Expr.args_ne_nil_of_form hform) hplaced hid hargs⟩
  group {_ block _ _ _ _ _ _} hcut hargs hinner := by
    intro hs hqueue
    obtain ⟨hplaced, as, htail, hargs⟩ := hargs hs
    obtain ⟨hblock, e, htext, hinner⟩ := hinner hplaced.sound (hqueue.append hplaced)
    exact ⟨.group hplaced hblock, _, Expr.text_group_of_cut hcut htext htail,
      h.group hplaced hblock hargs hinner⟩
  nil s := fun hs => ⟨.nil hs, [], rfl, h.nil s⟩
  cons hcut harg hafter := by
    intro hs
    obtain ⟨hplaced, e, rfl, hfirst⟩ := harg hs (.nil _)
    obtain ⟨hrest, as, rfl, hothers⟩ := hafter hplaced.sound
    obtain ⟨a, rfl⟩ := Expr.atom_of_cut hcut
    refine ⟨.cons hplaced hrest, a :: as, ?_, h.cons hplaced hrest hfirst hothers⟩
    rw [append_of_cutArgument hcut, Expr.text_atom, argsText]

end Reader

end DotLambda
