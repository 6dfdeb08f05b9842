import DotLambda.Proofs.Reading.Outcomes

namespace DotLambda

/-!
# Reading — what successful reading is made of

A text that is read falls into shorter texts that are read.  What is proved about the terms that
the readers give goes by induction along this; errors play no part in it.

* `Reader.Respects` — what passes from the parts of a text to the text, for expressions and for
  argument lists at once;
* `Reader.expression_respects` — then it holds of all that is read;
* `parse_respects` — the same for programs;
* `Reads` — a text is read in a scope with nothing waiting, and how such reading falls apart.
-/

namespace Reader

/-- What holds of a text, the scope and the waiting arguments before it is read, what it is read
    as, and the scope after that. -/
abbrev OfExpression := List Char → Scope → List Term → Term → Scope → Prop

/-- What holds of the text of an argument list, the scope before it is read, what the arguments are
    read as, and the scope after that. -/
abbrev OfArguments := List Char → Scope → List Term → Scope → Prop

/-- The ways to read, each as a rule: `P` of expressions and `Q` of argument lists pass from the
    parts of a text to the text.  Own arguments come before those that wait. -/
structure Respects (P : OfExpression) (Q : OfArguments) : Prop where
  /-- A name takes all that waits. -/
  bare {text : List Char} {s s' : Scope} {queue : List Term} {id : Nat}
      (hform : Form.of text = .bare) (hname : nameFault? text = none)
      (hid : s.resolve (String.ofList text) = (id, s')) :
      P text s queue (if queue.isEmpty then .var id else .app id queue) s'
  /-- A binder takes the first argument; its block is read with the others waiting. -/
  binding {text : List Char} {block : Block} {s s₁ s₂ s₃ : Scope} {args queue : List Term}
      {id : Nat} {body : Term} (hcut : Block.cut text = .ok block)
      (hname : nameFault? block.head = none) (hform : Form.of text = .binding)
      (hnew : s.binds (String.ofList block.head) = false) (hargs : Q block.tail s args s₁)
      (hid : s₁.bind (String.ofList block.head) = (id, s₂))
      (hbody : P block.inner s₂ (args ++ queue).tail body s₃) :
      P text s queue (.abs id body ((args ++ queue).headD .absent)) s₃.leave
  /-- A name that is called is bound, and takes its own arguments and all that waits. -/
  call {text : List Char} {s s₁ : Scope} {args queue : List Term} {id : Nat}
      (hform : Form.of text = .call) (hname : nameFault? (text.takeWhile fun c => c != '.') = none)
      (hargs : Q (text.dropWhile fun c => c != '.') s args s₁)
      (hid : s₁.find? (String.ofList (text.takeWhile fun c => c != '.')) = some id) :
      P text s queue (.app id (args ++ queue)) s₁
  /-- A block is read with the arguments behind it waiting. -/
  group {rest : List Char} {block : Block} {s s₁ s₂ : Scope} {args queue : List Term} {t : Term}
      (hcut : Block.cut ('(' :: rest) = .ok block) (hargs : Q block.tail s args s₁)
      (hinner : P block.inner s₁ (args ++ queue) t s₂) : P ('(' :: rest) s queue t s₂
  nil (s : Scope) : Q [] s [] s
  /-- An argument is read with nothing waiting. -/
  cons {rest arg after : List Char} {s s₁ s₂ : Scope} {t : Term} {ts : List Term}
      (hcut : cutArgument rest = .ok (arg, after)) (harg : P arg s [] t s₁)
      (hafter : Q after s₁ ts s₂) : Q ('.' :: rest) s (t :: ts) s₂

variable {P : OfExpression} {Q : OfArguments}

/-- What holds of all that is read holds of every outcome that is no error. -/
theorem Respects.covers (h : Respects P Q) : Covers
    (fun text s queue outcome s' => ∀ t, outcome = .ok t → P text s queue t s')
    (fun _ text s outcome s' => ∀ ts, outcome = .ok ts → Q text s ts s') where
  refused _ _ := error_not_ok
  bare hform hname hid := by
    rintro t ⟨⟩
    exact h.bare hform.2.2 hname hid
  binding {_ _ _ _ _ _ _ _ _ body} hform hcut hname hnew hargs hid hbody := by
    intro t ht
    cases body with
    | error e => cases ht
    | ok body =>
      cases ht
      exact h.binding hcut hname hform.2.2 hnew (hargs _ rfl) hid (hbody _ rfl)
  bindingArgs _ _ _ _ _ _ := error_not_ok
  call hform hname hargs hid := by
    rintro t ⟨⟩
    exact h.call hform.2.2 hname (hargs _ rfl) hid
  unknown _ _ _ _ _ := error_not_ok
  callArgs _ _ _ _ := error_not_ok
  group hcut hargs hinner := fun t ht => h.group hcut (hargs _ rfl) (hinner t ht)
  groupArgs _ _ _ := error_not_ok
  nil _ s := by
    rintro ts ⟨⟩
    exact h.nil s
  refusedList _ _ := error_not_ok
  cons {_ _ _ _ _ _ _ _ others} hcut harg hafter := by
    intro ts hts
    cases others with
    | error e => cases hts
    | ok others =>
      cases hts
      exact h.cons hcut (harg _ rfl) (hafter _ rfl)
  arg _ _ _ := error_not_ok

/-- **Expressions.** What is read has the property of expressions. -/
theorem expression_respects (h : Respects P Q) {text : List Char} {r r' : Reader} {t : Term}
    (hread : expression text r = (.ok t, r')) :
    P text r.scope r.pending t r'.scope ∧ r'.pending = [] := by
  obtain ⟨hcovered, hempty, -⟩ := expression_covers h.covers hread
  exact ⟨hcovered t rfl, hempty t rfl⟩

end Reader

/-- **Programs.** A program is an expression, read in an empty scope with nothing waiting. -/
theorem parse_respects {P : Reader.OfExpression} {Q : Reader.OfArguments} (h : Reader.Respects P Q)
    {text : List Char} {t : Term} {names : Names} (hparse : parse text = .ok (t, names)) :
    ∃ s : Scope, P (removeBlanks text) {} [] t s ∧ s.table = names := by
  obtain ⟨outcome, s, houtcome, hcovered⟩ := parse_covers h.covers text
  rw [houtcome] at hparse
  cases outcome with
  | error e => cases hparse
  | ok t' =>
    cases hparse
    exact ⟨s, (hcovered.resolve_left (by simp)) t rfl, rfl⟩

/-! ### Reading in a scope -/

/-- The text is read as `t` in the scope `s`, with nothing waiting, which leaves the scope `s'`. -/
def Reads (text : List Char) (s : Scope) (t : Term) (s' : Scope) : Prop :=
  Reader.expression text { scope := s } = (.ok t, { scope := s' })

namespace Reader

variable {text rest : List Char} {block : Block} {r r' : Reader} {t : Term}

/-- Nothing waits behind an expression, and a journal that is not kept stays so. -/
theorem reads_of_expression {s : Scope} (h : expression text { scope := s } = (.ok t, r')) :
    ∃ s', r' = { scope := s' } ∧ Reads text s t s' := by
  have htrivial : Respects (fun _ _ _ _ _ => True) (fun _ _ _ _ => True) :=
    ⟨fun _ _ _ => trivial, fun _ _ _ _ _ _ _ => trivial, fun _ _ _ _ => trivial,
      fun _ _ _ => trivial, fun _ => trivial, fun _ _ _ => trivial⟩
  obtain ⟨-, hempty, hoff⟩ := expression_covers htrivial.covers h
  obtain ⟨scope, pending, journal⟩ := r'
  obtain rfl : pending = [] := hempty t rfl
  obtain rfl : journal = .off := hoff rfl
  exact ⟨scope, rfl, h⟩

/-- A group that was read: its arguments were, and then what is in it. -/
theorem expression_group (hcut : Block.cut ('(' :: rest) = .ok block)
    (h : expression ('(' :: rest) r = (.ok t, r')) :
    ∃ args r₁, argumentList block.tail block.tail r = (.ok args, r₁) ∧
      expression block.inner (r₁.hand args) = (.ok t, r') := by
  rw [expression.eq_def] at h
  simp only at h
  split at h
  · cases h
  · rename_i other hother
    rw [hcut, Except.ok.injEq] at hother
    subst hother
    split at h
    · cases h
    · rename_i args r₁ hargs
      exact ⟨args, r₁, hargs, h⟩

/-- A binding that was read: its arguments were, its binder was bound, and its body was read with
    all arguments but the first waiting. -/
theorem expression_binding (hform : HasForm text .binding) (hcut : Block.cut text = .ok block)
    (h : expression text r = (.ok t, r')) :
    ∃ args r₁ id s body r₂, argumentList block.tail block.tail (r.note text) = (.ok args, r₁) ∧
      r₁.scope.bind (String.ofList block.head) = (id, s) ∧
      expression block.inner { r₁ with scope := s, pending := (args ++ r₁.pending).tail }
        = (.ok body, r₂) ∧
      t = .abs id body ((args ++ r₁.pending).headD .absent) ∧
      r' = { r₂ with scope := r₂.scope.leave } := by
  rw [expression.eq_def] at h
  split at h
  · exact absurd rfl hform.1
  · exact absurd rfl hform.2.1
  · rw [hform.2.2] at h
    simp only at h
    rw [abstraction.eq_def] at h
    extract_lets name at h
    split at h
    · cases h
    · split at h
      · cases h
      · split at h
        · cases h
        · rename_i other hother
          extract_lets at h
          rw [hcut, Except.ok.injEq] at hother
          subst hother
          -- What fails on the way is no reading; what is left is the block that was given.
          have hhead : name = block.head := (Block.head_of_cut hcut).symm
          split at h
          · cases h
          · rename_i args r₁ hargs
            split at h
            rename_i param r₂ hown
            cases (take_own args r₁).symm.trans hown
            split at h
            rename_i id s hid
            split at h
            rename_i body r₃ hbody
            rw [hhead] at hid
            cases body with
            | error e => cases h
            | ok body =>
              cases h
              exact ⟨args, r₁, id, s, body, r₃, hargs, hid, hbody, rfl, rfl⟩

/-- A block in parentheses is one argument. -/
theorem argumentList_block {whole inner : List Char} {args : List Term} (hinner : Balanced inner)
    (h : argumentList whole ('.' :: '(' :: (inner ++ [')'])) r = (.ok args, r')) :
    ∃ arg r₁, expression ('(' :: (inner ++ [')'])) r.fresh = (.ok arg, r₁) ∧ args = [arg] ∧
      r' = { r₁ with pending := r.pending } := by
  -- The block is one argument, with nothing behind it.
  have hcut : cutArgument ('(' :: (inner ++ [')'])) = .ok ('(' :: (inner ++ [')']), []) := by
    have hform : Form.of ('(' :: (inner ++ [')'])) = .binding := rfl
    have hend := blockEnd_of_balanced (fun c hc => absurd hc List.not_mem_nil) hinner []
    rw [List.nil_append, List.length_nil, Nat.zero_add] at hend
    have hlength : 1 + inner.length + 1 = ('(' :: (inner ++ [')'])).length := by
      simp only [List.length_cons, List.length_append, List.length_nil]
      omega
    unfold cutArgument
    rw [hform]
    simp only [hend, hlength, List.take_length, List.drop_length]
  rw [argumentList.eq_def] at h
  simp only at h
  split at h
  · cases h
  · rename_i arg after hother
    rw [hcut, Except.ok.injEq, Prod.mk.injEq] at hother
    obtain ⟨rfl, rfl⟩ := hother
    rcases harg : expression ('(' :: (inner ++ [')'])) r.fresh with ⟨outcome, r₁⟩
    rw [harg] at h
    cases outcome with
    | error e => cases h
    | ok arg =>
      simp only at h
      rw [argumentList.eq_def] at h
      cases h
      exact ⟨arg, r₁, rfl, rfl, rfl⟩

end Reader

/-- A program is read in an empty scope. -/
theorem reads_of_parse {text : List Char} {t : Term} {names : Names}
    (h : parse text = .ok (t, names)) :
    ∃ s : Scope, Reads (removeBlanks text) {} t s ∧ s.table = names := by
  unfold parse parseWith at h
  rcases hread : Reader.program (removeBlanks text) { journal := .off } with ⟨outcome, r⟩
  rw [hread] at h
  cases outcome with
  | error e => cases h
  | ok u =>
    cases h
    unfold Reader.program at hread
    split at hread
    · cases hread
    · obtain ⟨s, rfl, hreads⟩ := Reader.reads_of_expression hread
      exact ⟨s, hreads, rfl⟩

end DotLambda
