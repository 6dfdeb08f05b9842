import DotLambda.Proofs.Reading.Outcomes

namespace DotLambda

/-!
# Reading — the readers as equations

The readers unfolded once, by what a text begins with and by where it is cut.  What compares a
reader with something else, another reader or itself in another state, rewrites with these.

* `Reading.andThen`, `Reading.map`, `Reading.leaving` — readings put together;
* `Reader.call` — what a called name and its arguments are read as;
* `Reader.expression_opened`, `Reader.expression_named` — an expression begins with a parenthesis
  or with a name;
* `Reader.abstraction_of_cut`, `Reader.application_of_name` — a name with its block, and a called
  name;
* `Reader.argumentList_of_cut` — an argument and those behind it.
-/

/-! ### Putting readings together -/

namespace Reading

variable {α β : Type}

/-- Goes on with what was read, in the state after it; an error ends all. -/
def andThen (x : Reading α) (next : α → Reader → Reading β) : Reading β :=
  match x with
  | (.error e, r) => (.error e, r)
  | (.ok a, r) => next a r

/-- Makes something else of what was read. -/
def map (f : α → β) (x : Reading α) : Reading β :=
  (x.1.map f, x.2)

/-- Changes the state after reading, whether something was read or not. -/
def leaving (x : Reading α) (f : Reader → Reader) : Reading α :=
  (x.1, f x.2)

end Reading

namespace Reader

/-- The state with other arguments waiting. -/
def holding (r : Reader) (queue : List Term) : Reader :=
  { r with pending := queue }

/-- The state with the innermost scope left. -/
def leaveScope (r : Reader) : Reader :=
  { r with scope := r.scope.leave }

/-- Calls a name with its own arguments and those that wait. -/
def call (text name : List Char) (own : List Term) (r : Reader) : Reading Term :=
  match r.scope.find? (String.ofList name) with
  | none =>
    r.fail (.unknownFunction (String.ofList name)
      (suggest (String.ofList name) r.scope.boundNames)) text
  | some id => (.ok (.app id (own ++ r.pending)), r.fresh)

/-! ### Expressions -/

/-- Nothing is not an expression. -/
theorem expression_nil (r : Reader) : expression [] r = r.fail .emptyExpression [] := by
  rw [expression.eq_def]

section

variable {rest text : List Char} {block : Block} {fault : BlockFault} (r : Reader)

/-- A group whose block cannot be cut out is refused for that. -/
theorem expression_unclosed (hcut : Block.cut ('(' :: rest) = .error fault) :
    expression ('(' :: rest) r = r.fail (.block fault) ('(' :: rest) := by
  rw [expression.eq_def]
  simp only
  split
  · rename_i fault' hcut'
    cases hcut.symm.trans hcut'
    rfl
  · rename_i block hcut'
    cases hcut.symm.trans hcut'

/-- A group hands the arguments behind it to the expression in it. -/
theorem expression_opened (hcut : Block.cut ('(' :: rest) = .ok block) :
    expression ('(' :: rest) r =
      (argumentList block.tail block.tail r).andThen fun args r =>
        expression block.inner (r.hand args) := by
  rw [expression.eq_def]
  simp only
  split
  · rename_i fault hcut'
    cases hcut.symm.trans hcut'
  · rename_i block' hcut'
    cases hcut.symm.trans hcut'
    rcases argumentList block.tail block.tail r with ⟨e | args, r₁⟩ <;> rfl

/-- An expression that begins with a name is read by its form. -/
theorem expression_named (hne : text ≠ []) (hopen : text.head? ≠ some '(') :
    expression text r =
      match Form.of text with
      | .bare => (r.note text).bareName text
      | .binding => abstraction text (r.note text)
      | .call => application text (r.note text) := by
  rw [expression.eq_def]
  split
  · exact absurd rfl hne
  · exact absurd rfl hopen
  · rfl

/-! ### Names with a block, and called names -/

/-- A binder without a proper name is refused. -/
theorem abstraction_of_fault {fault : Fault} (hname : nameFault? (binderName text) = some fault) :
    abstraction text r = r.fail fault text := by
  rw [abstraction.eq_def]
  simp only [hname]

/-- So is one whose name is bound already. -/
theorem abstraction_rebound (hname : nameFault? (binderName text) = none)
    (hbound : r.scope.binds (String.ofList (binderName text)) = true) :
    abstraction text r = (.error (.rebound (String.ofList (binderName text))), r) := by
  rw [abstraction.eq_def]
  simp only [hname, hbound, if_true]

/-- And so is one whose block cannot be cut out. -/
theorem abstraction_unclosed (hname : nameFault? (binderName text) = none)
    (hnew : r.scope.binds (String.ofList (binderName text)) = false)
    (hcut : Block.cut text = .error fault) :
    abstraction text r = r.fail (.block fault) text := by
  rw [abstraction.eq_def]
  simp only [hname, hnew, Bool.false_eq_true, if_false]
  split
  · rename_i fault' hcut'
    cases hcut.symm.trans hcut'
    rfl
  · rename_i block hcut'
    cases hcut.symm.trans hcut'

/-- The parameter is the first of all arguments, and the others wait for the body. -/
theorem abstraction_of_cut (hname : nameFault? (binderName text) = none)
    (hnew : r.scope.binds (String.ofList (binderName text)) = false)
    (hcut : Block.cut text = .ok block) :
    abstraction text r =
      (argumentList block.tail block.tail r).andThen fun args r =>
        let (id, scope) := r.scope.bind (String.ofList (binderName text))
        ((expression block.inner ({ r with scope }.holding (args ++ r.pending).tail)).map
          (.abs id · ((args ++ r.pending).headD .absent))).leaving leaveScope := by
  rw [abstraction.eq_def]
  simp only [hname, hnew, Bool.false_eq_true, if_false]
  split
  · rename_i fault hcut'
    cases hcut.symm.trans hcut'
  · rename_i block' hcut'
    cases hcut.symm.trans hcut'
    rcases argumentList block.tail block.tail r with ⟨e | args, r₁⟩
    · rfl
    · cases args with
      | nil => rcases r₁ with ⟨scope, _ | ⟨arg, pending⟩, journal⟩ <;> rfl
      | cons arg args => rfl

/-- A call without a proper name is refused. -/
theorem application_of_fault {fault : Fault} (hname : nameFault? (calledName text) = some fault) :
    application text r = r.fail fault text := by
  rw [application.eq_def]
  simp only [hname]

/-- Otherwise its arguments are read, and then it is made. -/
theorem application_of_name (hname : nameFault? (calledName text) = none) :
    application text r =
      (argumentList (text.dropWhile fun c => c != '.') (text.dropWhile fun c => c != '.') r).andThen
        (call text (calledName text)) := by
  rw [application.eq_def]
  simp only [hname]
  rcases argumentList _ _ r with ⟨e | own, r₁⟩ <;> rfl

/-! ### Arguments -/

/-- Nothing is an empty list of arguments. -/
theorem argumentList_nil (whole : List Char) : argumentList whole [] r = (.ok [], r) := by
  rw [argumentList.eq_def]

/-- A dot with nothing behind it lacks an argument. -/
theorem argumentList_of_missing (whole : List Char) :
    argumentList whole ['.'] r = r.fail .missingArgument whole := by
  rw [argumentList.eq_def]
  rfl

/-- What is behind an argument begins with a dot. -/
theorem argumentList_other (whole : List Char) (hne : text ≠ []) (hdot : text.head? ≠ some '.') :
    argumentList whole text r = r.fail .missingDot text := by
  rw [argumentList.eq_def]
  split
  · contradiction
  · exact absurd rfl hdot
  · exact absurd rfl hdot
  · rfl

/-- An argument that cannot be cut off is refused for that. -/
theorem argumentList_unclosed (whole : List Char) (hne : rest ≠ [])
    (hcut : cutArgument rest = .error fault) :
    argumentList whole ('.' :: rest) r = r.fail (.block fault) rest := by
  rw [argumentList.eq_def]
  split
  · contradiction
  · rename_i heq
    cases heq
    contradiction
  · rename_i heq
    cases heq
    split
    · rename_i fault' hcut'
      cases hcut.symm.trans hcut'
      rfl
    · rename_i hcut'
      cases hcut.symm.trans hcut'
  · rename_i hdot
    exact absurd rfl (hdot rest)

/-- An argument is read with nothing waiting, and what waits is there again after it. -/
theorem argumentList_of_cut (whole : List Char) (hne : rest ≠ []) {arg after : List Char}
    (hcut : cutArgument rest = .ok (arg, after)) :
    argumentList whole ('.' :: rest) r =
      ((expression arg r.fresh).leaving (·.holding r.pending)).andThen fun t r =>
        (argumentList whole after r).map (t :: ·) := by
  rw [argumentList.eq_def]
  split
  · contradiction
  · rename_i heq
    cases heq
    contradiction
  · rename_i heq
    cases heq
    split
    · rename_i hcut'
      cases hcut.symm.trans hcut'
    · rename_i hcut'
      cases hcut.symm.trans hcut'
      rcases expression arg r.fresh with ⟨e | t, inside⟩ <;> rfl
  · rename_i hdot
    exact absurd rfl (hdot rest)

end

end Reader

end DotLambda
