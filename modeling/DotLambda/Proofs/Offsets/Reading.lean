import DotLambda.Proofs.Offsets.Slices
import DotLambda.Proofs.Reading.Equations

namespace DotLambda

/-!
# Offsets — reading

The readers by offsets: they look at single bytes, search for characters, and read the parts of
their text between the offsets found.  An access that is out of range ends all.

* `Offsets.expression`, `Offsets.argumentList` — the mutually recursive readers;
* `Offsets.parse` — from text to a term and the names of its identities;
* `Offsets.form_eq`, `Offsets.argumentEnd_of_cutArgument` — the order of offsets is the order of
  characters;
* `Offsets.expression_eq`, `Offsets.argumentList_eq` — no access is out of range, and what is read
  is what is read by characters.
-/

/-- Goes on with what was read, where all accesses were in range. -/
def Reading.andThen? {α β : Type} (x : Reading α) (next : α → Reader → Option (Reading β)) :
    Option (Reading β) :=
  match x with
  | (.error e, r) => some (.error e, r)
  | (.ok a, r) => next a r

namespace Offsets

/-! ### Where things end -/

/-- Whether something is found, and in front of something else. -/
def precedes : Option Nat → Option Nat → Bool
  | none, _ => false
  | some _, none => true
  | some i, some j => i < j

/-- The form of an expression, from where its first dot and its first parenthesis are. -/
def form (text : List Char) : Form :=
  let call := offset? (· == '.') text
  let block := offset? (· == '(') text
  if call.isNone && block.isNone then .bare
  else if precedes block call then .binding
  else .call

/-- The offset at which the first argument of a text ends. -/
def argumentEnd (text : List Char) : Except BlockFault Nat :=
  let call := offset? (· == '.') text
  let block := offset? (· == '(') text
  if precedes block call then (blockOffset text).map (· + 1)
  else
    match call with
    | some n => .ok n
    | none => .ok (byteLength text)

/-! ### The readers -/

mutual

/-- Reads an expression. -/
def expression (text : List Char) (r : Reader) : Option (Reading Term) :=
  if text.isEmpty then some (r.fail .emptyExpression text)
  else do
    let first ← byteAt? text 0
    if first = '('.toUInt8 then
      match blockOffset text with
      | .error fault => some (r.fail (.block fault) text)
      | .ok n =>
        if n + 1 < byteLength text then do
          let tail ← slice? text (n + 1) (byteLength text)
          let args ← argumentList tail.chars tail.chars r
          args.andThen? fun args r => do
            let inner ← slice? text 1 n
            expression inner.chars (r.hand args)
        else do
          let inner ← slice? text 1 n
          expression inner.chars r
    else
      let r := r.note text
      match form text with
      | .bare => some (r.bareName text)
      | .binding => abstraction text r
      | .call => application text r
termination_by 3 * byteLength text + 2
decreasing_by
  · have := tail.size
    have := tail.start_le_stop
    omega
  · have := inner.size
    have := inner.start_le_stop
    have := inner.stop_le
    omega
  · have := inner.size
    have := inner.start_le_stop
    have := inner.stop_le
    omega
  · omega
  · omega

/-- Reads a name with its block. -/
def abstraction (text : List Char) (r : Reader) : Option (Reading Term) := do
  let opening ← offset? (· == '(') text
  let name ← slice? text 0 opening
  match nameFault? name.chars with
  | some fault => some (r.fail fault text)
  | none =>
    if r.scope.binds (String.ofList name.chars) then
      some (.error (.rebound (String.ofList name.chars)), r)
    else
      match blockOffset text with
      | .error fault => some (r.fail (.block fault) text)
      | .ok n => do
        let param ← (
          if n + 1 < byteLength text then do
            let tail ← slice? text (n + 1) (byteLength text)
            let args ← argumentList tail.chars tail.chars r
            args.andThen? fun args r => do
              let param ← args[0]?
              let rest ← behind? args 1
              some (.ok param, r.hand rest)
          else some (.ok r.take.1, r.take.2))
        param.andThen? fun param r => do
          let (id, scope) := r.scope.bind (String.ofList name.chars)
          let inner ← slice? text (opening + 1) n
          let body ← expression inner.chars { r with scope }
          some ((body.map (.abs id · param)).leaving Reader.leaveScope)
termination_by 3 * byteLength text + 1
decreasing_by
  · have := tail.size
    have := tail.start_le_stop
    omega
  · have := inner.size
    have := inner.start_le_stop
    have := inner.stop_le
    omega

/-- Reads a called name with its arguments. -/
def application (text : List Char) (r : Reader) : Option (Reading Term) := do
  let dot ← offset? (· == '.') text
  let name ← slice? text 0 dot
  match nameFault? name.chars with
  | some fault => some (r.fail fault text)
  | none => do
    let list ← slice? text dot (byteLength text)
    let own ← argumentList list.chars list.chars r
    some (own.andThen (Reader.call text name.chars))
termination_by 3 * byteLength text + 1
decreasing_by
  have := list.size
  omega

/-- Reads the arguments that make up the rest `text` of the argument list `whole`. -/
def argumentList (whole text : List Char) (r : Reader) : Option (Reading (List Term)) :=
  if text.isEmpty then some (.ok [], r)
  else do
    let first ← byteAt? text 0
    if first ≠ '.'.toUInt8 then some (r.fail .missingDot text)
    else
      let rest ← slice? text 1 (byteLength text)
      if rest.chars.isEmpty then some (r.fail .missingArgument whole)
      else
        match argumentEnd rest.chars with
        | .error fault => some (r.fail (.block fault) rest.chars)
        | .ok n => do
          let arg ← slice? rest.chars 0 n
          let t ← expression arg.chars r.fresh
          (t.leaving (·.holding r.pending)).andThen? fun t r => do
            let after ← slice? rest.chars n (byteLength rest.chars)
            let args ← argumentList whole after.chars r
            some (args.map (t :: ·))
termination_by 3 * byteLength text
decreasing_by
  · have := rest.size
    have := rest.start_le_stop
    have := arg.size
    have := arg.stop_le
    omega
  · have := rest.size
    have := rest.start_le_stop
    have := after.size
    omega

end

/-- Reads a program, white space left out: its term, and the name of every identity in it. -/
def parse (text : List Char) : Option (Except ReadError (Term × Names)) :=
  let text := removeBlanks text
  let r : Reader := {}
  do
    let (term, r) ← (if text.isEmpty then some (r.fail .emptyProgram []) else expression text r)
    some (term.map fun t => (t, r.scope.table))

/-! ### Offsets in order -/

/-- The first dot and the first parenthesis of a text, by what stands in front of both. -/
theorem offsets_cases (text : List Char) :
    (offset? (· == '.') text = none ∧ offset? (· == '(') text = none ∧ Form.of text = .bare) ∨
      (precedes (offset? (· == '(') text) (offset? (· == '.') text) = true ∧
        Form.of text = .binding) ∨
      ∃ n, offset? (· == '.') text = some n ∧
        precedes (offset? (· == '(') text) (some n) = false ∧ Form.of text = .call := by
  cases hfind : text.find? (fun c => c == '(' || c == '.') with
  | none =>
    have hnone := List.find?_eq_none.mp hfind
    refine .inl ⟨offset?_none fun c hc => ?_, offset?_none fun c hc => ?_, ?_⟩
    · have := hnone c hc
      simp_all
    · have := hnone c hc
      simp_all
    · rw [Form.of, hfind]
  | some c =>
    -- The first delimiter decides; neither of the two is in front of it.
    obtain ⟨hc, s, t, rfl, hs⟩ := List.find?_eq_some_iff_append.mp hfind
    have hparen : ∀ d ∈ s, (d == '(') = false := fun d hd => by
      have := hs d hd
      simp_all
    have hdot : ∀ d ∈ s, (d == '.') = false := fun d hd => by
      have := hs d hd
      simp_all
    by_cases hopen : c = '('
    · subst hopen
      refine .inr (.inl ⟨?_, by rw [Form.of, hfind]; rfl⟩)
      rw [offset?_append hparen rfl, offset?_behind hdot, offset?]
      cases offset? (· == '.') t with
      | none => rfl
      | some n =>
        have hpos := '('.utf8Size_pos
        simp [precedes]
        omega
    · obtain rfl : c = '.' := by simp_all
      refine .inr (.inr ⟨_, offset?_append hdot rfl t, ?_, by rw [Form.of, hfind]; rfl⟩)
      rw [offset?_behind hparen]
      cases offset? (· == '(') ('.' :: t) with
      | none => rfl
      | some n => simp [precedes]

/-- The form of a text is found by offsets as it is by characters. -/
theorem form_eq (text : List Char) : form text = Form.of text := by
  unfold form
  rcases offsets_cases text with ⟨hdot, hparen, h⟩ | ⟨hfirst, h⟩ | ⟨n, hdot, hfirst, h⟩
  · simp [hdot, hparen, h]
  · have hfound : (offset? (· == '(') text).isNone = false := by
      cases hparen : offset? (· == '(') text with
      | none =>
        rw [hparen] at hfirst
        cases hfirst
      | some n => rfl
    simp [hfound, hfirst, h]
  · simp [hdot, hfirst, h]

/-- The first parenthesis of a binding is behind the name of the binder. -/
theorem offset?_of_binding {text : List Char} (h : Form.of text = .binding) :
    offset? (· == '(') text = some (byteLength (Reader.binderName text)) := by
  rcases offsets_cases text with ⟨-, -, hform⟩ | ⟨hfirst, -⟩ | ⟨-, -, -, hform⟩
  · cases h.symm.trans hform
  · rw [offset?_char] at hfirst ⊢
    split
    · rfl
    · rename_i hnone
      rw [if_neg hnone] at hfirst
      cases hfirst
  · cases h.symm.trans hform

/-- The first dot of a call is behind the name that is called. -/
theorem offset?_of_call {text : List Char} (h : Form.of text = .call) :
    offset? (· == '.') text = some (byteLength (Reader.calledName text)) := by
  rcases offsets_cases text with ⟨-, -, hform⟩ | ⟨-, hform⟩ | ⟨n, hdot, -, -⟩
  · cases h.symm.trans hform
  · cases h.symm.trans hform
  · rw [offset?_char] at hdot ⊢
    split
    · rfl
    · rename_i hnone
      rw [if_neg hnone] at hdot
      cases hdot

/-- An argument ends where it is cut off. -/
theorem argumentEnd_of_cutArgument {text arg after : List Char}
    (h : Reader.cutArgument text = .ok (arg, after)) :
    text = arg ++ after ∧ argumentEnd text = .ok (byteLength arg) := by
  unfold Reader.cutArgument at h
  unfold argumentEnd
  dsimp only
  rcases offsets_cases text with ⟨hdot, hparen, hform⟩ | ⟨hfirst, hform⟩ | ⟨n, hdot, hfirst, hform⟩
  · have hnone : '.' ∉ text := fun hmem => by simp [offset?_char, hmem] at hdot
    rw [hform] at h
    cases h
    refine ⟨(List.takeWhile_append_dropWhile ..).symm, ?_⟩
    rw [hparen, hdot, takeWhile_of_not_mem hnone]
    rfl
  · rw [hform] at h
    simp only at h
    split at h
    · cases h
    · rename_i n hend
      cases h
      obtain ⟨before, after, htext, rfl, hoffset⟩ := blockOffset_of_blockEnd hend
      refine ⟨(List.take_append_drop ..).symm, ?_⟩
      have htake : text.take (before.length + 1) = before ++ [')'] := by
        rw [htext, List.take_length_add_append]
        rfl
      rw [if_pos hfirst, hoffset, htake, byteLength_append]
      rfl
  · rw [hform] at h
    cases h
    refine ⟨(List.takeWhile_append_dropWhile ..).symm, ?_⟩
    rw [offset?_char] at hdot
    split at hdot
    · rename_i hmem
      cases hdot
      rw [offset?_char '.', if_pos hmem, hfirst]
      rfl
    · cases hdot

/-- Where no argument can be cut off, none ends, for the same reason. -/
theorem argumentEnd_of_uncut {text : List Char} {fault : BlockFault}
    (h : Reader.cutArgument text = .error fault) : argumentEnd text = .error fault := by
  unfold Reader.cutArgument at h
  unfold argumentEnd
  dsimp only
  rcases offsets_cases text with ⟨-, -, hform⟩ | ⟨hfirst, hform⟩ | ⟨-, -, -, hform⟩
  · rw [hform] at h
    cases h
  · rw [hform] at h
    simp only at h
    split at h
    · rename_i hend
      cases h
      rw [if_pos hfirst, blockOffset, hend]
      rfl
    · cases h
  · rw [hform] at h
    cases h

/-! ### Readings -/

/-- Where all that follows is in range, so is the whole. -/
theorem andThen?_eq {α β : Type} {x : Reading α} {next : α → Reader → Option (Reading β)}
    {f : α → Reader → Reading β} (h : ∀ a r, x = (.ok a, r) → next a r = some (f a r)) :
    x.andThen? next = some (x.andThen f) := by
  obtain ⟨e | a, r⟩ := x
  · rfl
  · exact h a r rfl

/-- There is an argument where there is text. -/
theorem argumentList_ne_nil {whole text : List Char} {r r' : Reader} {args : List Term}
    (hne : text ≠ []) (h : Reader.argumentList whole text r = (.ok args, r')) : args ≠ [] := by
  rintro rfl
  obtain ⟨c, rest, rfl⟩ := List.exists_cons_of_ne_nil hne
  by_cases hdot : c = '.'
  · subst hdot
    by_cases hrest : rest = []
    · subst hrest
      rw [Reader.argumentList_of_missing] at h
      cases h
    · cases hcut : Reader.cutArgument rest with
      | error fault =>
        rw [Reader.argumentList_unclosed r whole hrest hcut] at h
        cases h
      | ok p =>
        obtain ⟨arg, after⟩ := p
        rw [Reader.argumentList_of_cut r whole hrest hcut] at h
        rcases hread : Reader.expression arg r.fresh with ⟨e | t, r₁⟩
        · rw [hread] at h
          cases h
        · rw [hread] at h
          change (Reader.argumentList whole after (r₁.holding r.pending)).map (t :: ·) = _ at h
          rcases hrest : Reader.argumentList whole after (r₁.holding r.pending) with ⟨e | args, r₂⟩
          · rw [hrest] at h
            cases h
          · rw [hrest] at h
            cases h
  · rw [Reader.argumentList_other r whole hne (by simpa using hdot)] at h
    cases h

mutual

/-- **Expressions.** No access is out of range. -/
theorem expression_eq (text : List Char) (r : Reader) :
    expression text r = some (Reader.expression text r) := by
  rw [expression]
  cases text with
  | nil =>
    rw [Reader.expression_nil]
    rfl
  | cons c rest =>
    have hfirst : byteAt? (c :: rest) 0 = some (leadByte c) := byteAt?_append [] c rest
    rw [hfirst, List.isEmpty_cons, if_neg Bool.false_ne_true, Option.bind_eq_bind,
      Option.bind_some]
    by_cases hopen : c = '('
    · subst hopen
      rw [if_pos ((leadByte_eq_iff (by decide)).mpr rfl)]
      cases hcut : Block.cut ('(' :: rest) with
      | error fault => rw [blockOffset_of_uncut hcut, Reader.expression_unclosed r hcut]
      | ok b =>
        have : b.inner.length < rest.length + 1 := Block.length_inner_lt hcut
        have : b.tail.length < rest.length + 1 := Block.length_tail_lt hcut
        have hhead : b.head = [] := Block.head_of_cut hcut
        obtain ⟨n, hoffset, htail, ⟨inner, hinner, hinner'⟩, tail, hslice, hslice'⟩ :=
          slices_of_cut hcut (i := 1) (by rw [hhead]; rfl)
        have hargs := argumentList_eq b.tail b.tail r
        simp only [hoffset, hslice, hinner, hinner', hslice', hargs, Option.bind_eq_bind,
          Option.bind_some, Reader.expression_opened r hcut]
        by_cases hnone : b.tail = []
        · have hlast : ¬ n + 1 < byteLength ('(' :: rest) := fun h => htail.mp h hnone
          rw [if_neg hlast, expression_eq, hnone, Reader.argumentList_nil]
          rfl
        · rw [if_pos (htail.mpr hnone)]
          exact andThen?_eq fun args r' _ => expression_eq _ _
    · have hhead : (c :: rest).head? ≠ some '(' := by simpa using hopen
      rw [if_neg (mt (leadByte_eq_iff (by decide)).mp hopen), form_eq,
        Reader.expression_named r (List.cons_ne_nil _ _) hhead]
      cases hform : Form.of (c :: rest) with
      | bare => rfl
      | binding => exact abstraction_eq hform _
      | call => exact application_eq hform _
termination_by 3 * text.length + 2

/-- No access is out of range in a name with its block. -/
theorem abstraction_eq {text : List Char} (hform : Form.of text = .binding) (r : Reader) :
    abstraction text r = some (Reader.abstraction text r) := by
  have htext : text = Reader.binderName text ++ text.dropWhile fun c => c != '(' :=
    (List.takeWhile_append_dropWhile ..).symm
  obtain ⟨name, hname, hname'⟩ := slice?_front htext rfl
  rw [abstraction]
  simp only [offset?_of_binding hform, hname, hname', Option.bind_eq_bind, Option.bind_some]
  cases hfault : nameFault? (Reader.binderName text) with
  | some fault => rw [Reader.abstraction_of_fault r hfault]
  | none =>
    cases hbound : r.scope.binds (String.ofList (Reader.binderName text)) with
    | true => simp only [Reader.abstraction_rebound r hfault hbound, if_true]
    | false =>
      simp only [Bool.false_eq_true, if_false]
      cases hcut : Block.cut text with
      | error fault =>
        rw [blockOffset_of_uncut hcut, Reader.abstraction_unclosed r hfault hbound hcut]
      | ok b =>
        have := Block.length_inner_lt hcut
        have := Block.length_tail_lt hcut
        have hhead : byteLength b.head + 1 = byteLength (Reader.binderName text) + 1 := by
          rw [Block.head_of_cut hcut, Reader.binderName]
        obtain ⟨n, hoffset, htail, ⟨inner, hinner, hinner'⟩, tail, hslice, hslice'⟩ :=
          slices_of_cut hcut hhead
        have hargs := argumentList_eq b.tail b.tail r
        have hbody : ∀ r, expression b.inner r = some (Reader.expression b.inner r) :=
          fun r => expression_eq b.inner r
        simp only [hoffset, hslice, hinner, hinner', hslice', hargs, hbody, Option.bind_some,
          Reader.abstraction_of_cut r hfault hbound hcut]
        -- Only what is behind the block is read as arguments, if anything is.
        by_cases hnone : b.tail = []
        · have hlast : ¬ n + 1 < byteLength text := fun h => htail.mp h hnone
          rw [if_neg hlast, hnone, Reader.argumentList_nil]
          rcases r with ⟨scope, _ | ⟨arg, pending⟩, journal⟩ <;> rfl
        · rw [if_pos (htail.mpr hnone)]
          rcases hread : Reader.argumentList b.tail b.tail r with ⟨e | args, r₁⟩
          · rfl
          · obtain ⟨param, rest, rfl⟩ :=
              List.exists_cons_of_ne_nil (argumentList_ne_nil hnone hread)
            rfl
termination_by 3 * text.length + 1

/-- No access is out of range in a called name. -/
theorem application_eq {text : List Char} (hform : Form.of text = .call) (r : Reader) :
    application text r = some (Reader.application text r) := by
  have htext : text = Reader.calledName text ++ text.dropWhile fun c => c != '.' :=
    (List.takeWhile_append_dropWhile ..).symm
  have := (List.dropWhile_sublist (l := text) fun c => c != '.').length_le
  obtain ⟨name, hname, hname'⟩ := slice?_front htext rfl
  obtain ⟨list, hlist, hlist'⟩ := slice?_back htext rfl
  rw [application]
  simp only [offset?_of_call hform, hname, hname', Option.bind_eq_bind, Option.bind_some]
  cases hfault : nameFault? (Reader.calledName text) with
  | some fault => rw [Reader.application_of_fault r hfault]
  | none =>
    have hargs := argumentList_eq (text.dropWhile fun c => c != '.')
      (text.dropWhile fun c => c != '.') r
    simp only [hlist, hlist', hargs, Option.bind_some, Reader.application_of_name r hfault]
termination_by 3 * text.length + 1

/-- No access is out of range in arguments. -/
theorem argumentList_eq (whole text : List Char) (r : Reader) :
    argumentList whole text r = some (Reader.argumentList whole text r) := by
  rw [argumentList]
  cases text with
  | nil =>
    rw [Reader.argumentList_nil]
    rfl
  | cons c rest =>
    have hfirst : byteAt? (c :: rest) 0 = some (leadByte c) := byteAt?_append [] c rest
    rw [hfirst, List.isEmpty_cons, if_neg Bool.false_ne_true, Option.bind_eq_bind,
      Option.bind_some]
    by_cases hdot : c = '.'
    · subst hdot
      rw [if_neg (not_not_intro ((leadByte_eq_iff (by decide)).mpr rfl))]
      have hcons : '.' :: rest = ['.'] ++ rest := rfl
      -- The dot is one byte, so that the slice behind it is the rest.
      obtain ⟨behind, hbehind, hbehind'⟩ := slice?_back hcons (n := 1) rfl
      rw [hbehind, Option.bind_eq_bind, Option.bind_some, hbehind']
      by_cases hne : rest = []
      · subst hne
        rw [Reader.argumentList_of_missing]
        rfl
      · rw [if_neg (by simpa using hne)]
        cases hcut : Reader.cutArgument rest with
        | error fault =>
          rw [argumentEnd_of_uncut hcut, Reader.argumentList_unclosed r whole hne hcut]
        | ok p =>
          obtain ⟨arg, after⟩ := p
          have := Reader.cutArgument_length hcut
          -- The end of the argument is an offset between characters, and cuts the text in two.
          obtain ⟨htext, hend⟩ := argumentEnd_of_cutArgument hcut
          obtain ⟨front, hfront, hfront'⟩ := slice?_front htext rfl
          obtain ⟨back, hback, hback'⟩ := slice?_back htext rfl
          have harg := expression_eq arg r.fresh
          simp only [hend, hfront, hfront', hback, hback', harg, Option.bind_eq_bind,
            Option.bind_some, Reader.argumentList_of_cut r whole hne hcut]
          refine andThen?_eq fun t r' _ => ?_
          rw [argumentList_eq, Option.bind_some]
    · have hhead : (c :: rest).head? ≠ some '.' := by simpa using hdot
      rw [if_pos (mt (leadByte_eq_iff (by decide)).mp hdot),
        Reader.argumentList_other r whole (List.cons_ne_nil _ _) hhead]
termination_by 3 * text.length

end

/-- **Programs.** No access is out of range. -/
theorem parse_eq (text : List Char) : parse text = some (DotLambda.parse text) := by
  unfold parse DotLambda.parse parseWith Reader.program
  by_cases hempty : (removeBlanks text).isEmpty = true
  · simp only [hempty, if_true]
    rfl
  · simp only [hempty, expression_eq]
    rfl

end Offsets

end DotLambda
