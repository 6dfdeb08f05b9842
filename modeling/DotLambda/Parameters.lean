import DotLambda.Fault
import DotLambda.Text.Pieces

namespace DotLambda

/-!
# Lists of parameters

`a,b,c(body)` abbreviates `a(b(c(body)))`.

* `ParameterList.find?` — the first list in a text;
* `spellOutParameters` — the text with all lists written out.

Each expansion takes the commas of one list out of the text and puts none in, so that it comes
to an end.
-/

/-- The characters that end a name. -/
def isDelimiter (c : Char) : Bool :=
  c == '(' || c == ')' || c == '.'

/-- The first list of parameters in a text, with what stands around it. -/
structure ParameterList where
  /-- What stands before the list. -/
  lead : List Char
  /-- The list with its commas. -/
  list : List Char
  /-- What stands after the list. -/
  beyond : List Char

namespace ParameterList

/-- Finds the first list: it lies around the first comma, between delimiters. -/
def find? (text : List Char) : Option ParameterList :=
  match text.dropWhile fun c => c != ',' with
  | [] => none
  | comma :: rest =>
    let before := (text.takeWhile fun c => c != ',').reverse
    some {
      lead := (before.dropWhile fun c => !isDelimiter c).reverse
      list := (before.takeWhile fun c => !isDelimiter c).reverse ++
        comma :: rest.takeWhile fun c => !isDelimiter c
      beyond := rest.dropWhile fun c => !isDelimiter c }

/-- The parts make up the text, and there is a comma in the list. -/
theorem text_eq_of_find? {text : List Char} {p : ParameterList} (h : find? text = some p) :
    text = p.lead ++ (p.list ++ p.beyond) ∧ ',' ∈ p.list := by
  unfold find? at h
  split at h
  · cases h
  · rename_i comma rest hrest
    cases h
    have hcomma : comma = ',' := by
      have := List.head?_dropWhile_not (fun c => c != ',') text
      simpa [hrest] using this
    subst hcomma
    refine ⟨?_, by simp⟩
    have htext := List.takeWhile_append_dropWhile (p := fun c => c != ',') (l := text)
    rw [hrest] at htext
    have hbefore := congrArg List.reverse (List.takeWhile_append_dropWhile
      (p := fun c => !isDelimiter c) (l := (text.takeWhile fun c => c != ',').reverse))
    have hafter := List.takeWhile_append_dropWhile (p := fun c => !isDelimiter c) (l := rest)
    simp only [List.reverse_append, List.reverse_reverse] at hbefore
    calc text = (text.takeWhile fun c => c != ',') ++ ',' :: rest := htext.symm
      _ = _ := by
        rw [← hbefore]
        simp [hafter]

/-- The list with a parenthesis opened behind every name. -/
def opened (list : List Char) : List Char :=
  (list.map fun c => if c = ',' then '(' else c) ++ ['(']

/-- One closing parenthesis for every name in the list. -/
def closed (list : List Char) : List Char :=
  List.replicate (list.count ',' + 1) ')'

/-- No comma is left when the names of a list are opened. -/
theorem count_opened (list : List Char) : (opened list).count ',' = 0 := by
  rw [List.count_eq_zero]
  simp only [opened, List.mem_append, List.mem_map, List.mem_singleton, not_or, not_exists, not_and]
  refine ⟨fun c _ h => ?_, by decide⟩
  split at h
  · exact absurd h (by decide)
  · contradiction

/-- There is none in what closes them. -/
theorem count_closed (list : List Char) : (closed list).count ',' = 0 := by
  rw [List.count_eq_zero]
  intro h
  exact absurd (List.eq_of_mem_replicate h) (by decide)

end ParameterList

open ParameterList in
/-- Writes out every list of parameters, the first one first. -/
def spellOutParameters (text : List Char) : Except SyntaxError (List Char) :=
  match _h : find? text with
  | none => .ok text
  | some p =>
    if p.beyond.head? = some '(' then
      if (pieces ',' p.list).any List.isEmpty then .error (.on .emptyParameter p.list)
      else
        match _hb : Block.cut p.beyond with
        | .error fault => .error (.on (.block fault) p.beyond)
        | .ok block =>
          -- `a,b(…)` has become `a(b(…))`; lists inside the block come later.
          spellOutParameters
            (p.lead ++ (opened p.list ++ (block.inner ++ (closed p.list ++ block.tail))))
    else .error (.on .unusedParameters (p.list ++ p.beyond))
termination_by text.count ','
decreasing_by
  obtain ⟨htext, hcomma⟩ := text_eq_of_find? _h
  have hbeyond := congrArg (List.count ',') (Block.text_eq_of_cut _hb)
  have htext := congrArg (List.count ',') htext
  have hcomma := List.count_pos_iff.2 hcomma
  simp at hbeyond
  simp only [List.count_append, count_opened, count_closed] at htext ⊢
  omega

end DotLambda
