import DotLambda.Command.Fixtures
import DotLambda.Proofs.Desugaring.Sources

namespace DotLambda

/-!
# Commands — fixtures and the programs they came from

A case is judged by its program as it is given, and written with the white space around the program
trimmed and a line end behind it.  White space around a program has no part in it, but the line end
can make a keyword of its last word: `let` is a name at the end of a text and begins a definition in
front of white space.

* `trim_append` — trimming takes off all white space at the end;
* `split_of_peel` — white space at the end is behind the definitions;
* `startsDefinition_newline` — when a line end makes a definition begin;
* `load_trim_newline` — what the trimmed program is read as;
* `fixture_of_program` — what is written for a case.
-/

/-! ### Trimmed texts -/

section

variable {front text trail : List Char}

/-- A trimmed text does not begin with a blank. -/
theorem head_trimStart (text : List Char) : ∀ c ∈ (trimStart text).head?, isBlank c = false := by
  intro c hc
  have hstop := List.head?_dropWhile_not isBlank text
  rw [← trimStart, Option.mem_def.mp hc] at hstop
  exact hstop

/-- What follows a text that is not white space alone has no part in its start. -/
theorem trimStart_append_of_ne (h : trimStart text ≠ []) (more : List Char) :
    trimStart (text ++ more) = trimStart text ++ more := by
  have hempty : ¬ (text.dropWhile isBlank).isEmpty = true := mt List.isEmpty_iff.mp h
  rw [trimStart, List.dropWhile_append, if_neg hempty]
  rfl

/-- A text ends in white space, behind something that does not. -/
theorem exists_trail (text : List Char) :
    ∃ front trail, text = front ++ trail ∧ (∀ c ∈ trail, isBlank c = true) ∧
      ∀ c ∈ front.getLast?, isBlank c = false := by
  refine ⟨(trimStart text.reverse).reverse, (text.reverse.takeWhile isBlank).reverse, ?_,
    fun c hc => List.mem_takeWhile_imp (List.mem_reverse.mp hc), ?_⟩
  · have hback := List.takeWhile_append_dropWhile (p := isBlank) (l := text.reverse)
    rw [trimStart, ← List.reverse_append, hback, List.reverse_reverse]
  · rw [List.getLast?_reverse]
    exact head_trimStart _

/-- What a text ends in does not depend on where one begins to read it. -/
theorem last_of_append (h : ∀ c ∈ (front ++ text).getLast?, isBlank c = false) :
    ∀ c ∈ text.getLast?, isBlank c = false := by
  intro c hc
  refine h c ?_
  rw [List.getLast?_append, Option.mem_def.mp hc]
  rfl

/-- Behind a text that does not end in white space, white space is trimmed off. -/
theorem trim_append (htrail : ∀ c ∈ trail, isBlank c = true)
    (hlast : ∀ c ∈ text.getLast?, isBlank c = false) : trim (text ++ trail) = trimStart text := by
  by_cases hnil : trimStart text = []
  · -- All that is left is white space.
    have hall : trimStart (text ++ trail) = [] := by
      rw [trimStart_append (List.dropWhile_eq_nil_iff.mp hnil)]
      exact List.dropWhile_eq_nil_iff.mpr htrail
    rw [trim, hall, hnil]
    rfl
  · have hend : ∀ c ∈ (trimStart text).reverse.head?, isBlank c = false := by
      intro c hc
      rw [List.head?_reverse] at hc
      have hsplit : text = text.takeWhile isBlank ++ trimStart text :=
        (List.takeWhile_append_dropWhile ..).symm
      rw [hsplit] at hlast
      exact last_of_append hlast c hc
    have hback :
        trimStart (trail.reverse ++ (trimStart text).reverse) = (trimStart text).reverse := by
      rw [trimStart_append fun c hc => htrail c (List.mem_reverse.mp hc)]
      cases hrev : (trimStart text).reverse with
      | nil => rfl
      | cons c rest =>
        rw [hrev] at hend
        exact List.dropWhile_cons_of_neg (by simp [hend c rfl])
    rw [trim, trimStart_append_of_ne hnil, List.reverse_append, hback, List.reverse_reverse]

end

/-! ### Where the definitions of a program end -/

section

variable {text trail rest : List Char} {ds : List Definition}

/-- White space at the end of a program is behind its definitions, if these are complete. -/
theorem split_of_peel (htrail : ∀ c ∈ trail, isBlank c = true)
    (h : peelDefinitions (text ++ trail) = .ok (ds, rest)) :
    ∃ front expression, text = front ++ expression ∧ rest = expression ++ trail ∧
      Defines front ds ∧ startsDefinition (trimStart rest) = false := by
  have hnone : ';' ∉ trail := fun hmem => absurd (htrail _ hmem) (by simp [isBlank])
  generalize hwhole : text ++ trail = whole at h
  fun_induction peelDefinitions whole generalizing text ds rest with
  | case1 => cases h
  | case2 => cases h
  | case3 whole start hstart c after hcut inside _ name first more hwords ds' behind =>
    rename_i hafter body ih
    cases h
    rw [text_of_semicolon hcut, ← List.append_assoc] at hwhole
    -- The semicolon is in the text, as there is none in the white space.
    rcases List.append_eq_append_iff.mp hwhole with ⟨m, -, hm⟩ | ⟨m, htext, hm⟩
    · exact absurd (hm ▸ List.mem_append_right m List.mem_cons_self) hnone
    · cases m with
      | nil => exact absurd ((show ';' :: after = trail from hm) ▸ List.mem_cons_self) hnone
      | cons d m =>
        rw [List.cons_append, List.cons.injEq] at hm
        obtain ⟨rfl, hm⟩ := hm
        obtain ⟨front, expression, rfl, hrest, hdefines, hnot⟩ := ih hm.symm hafter
        have hlead : ∀ c ∈ whole.takeWhile isBlank, isBlank c = true :=
          fun c hc => List.mem_takeWhile_imp hc
        have hinside : ';' ∉ inside := fun hmem => absurd (List.mem_takeWhile_imp hmem) (by decide)
        refine ⟨whole.takeWhile isBlank ++ (inside ++ ';' :: front), expression, ?_, hrest,
          .definition hlead (startsDefinition_takeWhile hstart) hinside hwords hdefines, hnot⟩
        rw [htext]
        simp [inside, start]
  | case4 => cases h
  | case5 whole start =>
    rename_i hstart
    cases h
    refine ⟨[], text, rfl, hwhole.symm, .blank (List.forall_mem_nil _), ?_⟩
    exact Bool.eq_false_iff.mpr hstart

/-- A line end makes a definition begin where none began only behind a keyword that stands alone. -/
theorem startsDefinition_newline (h : startsDefinition (trimStart (text ++ trail)) = false) :
    startsDefinition (trimStart (text ++ ['\n'])) = true ↔ trimStart text = "let".toList := by
  by_cases hnil : trimStart text = []
  · have hblank : trimStart (text ++ ['\n']) = [] := by
      rw [trimStart_append (List.dropWhile_eq_nil_iff.mp hnil)]
      exact List.dropWhile_eq_nil_iff.mpr (by simp [isBlank])
    simp [hblank, hnil, startsDefinition]
  · rw [trimStart_append_of_ne hnil] at h ⊢
    constructor
    · intro hstart
      obtain ⟨c, rest, heq, hc⟩ := startsDefinition_cases hstart
      generalize trimStart text = start at h heq
      rcases start with _ | ⟨x, _ | ⟨y, _ | ⟨z, _ | ⟨w, more⟩⟩⟩⟩
      · cases heq
      · cases heq
      · cases heq
      · cases heq
        rfl
      · -- Four characters are enough to tell without the line end.
        cases heq
        have hfour : startsDefinition ('l' :: 'e' :: 't' :: c :: more ++ trail) = isAsciiBlank c :=
          rfl
        rw [hfour, hc] at h
        cases h
    · intro hkeyword
      rw [hkeyword]
      rfl

/-- The keyword alone on a line begins a definition that does not end. -/
theorem peeled_keyword (h : trimStart text = "let".toList) :
    peeled (text ++ ['\n']) = .error (.on .openDefinition "let".toList) := by
  have htrim : trimStart (text ++ ['\n']) = "let\n".toList := by
    rw [trimStart_append_of_ne (by simp [h]), h]
    rfl
  rw [peeled, peel_starting htrim rfl]
  rfl

end

/-! ### Programs that are written with their ends trimmed -/

section

variable {source rest : List Char} {ds : List Definition}

/-- Blanks in front make no difference to the definitions that are peeled off. -/
theorem peeled_trimStart_append (text more : List Char) :
    peeled (trimStart text ++ more) = peeled (text ++ more) := by
  have hlead : ∀ c ∈ text.takeWhile isBlank, isBlank c = true :=
    fun c hc => List.mem_takeWhile_imp hc
  rw [← peeled_blank_append hlead, ← List.append_assoc]
  exact congrArg (fun text => peeled (text ++ more)) (List.takeWhile_append_dropWhile ..)

/-- White space behind an expression is not part of it. -/
theorem peeled_expression_append {text trail : List Char} (htrail : ∀ c ∈ trail, isBlank c = true)
    (h : startsDefinition (trimStart (text ++ trail)) = false) :
    peeled (text ++ trail) = .ok ([], removeBlanks text) := by
  rw [peeled, peel_expression h, Except.map, removeBlanks_append, removeBlanks_of_blank htrail,
    List.append_nil]

/-- A source whose definitions cannot be peeled off is not desugared. -/
theorem desugar_eq_error_of_peeled {e : SyntaxError} (h : peeled source = .error e) :
    desugar source = .error e := by
  unfold peeled at h
  cases hpeel : peelDefinitions source with
  | error e' =>
    rw [hpeel] at h
    cases h
    rw [desugar, hpeel]
  | ok p =>
    rw [hpeel] at h
    cases h

/-- **Trimming.** A program without the white space around it and with a line end behind it is the
    program it was, unless its expression is the keyword alone: the line end then makes it the
    beginning of one more definition. -/
theorem load_trim_newline (hpeel : peelDefinitions source = .ok (ds, rest)) :
    load (trim source ++ ['\n']) = if trim rest = "let".toList
      then .error (.desugaring (.on .openDefinition "let".toList)) else load source := by
  obtain ⟨front, trail, rfl, htrail, hlast⟩ := exists_trail source
  obtain ⟨definitions, expression, rfl, rfl, hdefines, hnot⟩ := split_of_peel htrail hpeel
  have hwritten : peeled (trim (definitions ++ expression ++ trail) ++ ['\n'])
      = (peeled (expression ++ ['\n'])).map fun p => (ds ++ p.1, p.2) := by
    rw [trim_append htrail hlast, peeled_trimStart_append, List.append_assoc,
      hdefines.peeled_append]
  rw [trim_append htrail (last_of_append hlast)]
  split
  · rename_i hkeyword
    rw [peeled_keyword hkeyword] at hwritten
    rw [load, loadWith, desugar_eq_error_of_peeled hwritten]
  · rename_i hkeyword
    have hnewline : startsDefinition (trimStart (expression ++ ['\n'])) = false :=
      Bool.eq_false_iff.mpr (mt (startsDefinition_newline hnot).mp hkeyword)
    have hsame : peeled (trim (definitions ++ expression ++ trail) ++ ['\n'])
        = peeled (definitions ++ expression ++ trail) := by
      rw [hwritten, List.append_assoc, hdefines.peeled_append,
        peeled_expression_append (by simp [isBlank]) hnewline,
        peeled_expression_append htrail hnot]
    rw [load, loadWith, load, loadWith, desugar_congr hsame]

end

/-! ### Fixtures -/

/-- **Fixtures.** The program that is written for a case is the case's program, with its term and
    its names, unless the expression of the case is the keyword `let` alone.  In that case a program
    is written that is none. -/
theorem fixture_of_program (c : TestCase) {t : Term} {names : Names}
    (h : load c.input.toList = .ok (t, names)) :
    ∃ content ds rest, c.fixtures.lookup "input.blis" = some content ∧
      content.toList = trim c.input.toList ++ ['\n'] ∧
      peelDefinitions c.input.toList = .ok (ds, rest) ∧
      load content.toList = if trim rest = "let".toList
        then .error (.desugaring (.on .openDefinition "let".toList)) else .ok (t, names) := by
  cases hpeel : peelDefinitions c.input.toList with
  | error e =>
    rw [load, loadWith, desugar, hpeel] at h
    cases h
  | ok p =>
    obtain ⟨ds, rest⟩ := p
    have hcontent : (trimmed c.input ++ "\n").toList = trim c.input.toList ++ ['\n'] := by
      simp [trimmed]
    refine ⟨trimmed c.input ++ "\n", ds, rest, rfl, hcontent, rfl, ?_⟩
    rw [hcontent, load_trim_newline hpeel, h]

/-- A definition and an expression with white space of several scripts around them. -/
theorem fixture_of_program_spaced :
    let c : TestCase := ⟨"spaced", "\n\u3000let t z(z) ;\u00a0t.w \u2003\r\n", "w"⟩
    let t : Term := .abs 1 (.app 1 [.var 2]) (.abs 0 (.var 0) .absent)
    load c.input.toList = .ok (t, #["z", "t", "w"]) ∧
      ∃ content ds rest, c.fixtures.lookup "input.blis" = some content ∧
        content.toList = trim c.input.toList ++ ['\n'] ∧
        peelDefinitions c.input.toList = .ok (ds, rest) ∧
        load content.toList = if trim rest = "let".toList
          then .error (.desugaring (.on .openDefinition "let".toList))
          else .ok (t, #["z", "t", "w"]) := by
  intro c t
  have hload : load c.input.toList = .ok (t, #["z", "t", "w"]) := by cbv
  exact ⟨hload, fixture_of_program c hload⟩

/-- A case is accepted for its program `let`, which is a name as long as nothing follows it, and
    what is written for it is not a program. -/
theorem fixture_of_keyword :
    let c : TestCase := ⟨"keyword", "let", "let"⟩
    c.refusal? = none ∧ load c.input.toList = .ok (.var 0, #["let"]) ∧
      c.fixtures.lookup "input.blis" = some "let\n" ∧
      load "let\n".toList = .error (.desugaring (.on .openDefinition "let".toList)) := by
  intro c
  have hcontent : trimmed c.input ++ "\n" = "let\n" := by cbv
  exact ⟨by cbv, by cbv, congrArg some hcontent, by cbv⟩

end DotLambda
