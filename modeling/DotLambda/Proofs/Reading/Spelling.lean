import DotLambda.Proofs.Desugaring.Parameters
import DotLambda.Proofs.Reading.Printed

namespace DotLambda

/-!
# Reading — texts with other names

A text is taken apart at its parentheses and its dots; what stands between them is a name, or should
be one.  If every name is replaced by another one, all offsets change, but the text falls into the
same parts.

* `respell`, `respellText` — names and texts with their names replaced;
* `respellText_append` — a text is respelled piece by piece;
* `form_respellText`, `nameFault?_respellText` — a text keeps its form and its faults;
* `Block.cut_respellText`, `cutArgument_respellText` — it is cut at the same delimiters.
-/

/-- The legal names without white space. -/
abbrev PlainName := { name : String // IsPlainName name }

instance (name : String) : Decidable (IsPlainName name) :=
  inferInstanceAs (Decidable (_ ∧ _))

section

variable (ρ : PlainName → PlainName)

/-- The image of a name; what is no legal name is left as it is. -/
def respell (name : String) : String :=
  if h : IsPlainName name then (ρ ⟨name, h⟩).1 else name

/-- Goes through the rest of a text, where `run` has been passed since the last delimiter. -/
def respellFrom (run : List Char) : List Char → List Char
  | [] => (respell ρ (String.ofList run)).toList
  | c :: rest =>
    if isDelimiter c then (respell ρ (String.ofList run)).toList ++ c :: respellFrom [] rest
    else respellFrom (run ++ [c]) rest

/-- A text in which every run of characters between delimiters is replaced by its image. -/
def respellText (text : List Char) : List Char :=
  respellFrom ρ [] text

end

variable {ρ : PlainName → PlainName} {name : String} {text : List Char}

/-! ### Names -/

/-- A plain name is respelled as `ρ` says. -/
theorem respell_of_plain (h : IsPlainName name) : respell ρ name = (ρ ⟨name, h⟩).1 :=
  dif_pos h

/-- What is not a plain name is left as it is. -/
theorem respell_of_not_plain (h : ¬ IsPlainName name) : respell ρ name = name :=
  dif_neg h

/-- So is the empty text. -/
theorem respell_empty : respell ρ "" = "" :=
  respell_of_not_plain fun h => h.1 rfl

/-- Respelling neither makes plain names nor loses them. -/
theorem isPlainName_respell : IsPlainName (respell ρ name) ↔ IsPlainName name := by
  by_cases h : IsPlainName name
  · rw [respell_of_plain h]
    exact iff_of_true (ρ ⟨name, h⟩).2 h
  · rw [respell_of_not_plain h]

/-- A map of legal names without collisions has none on all names. -/
theorem respell_injective (hρ : Function.Injective ρ) : Function.Injective (respell ρ) := by
  intro a b hab
  have hsame : IsPlainName a ↔ IsPlainName b := by
    rw [← isPlainName_respell (ρ := ρ), hab, isPlainName_respell]
  by_cases ha : IsPlainName a
  · rw [respell_of_plain ha, respell_of_plain (hsame.mp ha)] at hab
    exact congrArg Subtype.val (hρ (Subtype.ext hab))
  · rwa [respell_of_not_plain ha, respell_of_not_plain (mt hsame.mpr ha)] at hab

/-- An image has a character that no name may hold only where the name has it. -/
theorem mem_respell {c : Char} (hc : c ∈ ['(', ')', '.', ',', ';']) :
    c ∈ (respell ρ name).toList ↔ c ∈ name.toList := by
  by_cases h : IsPlainName name
  · rw [respell_of_plain h]
    exact iff_of_false (fun hmem => ((ρ ⟨name, h⟩).2.2 c hmem).2 hc) fun hmem => (h.2 c hmem).2 hc
  · rw [respell_of_not_plain h]

/-- No name is respelled as nothing. -/
theorem respell_eq_nil : (respell ρ name).toList = [] ↔ name.toList = [] := by
  by_cases h : IsPlainName name
  · rw [respell_of_plain h]
    exact iff_of_false (ρ ⟨name, h⟩).2.1 h.1
  · rw [respell_of_not_plain h]

/-! ### Texts by their runs -/

/-- Texts by the delimiters in them: what holds of a text without any, and of a text with one as
    soon as it holds of what stands behind the first one, holds of every text. -/
@[elab_as_elim]
theorem runs_induct {P : List Char → Prop} (run : ∀ run, (∀ c ∈ run, isDelimiter c = false) → P run)
    (delimiter : ∀ run c rest, (∀ c ∈ run, isDelimiter c = false) → isDelimiter c = true → P rest →
      P (run ++ c :: rest)) (text : List Char) : P text := by
  have hrun : ∀ c ∈ text.takeWhile (fun c => !isDelimiter c), isDelimiter c = false :=
    fun c hc => by simpa using List.mem_takeWhile_imp hc
  rcases hdrop : text.dropWhile fun c => !isDelimiter c with - | ⟨c, rest⟩
  · have htext := List.takeWhile_append_dropWhile (p := fun c => !isDelimiter c) (l := text)
    rw [hdrop, List.append_nil] at htext
    exact htext ▸ run _ hrun
  · have htext := List.takeWhile_append_dropWhile (p := fun c => !isDelimiter c) (l := text)
    have hc := List.head?_dropWhile_not (fun c => !isDelimiter c) text
    rw [hdrop] at htext hc
    have hlength : rest.length < text.length := by
      rw [← htext, List.length_append, List.length_cons]
      omega
    rw [← htext]
    exact delimiter _ c rest hrun (by simpa using hc) (runs_induct run delimiter rest)
termination_by text.length

section

variable {run front rest : List Char} {c : Char}

/-- A run of characters that are no delimiters is collected. -/
theorem respellFrom_append (h : ∀ c ∈ run, isDelimiter c = false) (passed rest : List Char) :
    respellFrom ρ passed (run ++ rest) = respellFrom ρ (passed ++ run) rest := by
  induction run generalizing passed with
  | nil => rw [List.append_nil, List.nil_append]
  | cons c run ih =>
    rw [List.forall_mem_cons] at h
    rw [List.cons_append, respellFrom, h.1, if_neg Bool.false_ne_true, ih h.2, List.append_assoc,
      List.singleton_append]

/-- A run is respelled as a name. -/
theorem respellText_run (h : ∀ c ∈ run, isDelimiter c = false) :
    respellText ρ run = (respell ρ (String.ofList run)).toList := by
  have hpassed := respellFrom_append (ρ := ρ) h [] []
  rwa [List.append_nil, List.nil_append, respellFrom] at hpassed

/-- A run is respelled where a delimiter ends it, and the rest follows. -/
theorem respellText_run_append (h : ∀ c ∈ run, isDelimiter c = false) (hc : isDelimiter c = true)
    (rest : List Char) : respellText ρ (run ++ c :: rest)
      = (respell ρ (String.ofList run)).toList ++ c :: respellText ρ rest := by
  rw [respellText, respellFrom_append h, List.nil_append, respellFrom, if_pos hc, respellText]

/-- **Pieces.** Delimiters stay where they are, and what stands between them is respelled on its
    own. -/
theorem respellText_append (hc : isDelimiter c = true) (front rest : List Char) :
    respellText ρ (front ++ c :: rest) = respellText ρ front ++ c :: respellText ρ rest := by
  induction front using runs_induct with
  | run run hrun => rw [respellText_run_append hrun hc, respellText_run hrun]
  | delimiter run d front hrun hd ih =>
    rw [List.append_assoc, List.cons_append, respellText_run_append hrun hd, ih,
      respellText_run_append hrun hd, List.append_assoc, List.cons_append]

end

/-! ### Characters -/

/-- The delimiters are five characters. -/
theorem mem_of_isDelimiter {c : Char} (h : isDelimiter c = true) :
    c ∈ ['(', ')', '.', ',', ';'] := by
  simp only [isDelimiter, Bool.or_eq_true, beq_iff_eq] at h
  rcases h with (rfl | rfl) | rfl <;> decide

/-- The characters that no name may hold stay, and no others come. -/
theorem mem_respellText {c : Char} (hc : c ∈ ['(', ')', '.', ',', ';']) :
    c ∈ respellText ρ text ↔ c ∈ text := by
  induction text using runs_induct with
  | run run hrun => rw [respellText_run hrun, mem_respell hc, String.toList_ofList]
  | delimiter run d rest hrun hd ih =>
    rw [respellText_run_append hrun hd, List.mem_append, List.mem_append, List.mem_cons,
      List.mem_cons, mem_respell hc, String.toList_ofList, ih]

/-- Only the empty text is respelled as nothing. -/
theorem respellText_eq_nil : respellText ρ text = [] ↔ text = [] := by
  induction text using runs_induct with
  | run run hrun => rw [respellText_run hrun, respell_eq_nil, String.toList_ofList]
  | delimiter run d rest hrun hd _ =>
    rw [respellText_run_append hrun hd]
    simp

/-- A delimiter in front stays. -/
theorem respellText_cons {c : Char} (hc : isDelimiter c = true) (rest : List Char) :
    respellText ρ (c :: rest) = c :: respellText ρ rest := by
  have h := respellText_append (ρ := ρ) hc [] rest
  rwa [respellText_eq_nil.mpr rfl] at h

/-- White space does not come in. -/
theorem not_blank_respellText (h : ∀ c ∈ text, isBlank c = false) :
    ∀ c ∈ respellText ρ text, isBlank c = false := by
  have hname (run : List Char) (hrun : ∀ c ∈ run, isBlank c = false) :
      ∀ c ∈ (respell ρ (String.ofList run)).toList, isBlank c = false := by
    by_cases hplain : IsPlainName (String.ofList run)
    · exact fun c hc => ((isPlainName_respell.mpr hplain).2 c hc).1
    · rw [respell_of_not_plain hplain, String.toList_ofList]
      exact hrun
  induction text using runs_induct with
  | run run hrun =>
    rw [respellText_run hrun]
    exact hname run h
  | delimiter run d rest hrun hd ih =>
    rw [List.forall_mem_append, List.forall_mem_cons] at h
    rw [respellText_run_append hrun hd, List.forall_mem_append, List.forall_mem_cons]
    exact ⟨hname run h.1, h.2.1, ih h.2.2⟩

/-! ### Forms and faults -/

/-- Nothing in a run decides about the form. -/
theorem find?_of_run {run : List Char} (hopen : '(' ∉ run) (hdot : '.' ∉ run) :
    run.find? (fun c => c == '(' || c == '.') = none := by
  rw [List.find?_eq_none]
  intro c hc heq
  rw [Bool.or_eq_true, beq_iff_eq, beq_iff_eq] at heq
  rcases heq with rfl | rfl
  · exact hopen hc
  · exact hdot hc

/-- Respelling keeps the form of a text. -/
theorem form_respellText (text : List Char) : Form.of (respellText ρ text) = Form.of text := by
  have hrun (run : List Char) (h : ∀ c ∈ run, isDelimiter c = false) :
      run.find? (fun c => c == '(' || c == '.') = none ∧
        (respellText ρ run).find? (fun c => c == '(' || c == '.') = none := by
    have hopen : '(' ∉ run := fun hc => absurd (h _ hc) (by decide)
    have hdot : '.' ∉ run := fun hc => absurd (h _ hc) (by decide)
    exact ⟨find?_of_run hopen hdot, find?_of_run (mt (mem_respellText (by decide)).mp hopen)
      (mt (mem_respellText (by decide)).mp hdot)⟩
  have hfind : (respellText ρ text).find? (fun c => c == '(' || c == '.')
      = text.find? fun c => c == '(' || c == '.' := by
    induction text using runs_induct with
    | run run h => rw [(hrun run h).1, (hrun run h).2]
    | delimiter run d rest h hd ih =>
      rw [respellText_append hd, List.find?_append, List.find?_append, (hrun run h).1,
        (hrun run h).2, List.find?_cons, List.find?_cons, ih]
  rw [Form.of, Form.of, hfind]

section

variable (ρ)

/-- A text of an error, with other names. -/
def respellString (text : String) : String :=
  String.ofList (respellText ρ text.toList)

/-- A fault, with other names.  What is suggested depends on how names are spelled, and is left
    out. -/
def Fault.respell : Fault → Fault
  | invalidName name => invalidName (respellString ρ name)
  | unknownFunction name _ => unknownFunction (respellString ρ name) none
  | fault => fault

end

/-- The reserved characters are four. -/
theorem isReserved_iff {c : Char} : isReserved c = true ↔ c ∈ ['(', ')', ',', ';'] := by
  simp [isReserved, or_assoc]

/-- What is wrong with a name is respelled with it. -/
theorem nameFault?_respellText (text : List Char) :
    nameFault? (respellText ρ text) = (nameFault? text).map (Fault.respell ρ) := by
  have hempty : (respellText ρ text).isEmpty = text.isEmpty := by
    rw [Bool.eq_iff_iff, List.isEmpty_iff, List.isEmpty_iff, respellText_eq_nil]
  have hany : (respellText ρ text).any isReserved = text.any isReserved := by
    rw [Bool.eq_iff_iff, List.any_eq_true, List.any_eq_true]
    refine exists_congr fun c => and_congr_left fun hc => mem_respellText ?_
    rw [isReserved_iff] at hc
    revert hc
    simp only [List.mem_cons, List.not_mem_nil]
    tauto
  unfold nameFault?
  rw [hempty, hany]
  split
  · rfl
  · split
    · show some _ = some _
      rw [Fault.respell, respellString, String.toList_ofList]
    · rfl

/-- A name that may stand is respelled as a whole. -/
theorem ofList_respellText {name : List Char} (hname : nameFault? name = none) (hdot : '.' ∉ name) :
    String.ofList (respellText ρ name) = respell ρ (String.ofList name) := by
  have hrun : ∀ c ∈ name, isDelimiter c = false := by
    intro c hc
    have hparen := (Name.ofChars name hname hdot).not_paren c hc
    have hdot' := (Name.ofChars name hname hdot).not_dot c hc
    simp [isDelimiter, hparen, hdot']
  rw [respellText_run hrun, String.ofList_toList]

/-! ### Cuts -/

/-- **Names in front.** A text is cut before a delimiter where it was cut before. -/
theorem span_respellText {m : Char} (hm : isDelimiter m = true) (text : List Char) :
    (respellText ρ text).takeWhile (fun c => c != m)
        = respellText ρ (text.takeWhile fun c => c != m) ∧
      (respellText ρ text).dropWhile (fun c => c != m)
        = respellText ρ (text.dropWhile fun c => c != m) := by
  have hpass (front : List Char) (hfront : m ∉ front) : ∀ c ∈ front, (c != m) = true := by
    intro c hc
    rw [bne_iff_ne]
    rintro rfl
    exact hfront hc
  -- Respelling brings in no delimiter.
  have hnew (front : List Char) (hfront : m ∉ front) : m ∉ respellText ρ front :=
    mt (mem_respellText (mem_of_isDelimiter hm)).mp hfront
  by_cases hmem : m ∈ text
  · obtain ⟨front, rest, rfl, hfront⟩ := List.eq_append_cons_of_mem hmem
    have hpassed := hpass front hfront
    have hpassed' := hpass _ (hnew front hfront)
    rw [respellText_append hm, List.takeWhile_append_of_pos hpassed,
      List.takeWhile_append_of_pos hpassed', List.dropWhile_append_of_pos hpassed,
      List.dropWhile_append_of_pos hpassed', List.takeWhile_cons_of_neg (by simp),
      List.takeWhile_cons_of_neg (by simp), List.dropWhile_cons_of_neg (by simp),
      List.dropWhile_cons_of_neg (by simp), List.append_nil, List.append_nil, respellText_cons hm]
    exact ⟨rfl, rfl⟩
  · have hall := hpass text hmem
    have hall' := hpass _ (hnew text hmem)
    rw [List.takeWhile_eq_self_iff.mpr hall, List.takeWhile_eq_self_iff.mpr hall',
      List.dropWhile_eq_nil_iff.mpr hall, List.dropWhile_eq_nil_iff.mpr hall']
    exact ⟨rfl, (respellText_eq_nil.mpr rfl).symm⟩

/-- A text begins with a delimiter if it did before. -/
theorem head?_respellText {m : Char} (hm : isDelimiter m = true) :
    (respellText ρ text).head? = some m ↔ text.head? = some m := by
  have hhead (text : List Char) :
      text.head? = some m ↔ ¬ text = [] ∧ (text.takeWhile fun c => c != m) = [] := by
    cases text with
    | nil => simp
    | cons c rest => by_cases hc : c = m <;> simp [hc]
  rw [hhead, hhead, (span_respellText hm text).1, respellText_eq_nil, respellText_eq_nil]

/-- There is no parenthesis in a run. -/
theorem not_paren_of_run {run : List Char} (h : ∀ c ∈ run, isDelimiter c = false) :
    ∀ c ∈ run, c ≠ '(' ∧ c ≠ ')' :=
  fun c hc => not_paren_of_not_isDelimiter (h c hc)

/-- Respelling brings in no parenthesis. -/
theorem not_paren_respellText (h : ∀ c ∈ text, c ≠ '(' ∧ c ≠ ')') :
    ∀ c ∈ respellText ρ text, c ≠ '(' ∧ c ≠ ')' := by
  intro c hc
  constructor
  · rintro rfl
    exact (h _ ((mem_respellText (by decide)).mp hc)).1 rfl
  · rintro rfl
    exact (h _ ((mem_respellText (by decide)).mp hc)).2 rfl

/-- The search for the end of a block fares alike, wherever it is in the text. -/
theorem closeFrom_respellText (text : List Char) (depth pos pos' : Nat) :
    (closeFrom depth pos (respellText ρ text)).map (fun _ => ())
      = (closeFrom depth pos' text).map fun _ => () := by
  -- Offsets differ between the two texts, so only the fault is compared, from any two offsets on.
  induction text using runs_induct generalizing depth pos pos' with
  | run run hrun =>
    have hparen := not_paren_of_run hrun
    have hend := closeFrom_append hparen depth pos' []
    have hend' := closeFrom_append (not_paren_respellText (ρ := ρ) hparen) depth pos []
    rw [List.append_nil] at hend hend'
    rw [hend, hend']
    rfl
  | delimiter run d rest hrun hd ih =>
    have hparen := not_paren_of_run hrun
    rw [respellText_append hd, closeFrom_append hparen,
      closeFrom_append (not_paren_respellText hparen)]
    by_cases hopen : d = '('
    · subst hopen
      rw [closeFrom_open, closeFrom_open]
      exact ih _ _ _
    · by_cases hclose : d = ')'
      · subst hclose
        match depth with
        | 0 => rfl
        | 1 => rfl
        | depth + 2 =>
          rw [closeFrom_close_inner, closeFrom_close_inner]
          exact ih _ _ _
      · rw [closeFrom_other hopen hclose, closeFrom_other hopen hclose]
        exact ih _ _ _

/-- Respelling keeps the depth behind a text. -/
theorem depthBehind_respellText (text : List Char) (depth : Nat) :
    depthBehind depth (respellText ρ text) = depthBehind depth text := by
  induction text using runs_induct generalizing depth with
  | run run hrun =>
    have hparen := not_paren_of_run hrun
    have hend := (balanced_of_not_paren hparen).depthBehind_append depth []
    have hend' :=
      (balanced_of_not_paren (not_paren_respellText (ρ := ρ) hparen)).depthBehind_append depth []
    rw [List.append_nil] at hend hend'
    rw [hend, hend']
  | delimiter run d rest hrun hd ih =>
    have hparen := not_paren_of_run hrun
    rw [respellText_append hd, (balanced_of_not_paren hparen).depthBehind_append,
      (balanced_of_not_paren (not_paren_respellText hparen)).depthBehind_append]
    by_cases hopen : d = '('
    · subst hopen
      rw [depthBehind_open, depthBehind_open, ih]
    · by_cases hclose : d = ')'
      · subst hclose
        cases depth with
        | zero => rw [depthBehind_close_zero, depthBehind_close_zero]
        | succ depth => rw [depthBehind_close, depthBehind_close, ih]
      · rw [depthBehind_other hopen hclose, depthBehind_other hopen hclose, ih]

/-- A balanced text stays so. -/
theorem Balanced.respellText (h : Balanced text) : Balanced (respellText ρ text) := by
  rw [balanced_iff, depthBehind_respellText, ← balanced_iff]
  exact h

section

variable (ρ)

/-- A block, with other names. -/
def Block.respell (b : Block) : Block :=
  ⟨respellText ρ b.head, respellText ρ b.inner, respellText ρ b.tail⟩

end

/-- A block has no end exactly where it cannot be cut out, for the same reason. -/
theorem blockEnd_eq_error {fault : BlockFault} :
    blockEnd text = .error fault ↔ Block.cut text = .error fault := by
  unfold Block.cut
  constructor
  · intro h
    rw [h]
  · intro h
    split at h
    · rename_i hend
      cases h
      exact hend
    · cases h

/-- **Blocks.** A text falls into the same three parts at its first block, or has none for the same
    reason. -/
theorem Block.cut_respellText (text : List Char) :
    Block.cut (respellText ρ text) = (Block.cut text).map (Block.respell ρ) := by
  cases hcut : Block.cut text with
  | error fault =>
    have hsame := closeFrom_respellText (ρ := ρ) text 0 0 0
    rw [← blockEnd, ← blockEnd, blockEnd_eq_error.mpr hcut] at hsame
    refine blockEnd_eq_error.mp ?_
    cases hend : blockEnd (respellText ρ text) with
    | error fault' =>
      rw [hend] at hsame
      exact congrArg Except.error (Except.error.inj hsame)
    | ok n =>
      rw [hend] at hsame
      cases hsame
  | ok b =>
    -- The parts are balanced as before, so they are where the new text is cut.
    rw [Block.text_eq_of_cut hcut, respellText_append rfl, respellText_append rfl,
      Block.cut_of_balanced (not_paren_respellText (Block.not_paren_of_cut hcut))
        (Block.balanced_of_cut hcut).respellText]
    rfl

/-- Without a block of its own, an argument goes up to the next dot. -/
theorem cutArgument_of_form (h : Form.of text ≠ .binding) :
    Reader.cutArgument text
      = .ok (text.takeWhile fun c => c != '.', text.dropWhile fun c => c != '.') := by
  unfold Reader.cutArgument
  split
  · contradiction
  · rfl

/-- **Arguments.** The first argument is cut off at the same delimiter. -/
theorem cutArgument_respellText (text : List Char) :
    Reader.cutArgument (respellText ρ text)
      = (Reader.cutArgument text).map fun cut => (respellText ρ cut.1, respellText ρ cut.2) := by
  have hsame := form_respellText (ρ := ρ) text
  by_cases hform : Form.of text = .binding
  · rw [hform] at hsame
    cases hcut : Block.cut text with
    | error fault =>
      have hcut' := Block.cut_respellText (ρ := ρ) text
      rw [hcut] at hcut'
      unfold Reader.cutArgument
      rw [hform, hsame, blockEnd_eq_error.mpr hcut, blockEnd_eq_error.mpr hcut']
      rfl
    | ok b =>
      have hhead := Block.not_paren_of_cut hcut
      have hinner := Block.balanced_of_cut hcut
      -- A block is respelled part by part, because its parentheses are delimiters.
      have hblock : respellText ρ (b.head ++ '(' :: (b.inner ++ [')']))
          = respellText ρ b.head ++ '(' :: (respellText ρ b.inner ++ [')']) := by
        rw [respellText_append rfl, respellText_append rfl, respellText_eq_nil.mpr rfl]
      rw [Block.text_eq_of_cut hcut] at hform hsame ⊢
      rw [respellText_append rfl, respellText_append rfl] at hsame ⊢
      rw [cutArgument_block (not_paren_respellText hhead) hinner.respellText hsame,
        cutArgument_block hhead hinner hform, ← hblock]
      rfl
  · obtain ⟨htake, hdrop⟩ := span_respellText (ρ := ρ) (m := '.') rfl text
    rw [cutArgument_of_form hform, cutArgument_of_form (hsame.symm ▸ hform), htake, hdrop]
    rfl

end DotLambda
