import DotLambda.Proofs.Desugaring.Definitions

namespace DotLambda

/-!
# Desugaring — sources put together

Definitions in front of a program are peeled off as if they stood alone, whatever white space they
are written with.

* `Defines` — a text made of definitions and white space;
* `Defines.peeled_append`, `Defines.peel_append` — a program behind such a text;
* `defines_of_peel`, `Definition.Written.defines` — lines with nothing but definitions are such
  texts, and so is a definition that is written back;
* `desugar_congr` — what matters about a source.
-/

/-! ### White space in front -/

/-- Blanks in front are trimmed away with those that follow them. -/
theorem trimStart_append {lead : List Char} (h : ∀ c ∈ lead, isBlank c = true)
    (text : List Char) : trimStart (lead ++ text) = trimStart text :=
  List.dropWhile_append_of_pos h

/-- A text that starts with a definition does so without white space in front. -/
theorem startsDefinition_cases {text : List Char} (h : startsDefinition text = true) :
    ∃ c rest, text = 'l' :: 'e' :: 't' :: c :: rest ∧ isAsciiBlank c = true := by
  unfold startsDefinition at h
  split at h
  · exact ⟨_, _, rfl, h⟩
  · cases h

/-- Whether a text starts with a definition does not depend on what is behind it. -/
theorem startsDefinition_append {text : List Char} (h : startsDefinition text = true)
    (rest : List Char) : startsDefinition (text ++ rest) = true := by
  obtain ⟨c, more, rfl, hc⟩ := startsDefinition_cases h
  exact hc

/-- A text that starts with a definition has no blanks in front. -/
theorem trimStart_of_startsDefinition {text : List Char} (h : startsDefinition text = true) :
    trimStart text = text := by
  obtain ⟨c, rest, rfl, -⟩ := startsDefinition_cases h
  rfl

/-- The keyword and the white space behind it stand before the semicolon. -/
theorem startsDefinition_takeWhile {text : List Char} (h : startsDefinition text = true) :
    startsDefinition (text.takeWhile fun c => c != ';') = true := by
  obtain ⟨c, rest, rfl, hc⟩ := startsDefinition_cases h
  have hne : (c != ';') = true := by
    rw [bne_iff_ne]
    rintro rfl
    exact absurd hc (by decide)
  simp [startsDefinition, hne, hc]

/-- A text that is trimmed to nothing has only blanks in it. -/
theorem forall_isBlank_of_trim {text : List Char} (h : trim text = []) :
    ∀ c ∈ text, isBlank c = true := by
  have hback : trimStart (trimStart text).reverse = [] := List.reverse_eq_nil_iff.mp h
  have hall : ∀ c ∈ trimStart text, isBlank c = true := by
    intro c hc
    exact List.dropWhile_eq_nil_iff.mp hback c (List.mem_reverse.mpr hc)
  -- What stands at the front of a trimmed text is not white space.
  have hnone : trimStart text = [] := by
    cases htrim : trimStart text with
    | nil => rfl
    | cons c rest =>
      have hstop := List.head?_dropWhile_not isBlank text
      rw [← trimStart, htrim] at hstop
      have hblank := hall c (htrim ▸ List.mem_cons_self)
      rw [show isBlank c = false from hstop] at hblank
      cases hblank
  exact List.dropWhile_eq_nil_iff.mp hnone

/-- A text without white space does not start with a definition. -/
theorem not_startsDefinition {text : List Char} (h : ∀ c ∈ text, isBlank c = false) :
    startsDefinition (trimStart text) = false := by
  rw [Bool.eq_false_iff]
  intro hstart
  obtain ⟨c, rest, hcut, hc⟩ := startsDefinition_cases hstart
  have hmem : c ∈ trimStart text := by
    rw [hcut]
    simp
  have hblank := isBlank_of_isAsciiBlank hc
  rw [h c ((List.dropWhile_sublist isBlank).subset hmem)] at hblank
  cases hblank

/-- A text is white space, what stands before its first semicolon, and the rest. -/
theorem text_of_semicolon {text after : List Char} {c : Char}
    (h : (trimStart text).dropWhile (fun c => c != ';') = c :: after) :
    text = text.takeWhile isBlank
      ++ ((trimStart text).takeWhile (fun c => c != ';') ++ ';' :: after) := by
  have hsemicolon : c = ';' := by
    have hstop := List.head?_dropWhile_not (fun c => c != ';') (trimStart text)
    rw [h] at hstop
    simpa using hstop
  subst hsemicolon
  rw [← h, List.takeWhile_append_dropWhile]
  exact (List.takeWhile_append_dropWhile ..).symm

/-! ### Peeling -/

/-- The definition that the words of a text stand for. -/
def Definition.ofWords (name first : List Char) (more : List (List Char)) : Definition :=
  ⟨String.ofList name, String.ofList (first :: more).flatten⟩

/-- Where a definition starts, only what is behind the white space in front counts. -/
theorem peel_starting {text start : List Char} (htrim : trimStart text = start)
    (h : startsDefinition start = true) :
    peelDefinitions text = match start.dropWhile fun c => c != ';' with
      | [] => .error (.on .openDefinition (start.takeWhile fun c => c != '\n'))
      | _ :: rest =>
        match words (start.takeWhile fun c => c != ';') with
        | _ :: name :: first :: more =>
          (peelDefinitions rest).map fun p => (.ofWords name first more :: p.1, p.2)
        | _ => .error (.on .shortDefinition ((start.takeWhile fun c => c != ';') ++ [';'])) := by
  subst htrim
  rw [peelDefinitions]
  simp only [h, if_true]
  split
  · rename_i hnil
    rw [hnil]
  · rename_i rest hcons
    rw [hcons]
    dsimp only
    cases peelDefinitions rest with
    | error e => rfl
    | ok p => rfl

section

variable {lead inside keyword name first : List Char} {more : List (List Char)}

/-- One definition is peeled off. -/
theorem peel_definition (hlead : ∀ c ∈ lead, isBlank c = true)
    (hstart : startsDefinition inside = true) (hinside : ';' ∉ inside)
    (hwords : words inside = keyword :: name :: first :: more) (rest : List Char) :
    peelDefinitions (lead ++ (inside ++ ';' :: rest))
      = (peelDefinitions rest).map fun p => (.ofWords name first more :: p.1, p.2) := by
  have hstart' := startsDefinition_append hstart (';' :: rest)
  have htrim : trimStart (lead ++ (inside ++ ';' :: rest)) = inside ++ ';' :: rest := by
    rw [trimStart_append hlead, trimStart_of_startsDefinition hstart']
  have hne : ∀ c ∈ inside, (c != ';') = true := by
    intro c hc
    rw [bne_iff_ne]
    rintro rfl
    exact hinside hc
  have hdrop : (inside ++ ';' :: rest).dropWhile (fun c => c != ';') = ';' :: rest := by
    rw [List.dropWhile_append_of_pos hne, List.dropWhile_cons_of_neg (by decide)]
  have htake : (inside ++ ';' :: rest).takeWhile (fun c => c != ';') = inside := by
    rw [List.takeWhile_append_of_pos hne, List.takeWhile_cons_of_neg (by decide), List.append_nil]
  rw [peel_starting htrim hstart', hdrop, htake, hwords]

end

/-- A text that does not start with a definition is left as it is. -/
theorem peel_expression {text : List Char} (h : startsDefinition (trimStart text) = false) :
    peelDefinitions text = .ok ([], text) := by
  rw [peelDefinitions]
  simp [h]

/-- White space in front changes nothing where a definition follows. -/
theorem peel_blank_append {lead text : List Char} (hlead : ∀ c ∈ lead, isBlank c = true)
    (h : startsDefinition (trimStart text) = true) :
    peelDefinitions (lead ++ text) = peelDefinitions text := by
  rw [peel_starting (trimStart_append hlead text) h, peel_starting rfl h]

/-- What a program is, up to white space: its definitions, and its expression. -/
def peeled (text : List Char) : Except SyntaxError (List Definition × List Char) :=
  (peelDefinitions text).map fun p => (p.1, removeBlanks p.2)

/-- Nothing is left of blanks. -/
theorem removeBlanks_of_blank {lead : List Char} (h : ∀ c ∈ lead, isBlank c = true) :
    removeBlanks lead = [] := by
  refine List.filter_eq_nil_iff.mpr fun c hc => ?_
  rw [h c hc]
  decide

/-- Blanks in front make no difference to the definitions that are peeled off. -/
theorem peeled_blank_append {lead : List Char} (hlead : ∀ c ∈ lead, isBlank c = true)
    (text : List Char) : peeled (lead ++ text) = peeled text := by
  unfold peeled
  cases h : startsDefinition (trimStart text) with
  | true => rw [peel_blank_append hlead h]
  | false =>
    have h' : startsDefinition (trimStart (lead ++ text)) = false := by
      rwa [trimStart_append hlead]
    rw [peel_expression h, peel_expression h']
    show Except.ok ([], removeBlanks (lead ++ text)) = Except.ok ([], removeBlanks text)
    rw [removeBlanks_append, removeBlanks_of_blank hlead, List.nil_append]

/-! ### Texts made of definitions -/

/-- The text is made of definitions and white space. -/
inductive Defines : List Char → List Definition → Prop where
  | blank {text : List Char} (h : ∀ c ∈ text, isBlank c = true) : Defines text []
  | definition {lead inside keyword name first rest : List Char} {more : List (List Char)}
      {ds : List Definition} (hlead : ∀ c ∈ lead, isBlank c = true)
      (hstart : startsDefinition inside = true) (hinside : ';' ∉ inside)
      (hwords : words inside = keyword :: name :: first :: more) (hrest : Defines rest ds) :
      Defines (lead ++ (inside ++ ';' :: rest)) (.ofWords name first more :: ds)

namespace Defines

variable {front front' : List Char} {ds ds' : List Definition}

/-- Definitions may have blanks in front. -/
theorem blank_append {lead : List Char} (hlead : ∀ c ∈ lead, isBlank c = true)
    (h : Defines front ds) : Defines (lead ++ front) ds := by
  cases h with
  | blank h => exact .blank (List.forall_mem_append.mpr ⟨hlead, h⟩)
  | definition hlead' hstart hinside hwords hrest =>
    rw [← List.append_assoc]
    exact .definition (List.forall_mem_append.mpr ⟨hlead, hlead'⟩) hstart hinside hwords hrest

/-- Definitions may follow one another. -/
theorem append (h : Defines front ds) (h' : Defines front' ds') :
    Defines (front ++ front') (ds ++ ds') := by
  induction h with
  | blank h => exact h'.blank_append h
  | @definition lead inside _ _ _ rest _ _ hlead hstart hinside hwords _ ih =>
    have hassoc : lead ++ (inside ++ ';' :: rest) ++ front'
        = lead ++ (inside ++ ';' :: (rest ++ front')) := by simp
    rw [hassoc]
    exact .definition hlead hstart hinside hwords ih

/-- **Programs behind definitions.** The definitions of such a text are the first ones of the
    program, and the rest of the program is what it is alone. -/
theorem peeled_append (h : Defines front ds) (text : List Char) :
    peeled (front ++ text) = (peeled text).map fun p => (ds ++ p.1, p.2) := by
  induction h with
  | blank h =>
    rw [peeled_blank_append h]
    cases peeled text with
    | error e => rfl
    | ok p => rfl
  | @definition lead inside _ name first rest more _ hlead hstart hinside hwords _ ih =>
    have hassoc : lead ++ (inside ++ ';' :: rest) ++ text
        = lead ++ (inside ++ ';' :: (rest ++ text)) := by simp
    have hcons := peel_definition hlead hstart hinside hwords (rest ++ text)
    have hone : peeled (lead ++ (inside ++ ';' :: (rest ++ text)))
        = (peeled (rest ++ text)).map fun p => (.ofWords name first more :: p.1, p.2) := by
      unfold peeled
      rw [hcons]
      cases peelDefinitions (rest ++ text) with
      | error e => rfl
      | ok p => rfl
    rw [hassoc, hone, ih]
    cases peeled text with
    | error e => rfl
    | ok p => rfl

/-- What is peeled off such a program exactly.  White space of the text may be left in front of the
    expression. -/
theorem peel_append (h : Defines front ds) {text rest : List Char}
    (htext : peelDefinitions text = .ok (ds', rest)) :
    ∃ lead, (∀ c ∈ lead, isBlank c = true) ∧
      peelDefinitions (front ++ text) = .ok (ds ++ ds', lead ++ rest) := by
  induction h with
  | @blank front h =>
    cases hstart : startsDefinition (trimStart text) with
    | true => exact ⟨[], List.forall_mem_nil _, by rw [peel_blank_append h hstart, htext]; rfl⟩
    | false =>
      rw [peel_expression hstart] at htext
      cases htext
      have hstart' : startsDefinition (trimStart (front ++ text)) = false := by
        rwa [trimStart_append h]
      exact ⟨front, h, peel_expression hstart'⟩
  | @definition lead inside _ name first rest _ ds hlead hstart hinside hwords _ ih =>
    obtain ⟨lead', hlead', hpeel⟩ := ih
    have hassoc : lead ++ (inside ++ ';' :: rest) ++ text
        = lead ++ (inside ++ ';' :: (rest ++ text)) := by simp
    refine ⟨lead', hlead', ?_⟩
    rw [hassoc, peel_definition hlead hstart hinside hwords, hpeel]
    rfl

end Defines

/-- Where only white space is left behind its definitions, a text is made of them. -/
theorem defines_of_peel {text rest : List Char} {ds : List Definition}
    (h : peelDefinitions text = .ok (ds, rest)) (hrest : trim rest = []) : Defines text ds := by
  fun_induction peelDefinitions text generalizing ds rest with
  | case1 => cases h
  | case2 => cases h
  | case3 text start hstart c after hcut inside _ name first more hwords ds' _ hafter =>
    rename_i body ih
    cases h
    rw [text_of_semicolon hcut]
    refine .definition (fun c hc => List.mem_takeWhile_imp hc) (startsDefinition_takeWhile hstart)
      (fun hmem => ?_) hwords (ih hafter hrest)
    exact absurd (List.mem_takeWhile_imp hmem) (by decide)
  | case4 => cases h
  | case5 =>
    cases h
    exact .blank (forall_isBlank_of_trim hrest)

/-! ### Definitions written back -/

/-- A name and a body that can be told apart when they are written: they are there, and hold
    neither white space nor a semicolon. -/
structure Definition.Written (d : Definition) : Prop where
  name : d.name.toList ≠ []
  body : d.body.toList ≠ []
  plain : ∀ c ∈ d.name.toList ++ d.body.toList, isBlank c = false ∧ c ≠ ';'

/-- A word has characters, which are those of the text. -/
theorem mem_of_mem_words {text word : List Char} (h : word ∈ words text) :
    word ≠ [] ∧ ∀ c ∈ word, c ∈ text := by
  fun_induction words text with
  | case1 text htrim => exact absurd h List.not_mem_nil
  | case2 text c rest htrim ih =>
    have hrest : ∀ d ∈ c :: rest, d ∈ text := fun d hd =>
      (List.dropWhile_sublist isBlank).subset (htrim ▸ hd : d ∈ trimStart text)
    rw [List.forall_mem_cons] at hrest
    rcases List.mem_cons.mp h with rfl | h
    · refine ⟨List.cons_ne_nil _ _, List.forall_mem_cons.mpr ⟨hrest.1, fun d hd => ?_⟩⟩
      exact hrest.2 d ((List.takeWhile_sublist _).subset hd)
    · refine ⟨(ih h).1, fun d hd => hrest.2 d ?_⟩
      exact (List.dropWhile_sublist _).subset ((ih h).2 d hd)

/-- A definition that is read from words can be written. -/
theorem Definition.written_ofWords {inside keyword name first : List Char}
    {more : List (List Char)} (hinside : ';' ∉ inside)
    (hwords : words inside = keyword :: name :: first :: more) :
    (Definition.ofWords name first more).Written := by
  have hword : ∀ word ∈ name :: first :: more, word ≠ [] ∧
      ∀ c ∈ word, isBlank c = false ∧ c ≠ ';' := by
    intro word hword
    have hmem : word ∈ words inside := hwords ▸ List.mem_cons_of_mem _ hword
    obtain ⟨hne, hsub⟩ := mem_of_mem_words hmem
    refine ⟨hne, fun c hc => ⟨not_isBlank_of_mem_words hmem c hc, ?_⟩⟩
    rintro rfl
    exact hinside (hsub _ hc)
  rw [List.forall_mem_cons] at hword
  obtain ⟨⟨hname, hplain⟩, hbody⟩ := hword
  refine ⟨?_, ?_, ?_⟩
  · rwa [ofWords, String.toList_ofList]
  · rw [ofWords, String.toList_ofList, List.flatten_cons]
    exact List.append_ne_nil_of_left_ne_nil (hbody first List.mem_cons_self).1 _
  · simp only [ofWords, String.toList_ofList]
    refine List.forall_mem_append.mpr ⟨hplain, fun c hc => ?_⟩
    obtain ⟨word, hword, hmem⟩ := List.mem_flatten.mp hc
    exact (hbody word hword).2 c hmem

/-- Every definition that is read can be written. -/
theorem Defines.written {text : List Char} {ds : List Definition} (h : Defines text ds) :
    ∀ d ∈ ds, d.Written := by
  induction h with
  | blank _ => exact fun d hd => absurd hd List.not_mem_nil
  | definition _ _ hinside hwords _ ih =>
    exact List.forall_mem_cons.mpr ⟨Definition.written_ofWords hinside hwords, ih⟩

/-- The first word of a text that starts with it. -/
theorem words_append {word rest : List Char} (hne : word ≠ [])
    (hword : ∀ c ∈ word, isBlank c = false) (hrest : ∀ c ∈ rest.head?, isBlank c = true) :
    words (word ++ rest) = word :: words rest := by
  obtain ⟨c, word, rfl⟩ := List.exists_cons_of_ne_nil hne
  rw [List.forall_mem_cons] at hword
  have htrim : trimStart (c :: word ++ rest) = c :: (word ++ rest) :=
    List.dropWhile_cons_of_neg (by rw [hword.1]; exact Bool.false_ne_true)
  have hkeep : ∀ d ∈ word, (!isBlank d) = true := fun d hd => by rw [hword.2 d hd]; rfl
  -- The word ends where the rest begins.
  have htake : rest.takeWhile (fun d => !isBlank d) = [] := by
    cases rest with
    | nil => rfl
    | cons d rest => rw [List.takeWhile_cons_of_neg (by simp [hrest d rfl])]
  have hdrop : rest.dropWhile (fun d => !isBlank d) = rest := by
    cases rest with
    | nil => rfl
    | cons d rest => rw [List.dropWhile_cons_of_neg (by simp [hrest d rfl])]
  rw [words]
  split
  · rename_i hnil
    rw [htrim] at hnil
    cases hnil
  · rename_i hcons
    rw [htrim] at hcons
    cases hcons
    rw [List.takeWhile_append_of_pos hkeep, htake, List.append_nil,
      List.dropWhile_append_of_pos hkeep, hdrop]

/-- A blank in front of a text makes no word. -/
theorem words_blank {c : Char} (hc : isBlank c = true) (rest : List Char) :
    words (c :: rest) = words rest := by
  have htrim : trimStart (c :: rest) = trimStart rest := List.dropWhile_cons_of_pos hc
  rw [words, words.eq_def rest]
  split
  · rename_i hnil
    rw [htrim] at hnil
    split
    · rfl
    · rename_i hcons
      rw [hnil] at hcons
      cases hcons
  · rename_i hcons
    rw [htrim] at hcons
    split
    · rename_i hnil
      rw [hcons] at hnil
      cases hnil
    · rename_i hcons'
      rw [hcons] at hcons'
      cases hcons'
      rfl

/-- A word with a space behind it. -/
theorem words_spaced {word : List Char} (hne : word ≠ []) (hword : ∀ c ∈ word, isBlank c = false)
    (rest : List Char) : words (word ++ ' ' :: rest) = word :: words rest := by
  rw [words_append hne hword (by simp [isBlank]), words_blank (by decide)]

/-- A text without blanks is one word. -/
theorem words_singleton {word : List Char} (hne : word ≠ [])
    (hword : ∀ c ∈ word, isBlank c = false) : words word = [word] := by
  have hlast : words (word ++ []) = word :: words [] := words_append hne hword (by simp)
  have hnil : words [] = [] := by simp [words, trimStart]
  rwa [List.append_nil, hnil] at hlast

/-- **Round trip.** A definition that is written back is read as itself. -/
theorem Definition.Written.defines {d : Definition} (h : d.Written) :
    Defines d.source.toList [d] := by
  obtain ⟨hname, hbody⟩ := List.forall_mem_append.mp h.plain
  have hwords : words (['l', 'e', 't'] ++ ' ' :: (d.name.toList ++ ' ' :: d.body.toList))
      = [['l', 'e', 't'], d.name.toList, d.body.toList] := by
    have hlet : ∀ c ∈ ['l', 'e', 't'], isBlank c = false := by simp [isBlank]
    rw [words_spaced (List.cons_ne_nil _ _) hlet, words_spaced h.name fun c hc => (hname c hc).1,
      words_singleton h.body fun c hc => (hbody c hc).1]
  have hinside : ';' ∉ ['l', 'e', 't'] ++ ' ' :: (d.name.toList ++ ' ' :: d.body.toList) := by
    simp only [List.mem_append, List.mem_cons, not_or]
    exact ⟨by decide, by decide, fun hmem => (hname _ hmem).2 rfl, by decide,
      fun hmem => (hbody _ hmem).2 rfl⟩
  have hdefines := Defines.definition (List.forall_mem_nil _) rfl hinside hwords
    (.blank (List.forall_mem_nil _))
  have hself : Definition.ofWords d.name.toList d.body.toList [] = d := by
    simp [Definition.ofWords]
  have hsource : d.source.toList
      = [] ++ (['l', 'e', 't'] ++ ' ' :: (d.name.toList ++ ' ' :: d.body.toList) ++ [';']) := by
    simp [Definition.source]
  rwa [hself, ← hsource] at hdefines

/-! ### What matters about a source -/

/-- Sources with the same definitions and the same expression are the same program. -/
theorem desugar_congr {source source' : List Char} (h : peeled source = peeled source') :
    desugar source = desugar source' := by
  unfold peeled at h
  unfold desugar
  cases hpeel : peelDefinitions source with
  | error e =>
    rw [hpeel] at h
    cases hpeel' : peelDefinitions source' with
    | error e' =>
      rw [hpeel'] at h
      cases h
      rfl
    | ok p' =>
      rw [hpeel'] at h
      cases h
  | ok p =>
    rw [hpeel] at h
    cases hpeel' : peelDefinitions source' with
    | error e' =>
      rw [hpeel'] at h
      cases h
    | ok p' =>
      rw [hpeel', Except.map, Except.map, Except.ok.injEq, Prod.mk.injEq] at h
      obtain ⟨ds, rest⟩ := p
      obtain ⟨ds', rest'⟩ := p'
      obtain ⟨rfl, hrest⟩ : ds = ds' ∧ removeBlanks rest = removeBlanks rest' := h
      -- Only the rest may have blanks, and they are removed again.
      have hbind := removeBlanks_bindDefinitions (removeBlanks_of_peel hpeel)
      simp only [hbind, hrest]

end DotLambda
