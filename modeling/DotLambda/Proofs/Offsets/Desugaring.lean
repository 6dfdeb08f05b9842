import DotLambda.Proofs.Desugaring.OnePass
import DotLambda.Proofs.Desugaring.Sources
import DotLambda.Proofs.Offsets.Reading

namespace DotLambda

/-!
# Offsets — desugaring

Definitions and lists of parameters found by offsets.

* `Offsets.peel` — peels the definitions off the start of a text;
* `Offsets.round` — writes out the first list of parameters;
* `Offsets.spellOut` — writes out all of them, one round after the other;
* `Offsets.round_of_find?` — the parts of a round lie around the first list;
* `Offsets.peel_eq`, `Offsets.spellOut_eq` — no access is out of range;
* `frontEnd_in_range` — on no text does an access of the front end go out of range.
-/

namespace Offsets

/-! ### Definitions -/

/-- Whether a text starts with a definition, from the byte behind the keyword. -/
def startsWithLet (text : List Char) : Option Bool :=
  if ['l', 'e', 't'].isPrefixOf text && byteLength text != 3 then do
    let byte ← byteAt? text 3
    some (isBlank (Char.ofNat byte.toNat))
  else some false

/-- The first line of a text. -/
def firstLine (text : List Char) : Option (List Char) :=
  match offset? (· == '\n') text with
  | none => some text
  | some n => do
    let line ← slice? text 0 n
    some line.chars

/-- Trimming does not make a text longer. -/
theorem byteLength_trimStart_le (text : List Char) :
    byteLength (trimStart text) ≤ byteLength text := by
  have htext := congrArg byteLength (List.takeWhile_append_dropWhile (p := isBlank) (l := text))
  rw [byteLength_append] at htext
  show byteLength (text.dropWhile isBlank) ≤ _
  omega

/-- Peels the definitions off the start of a text. -/
def peel (text : List Char) : Option (Except SyntaxError (List Definition × List Char)) := do
  let starts ← startsWithLet (trimStart text)
  if starts then
    match offset? (· == ';') (trimStart text) with
    | none => do
      let line ← firstLine (trimStart text)
      some (.error (.on .openDefinition line))
    | some n => do
      let inside ← slice? (trimStart text) 0 n
      let fields := words inside.chars
      if fields.length < 3 then do
        let shown ← slice? (trimStart text) 0 (n + 1)
        some (.error (.on .shortDefinition shown.chars))
      else do
        let name ← fields[1]?
        let body ← behind? fields 2
        let rest ← slice? (trimStart text) (n + 1) (byteLength (trimStart text))
        let others ← peel rest.chars
        some (others.map fun p =>
          (⟨String.ofList name, String.ofList body.flatten⟩ :: p.1, p.2))
  else some (.ok ([], text))
termination_by byteLength text
decreasing_by
  have := byteLength_trimStart_le text
  have := rest.size
  have := rest.start_le_stop
  omega

/-- The test for a definition stays within the text and says what `startsDefinition` says. -/
theorem startsWithLet_eq (text : List Char) :
    startsWithLet text = some (startsDefinition text) := by
  unfold startsWithLet
  by_cases hlet : ['l', 'e', 't'] <+: text
  · obtain ⟨rest, rfl⟩ := hlet
    have hkeyword : ['l', 'e', 't'].isPrefixOf (['l', 'e', 't'] ++ rest) = true := by simp
    cases rest with
    | nil => rfl
    | cons c rest =>
      have hbyte : byteAt? (['l', 'e', 't'] ++ c :: rest) 3 = some (leadByte c) :=
        byteAt?_append ['l', 'e', 't'] c rest
      have hlong : (byteLength (['l', 'e', 't'] ++ c :: rest) != 3) = true := by
        have := c.utf8Size_pos
        have hsize : byteLength (['l', 'e', 't'] ++ c :: rest)
            = 3 + (c.utf8Size + byteLength rest) := byteLength_append ..
        rw [hsize, bne_iff_ne]
        omega
      rw [hkeyword, hlong, hbyte]
      show some (isBlank (Char.ofNat (leadByte c).toNat)) = _
      rw [isBlank_leadByte]
      rfl
  · have hkeyword : ['l', 'e', 't'].isPrefixOf text = false := by
      rw [Bool.eq_false_iff]
      exact fun h => hlet (List.isPrefixOf_iff_prefix.mp h)
    have hnone : startsDefinition text = false := by
      rw [Bool.eq_false_iff]
      intro h
      obtain ⟨c, rest, rfl, -⟩ := startsDefinition_cases h
      exact hlet ⟨c :: rest, rfl⟩
    rw [hkeyword, hnone]
    rfl

/-- The first line ends in front of the first line feed. -/
theorem firstLine_eq (text : List Char) :
    firstLine text = some (text.takeWhile fun c => c != '\n') := by
  unfold firstLine
  rw [offset?_char]
  by_cases hmem : '\n' ∈ text
  · obtain ⟨line, hline, hline'⟩ := slice?_front (List.takeWhile_append_dropWhile ..).symm rfl
    rw [if_pos hmem]
    show (slice? text 0 _).bind (fun line => some line.chars) = _
    rw [hline, Option.bind_some, hline']
  · rw [if_neg hmem, takeWhile_of_not_mem hmem]

/-- Peeling stays within the text at every offset, and gives what `peelDefinitions` gives. -/
theorem peel_eq (text : List Char) : peel text = some (peelDefinitions text) := by
  rw [peel, startsWithLet_eq, Option.bind_eq_bind, Option.bind_some]
  cases hstart : startsDefinition (trimStart text) with
  | false =>
    rw [peel_expression hstart]
    rfl
  | true =>
    rw [if_pos rfl, peel_starting rfl hstart]
    have hshort := length_trimStart_le text
    revert hshort
    generalize trimStart text = start
    intro hshort
    rw [offset?_char]
    by_cases hmem : ';' ∈ start
    · obtain ⟨inside, rest, htext, hinside⟩ := List.eq_append_cons_of_mem hmem
      have : rest.length < text.length := by
        rw [htext, List.length_append, List.length_cons] at hshort
        omega
      have hne : ∀ c ∈ inside, (c != ';') = true := by
        intro c hc
        rw [bne_iff_ne]
        rintro rfl
        exact hinside hc
      have htake : start.takeWhile (fun c => c != ';') = inside := by
        rw [htext, List.takeWhile_append_of_pos hne, List.takeWhile_cons_of_neg (by decide),
          List.append_nil]
      have hdrop : start.dropWhile (fun c => c != ';') = ';' :: rest := by
        rw [htext, List.dropWhile_append_of_pos hne, List.dropWhile_cons_of_neg (by decide)]
      have hshown : start = (inside ++ [';']) ++ rest := by
        rw [htext, List.append_assoc, List.singleton_append]
      have hend : byteLength (inside ++ [';']) = byteLength inside + 1 := byteLength_append ..
      obtain ⟨front, hfront, hfront'⟩ := slice?_front htext rfl
      obtain ⟨shown, hslice, hslice'⟩ := slice?_front hshown hend
      obtain ⟨back, hback, hback'⟩ := slice?_back hshown hend
      have hrest := peel_eq rest
      rw [if_pos hmem, htake, hdrop]
      simp only [hfront, hfront', hslice, hslice', hback, hback', hrest, Option.bind_eq_bind,
        Option.bind_some]
      -- A definition has three words at least, the first of which is the keyword.
      rcases words inside with _ | ⟨keyword, _ | ⟨name, _ | ⟨first, more⟩⟩⟩
      · rfl
      · rfl
      · rfl
      · rw [if_neg (by simp)]
        rfl
    · have hdrop : start.dropWhile (fun c => c != ';') = [] := by
        rw [List.dropWhile_eq_nil_iff]
        intro c hc
        rw [bne_iff_ne]
        rintro rfl
        exact hmem hc
      rw [if_neg hmem, hdrop, firstLine_eq]
      rfl
termination_by text.length

/-! ### Lists of parameters -/

/-- What comes of looking for a list of parameters once. -/
inductive Round where
  /-- There is none. -/
  | finished
  /-- There is one that cannot be written out. -/
  | refused (e : SyntaxError)
  /-- The first one is written out. -/
  | rewritten (next : List Char)

/-- Shows a list of parameters that no block follows. -/
def unused (text : List Char) (start : Nat) : Option Round := do
  let shown ← slice? text start (byteLength text)
  some (.refused (.on .unusedParameters shown.chars))

/-- Writes out the list of parameters between two offsets. -/
def roundAt (text : List Char) (start stop : Nat) : Option Round := do
  let byte ← byteAt? text stop
  if byte ≠ '('.toUInt8 then unused text start
  else do
    let list ← slice? text start stop
    let names := pieces ',' list.chars
    if names.any List.isEmpty then some (.refused (.on .emptyParameter list.chars))
    else do
      let beyond ← slice? text stop (byteLength text)
      match blockOffset beyond.chars with
      | .error fault => some (.refused (.on (.block fault) beyond.chars))
      | .ok n => do
        let lead ← slice? text 0 start
        let inner ← slice? text (stop + 1) (stop + n)
        let tail ← slice? text (stop + n + 1) (byteLength text)
        some (.rewritten (lead.chars ++ (names.flatMap (· ++ ['(']) ++
          (inner.chars ++ (List.replicate names.length ')' ++ tail.chars)))))

/-- Writes out the first list of parameters.  It begins behind the last delimiter in front of the
    first comma, and ends at the next one. -/
def round (text : List Char) : Option Round :=
  match offset? (· == ',') text with
  | none => some .finished
  | some comma => do
    let before ← slice? text 0 comma
    let start := match lastOffset? isDelimiter before.chars with
      | none => 0
      | some n => n + 1
    let behind ← slice? text comma (byteLength text)
    match offset? isDelimiter behind.chars with
    | none => unused text start
    | some n => roundAt text start (comma + n)

open ParameterList

/-- What comes of the first list of parameters. -/
def roundOf (p : ParameterList) : Round :=
  if p.beyond.head? = some '(' then
    if (pieces ',' p.list).any List.isEmpty then .refused (.on .emptyParameter p.list)
    else
      match Block.cut p.beyond with
      | .error fault => .refused (.on (.block fault) p.beyond)
      | .ok block => .rewritten
          (p.lead ++ (opened p.list ++ (block.inner ++ (closed p.list ++ block.tail))))
  else .refused (.on .unusedParameters (p.list ++ p.beyond))

/-- Each name with a parenthesis behind it. -/
theorem flatMap_pieces (list : List Char) :
    (pieces ',' list).flatMap (· ++ ['(']) = opened list := by
  induction list with
  | nil => rfl
  | cons c list ih =>
    rw [pieces]
    by_cases hcomma : c = ','
    · rw [if_pos hcomma, List.flatMap_cons, ih, hcomma]
      rfl
    · have hopened : opened (c :: list) = c :: opened list := by simp [opened, hcomma]
      rw [if_neg hcomma, hopened, ← ih]
      cases hpieces : pieces ',' list with
      | nil =>
        have hlength := length_pieces ',' list
        rw [hpieces] at hlength
        cases hlength
      | cons piece more => rfl

/-- The list begins behind the last delimiter in front of its first comma. -/
theorem start_eq {lead first : List Char} (hlead : EndsName lead)
    (hfirst : ∀ c ∈ first, isDelimiter c = false) :
    (match lastOffset? isDelimiter (lead ++ first) with
      | none => 0
      | some n => n + 1) = byteLength lead := by
  rcases List.eq_nil_or_concat' lead with rfl | ⟨lead, c, rfl⟩
  · rw [List.nil_append, lastOffset?_none hfirst]
    rfl
  · have hc : isDelimiter c = true := hlead c (List.getLast?_concat ..)
    have hsize : byteLength [c] = 1 := by
      simp only [isDelimiter, Bool.or_eq_true, beq_iff_eq] at hc
      rcases hc with (rfl | rfl) | rfl <;> rfl
    rw [List.append_assoc, List.singleton_append, lastOffset?_append hfirst hc, byteLength_append,
      hsize]

section

variable {text lead list : List Char}

/-- A list that nothing uses is refused with what stands from it on. -/
theorem unused_eq {beyond : List Char} (htext : text = lead ++ (list ++ beyond)) :
    unused text (byteLength lead)
      = some (.refused (.on .unusedParameters (list ++ beyond))) := by
  obtain ⟨shown, hshown, hshown'⟩ := slice?_back htext rfl
  rw [unused, hshown, Option.bind_eq_bind, Option.bind_some, hshown']

/-- With the offsets of a list, a round does what is to be done with the list. -/
theorem roundAt_eq {c : Char} {rest : List Char} (htext : text = lead ++ (list ++ c :: rest)) :
    roundAt text (byteLength lead) (byteLength (lead ++ list))
      = some (roundOf ⟨lead, list, c :: rest⟩) := by
  have hstop : text = (lead ++ list) ++ c :: rest := by rw [htext, List.append_assoc]
  have hbyte : byteAt? text (byteLength (lead ++ list)) = some (leadByte c) := by
    rw [hstop]
    exact byteAt?_append _ c rest
  rw [roundAt, hbyte, Option.bind_eq_bind, Option.bind_some, roundOf]
  by_cases hopen : c = '('
  · subst hopen
    -- All three offsets are between characters, so that the slices are the parts of the text.
    obtain ⟨names, hnames, hnames'⟩ :
        ∃ p : Slice text (byteLength lead) (byteLength (lead ++ list)),
        slice? text (byteLength lead) (byteLength (lead ++ list)) = some p ∧ p.chars = list :=
      ⟨_, slice?_eq htext rfl (byteLength_append ..).symm, rfl⟩
    obtain ⟨front, hfront, hfront'⟩ := slice?_front htext rfl
    obtain ⟨beyond, hbeyond, hbeyond'⟩ := slice?_back hstop rfl
    rw [if_neg (not_not_intro ((leadByte_eq_iff (by decide)).mpr rfl))]
    simp only [hnames, hnames', hfront, hfront', hbeyond, hbeyond', Option.bind_eq_bind,
      Option.bind_some, List.head?_cons, if_true]
    split
    · rfl
    · cases hcut : Block.cut ('(' :: rest) with
      | error fault => rw [blockOffset_of_uncut hcut]
      | ok b =>
        obtain ⟨n, hoffset, ⟨inner, hinner, hinner'⟩, tail, htail, htail'⟩ :=
          slices_behind hstop hcut (Block.head_of_cut hcut)
        simp only [hoffset, hinner, hinner', htail, htail', Option.bind_some, flatMap_pieces,
          length_pieces]
        rfl
  · have hhead : (c :: rest).head? ≠ some '(' := by simpa using hopen
    rw [if_pos (mt (leadByte_eq_iff (by decide)).mp hopen)]
    simp only [if_neg hhead]
    exact unused_eq htext

/-- No access of a round is out of range, and its parts lie around the first list. -/
theorem round_of_find? {p : ParameterList} (h : find? text = some p) :
    round text = some (roundOf p) := by
  obtain ⟨lead, list, beyond⟩ := p
  obtain ⟨htext, hcomma, hfirst, hlist, hlead, hbeyond⟩ := around_of_find? h
  simp only at htext hcomma hfirst hlist hlead hbeyond
  -- Offsets are measured from the first comma, which is within the list.
  obtain ⟨a, b, hsplit, ha⟩ := List.eq_append_cons_of_mem hcomma
  rw [hsplit, List.forall_mem_append] at hlist
  have htext' : text = (lead ++ a) ++ ',' :: (b ++ beyond) := by
    rw [htext, hsplit]
    simp
  have hnone : ∀ c ∈ lead ++ a, (c == ',') = false := by
    intro c hc
    rw [beq_eq_false_iff_ne]
    rintro rfl
    exact (List.mem_append.mp hc).elim hfirst ha
  have hoffset : offset? (· == ',') text = some (byteLength (lead ++ a)) := by
    rw [htext']
    exact offset?_append hnone rfl _
  obtain ⟨before, hbefore, hbefore'⟩ := slice?_front htext' rfl
  obtain ⟨behind, hbehind, hbehind'⟩ := slice?_back htext' rfl
  have hnext : offset? isDelimiter (',' :: (b ++ beyond))
      = (offset? isDelimiter beyond).map (byteLength (',' :: b) + ·) :=
    offset?_behind hlist.2 beyond
  rw [round, hoffset]
  simp only [hbefore, hbefore', hbehind, hbehind', start_eq hlead hlist.1, hnext,
    Option.bind_eq_bind, Option.bind_some]
  cases beyond with
  | nil => exact unused_eq htext
  | cons c rest =>
    have hc : isDelimiter c = true := hbeyond c rfl
    -- The delimiter that ends the list is found behind the comma, and so is at the end of the list.
    have hstop : byteLength (lead ++ a) + (byteLength (',' :: b) + 0)
        = byteLength (lead ++ list) := by
      rw [Nat.add_zero, ← byteLength_append, hsplit, List.append_assoc]
    rw [offset?, if_pos hc, Option.map_some]
    simp only [hstop]
    exact roundAt_eq htext

/-- Without a list, there is nothing left to do. -/
theorem round_of_none (h : find? text = none) : round text = some .finished := by
  rw [round, offset?_char, if_neg (find?_eq_none.mp h)]

/-- A round that goes on has written out the first list. -/
theorem expands_of_round {next : List Char} (h : round text = some (.rewritten next)) :
    Expands text next := by
  cases hfind : find? text with
  | none =>
    rw [round_of_none hfind] at h
    cases h
  | some p =>
    rw [round_of_find? hfind, Option.some.injEq, roundOf] at h
    split at h
    · split at h
      · cases h
      · rename_i hpieces
        split at h
        · cases h
        · rename_i hopen _ b hcut
          have hhead : b.head = [] := by
            rw [Block.head_of_cut hcut]
            obtain ⟨rest, hrest⟩ := List.head?_eq_some_iff.mp hopen
            rw [hrest]
            rfl
          have hbeyond := Block.text_eq_of_cut hcut
          rw [hhead, List.nil_append] at hbeyond
          cases h
          exact .list (around_of_find? hfind) (Bool.eq_false_iff.mpr hpieces) hbeyond
            (Block.balanced_of_cut hcut)
    · cases h

end

/-- Writes out every list of parameters, one round after the other. -/
def spellOut (text : List Char) : Option (Except SyntaxError (List Char)) :=
  match _h : round text with
  | none => none
  | some .finished => some (.ok text)
  | some (.refused e) => some (.error e)
  | some (.rewritten next) => spellOut next
termination_by text.count ','
decreasing_by exact (expands_of_round _h).count_lt

/-- What comes of the first list decides how it goes on. -/
theorem spellOutParameters_round {text : List Char} {p : ParameterList} (h : find? text = some p) :
    spellOutParameters text =
      match roundOf p with
      | .finished => .ok text
      | .refused e => .error e
      | .rewritten next => spellOutParameters next := by
  rw [spellOutParameters, roundOf]
  split
  · rename_i hnone
    cases h.symm.trans hnone
  · rename_i p' hfind
    cases h.symm.trans hfind
    split
    · split
      · rfl
      · split
        · rename_i hcut
          rw [hcut]
        · rename_i hcut
          rw [hcut]
    · rfl

/-- **Lists of parameters.** No access is out of range, in any round. -/
theorem spellOut_eq (text : List Char) : spellOut text = some (spellOutParameters text) := by
  rw [spellOut]
  cases hfind : find? text with
  | none =>
    have hround := round_of_none hfind
    rw [spellOutParameters_iff.mpr (.inl ⟨find?_eq_none.mp hfind, rfl⟩)]
    split
    · rename_i h
      cases hround.symm.trans h
    · rfl
    · rename_i h
      cases hround.symm.trans h
    · rename_i h
      cases hround.symm.trans h
  | some p =>
    have hround := round_of_find? hfind
    rw [spellOutParameters_round hfind]
    split
    · rename_i h
      cases hround.symm.trans h
    · rename_i h
      rw [Option.some.inj (hround.symm.trans h)]
    · rename_i h
      rw [Option.some.inj (hround.symm.trans h)]
    · rename_i next h
      -- Every round takes a comma away.
      have := (expands_of_round h).count_lt
      rw [Option.some.inj (hround.symm.trans h)]
      exact spellOut_eq next
termination_by text.count ','

/-! ### The front end -/

/-- Takes the abbreviations out of a program. -/
def desugar (text : List Char) : Option (Except SyntaxError Desugared) := do
  match ← peel text with
  | .error e => some (.error e)
  | .ok (definitions, expression) => do
    let core ← spellOut (removeBlanks (bindDefinitions definitions expression))
    some (core.map fun core => ⟨definitions.length, core⟩)

/-- **Desugaring.** It stays within its texts at every offset, and gives what it gives on
    characters. -/
theorem desugar_eq (text : List Char) : desugar text = some (DotLambda.desugar text) := by
  rw [desugar, peel_eq, DotLambda.desugar]
  cases peelDefinitions text with
  | error e => rfl
  | ok p =>
    obtain ⟨definitions, expression⟩ := p
    show (spellOut (removeBlanks (bindDefinitions definitions expression))).bind _ = _
    rw [spellOut_eq, Option.bind_some]
    dsimp only
    cases spellOutParameters (removeBlanks (bindDefinitions definitions expression)) with
    | error e => rfl
    | ok core => rfl

end Offsets

/-- **In range.** On every text the front end that goes by offsets makes no access out of range.  It
    gives what the front end gives that goes by characters: a program without its abbreviations or
    a syntax error, and a term with its names, a syntax error or a name that is bound twice. -/
theorem frontEnd_in_range (text : List Char) :
    (Offsets.desugar text = some (desugar text) ∧ Offsets.parse text = some (parse text)) ∧
    ((∃ program, Offsets.desugar text = some (.ok program)) ∨
      ∃ e : SyntaxError, Offsets.desugar text = some (.error e)) ∧
    ((∃ t names, Offsets.parse text = some (.ok (t, names))) ∨
      (∃ e : SyntaxError, Offsets.parse text = some (.error (.malformed e))) ∨
      ∃ name, Offsets.parse text = some (.error (.rebound name))) := by
  refine ⟨⟨Offsets.desugar_eq text, Offsets.parse_eq text⟩, ?_, ?_⟩
  · rw [Offsets.desugar_eq]
    cases desugar text with
    | error e => exact .inr ⟨e, rfl⟩
    | ok program => exact .inl ⟨program, rfl⟩
  · rw [Offsets.parse_eq]
    rcases parse text with (e | name) | ⟨t, names⟩
    · exact .inr (.inl ⟨e, rfl⟩)
    · exact .inr (.inr ⟨name, rfl⟩)
    · exact .inl ⟨t, names, rfl⟩

end DotLambda
