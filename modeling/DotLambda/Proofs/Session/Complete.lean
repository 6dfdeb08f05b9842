import DotLambda.Command.Interactive
import DotLambda.Proofs.Desugaring.Canonical

namespace DotLambda

/-!
# Sessions — entries that are complete

An entry goes on while it opens more parentheses than it closes.  The definitions of an entry may
each be out of balance, and binding them adds parentheses; a program as a whole closes what it
opens, so that no program is kept waiting for another line.

* `count_of_peel` — binding definitions adds two pairs of parentheses for each of them;
* `balanced_of_parse` — what can be read is balanced;
* `program_not_awaited` — a program is complete, and is answered with its last line.
-/

/-! ### Counting through desugaring -/

section

variable {p : Char}

/-- A parenthesis is neither dropped as white space nor cut away as the end of a definition. -/
theorem isParen_kept (hp : p = '(' ∨ p = ')') : isBlank p = false ∧ p ≠ ';' := by
  rcases hp with rfl | rfl <;> decide

/-- Blanks are no parentheses. -/
theorem count_removeBlanks (hp : p = '(' ∨ p = ')') (text : List Char) :
    (removeBlanks text).count p = text.count p :=
  List.count_filter (by simp [isParen_kept hp])

/-- The keyword of a definition is its first word, so that name and body have all parentheses. -/
theorem count_of_words (hp : p = '(' ∨ p = ')') {inside keyword name first : List Char}
    {more : List (List Char)} (hstart : startsDefinition inside = true)
    (hwords : words inside = keyword :: name :: first :: more) :
    inside.count p = name.count p + (first :: more).flatten.count p := by
  have hkeyword : keyword = ['l', 'e', 't'] := by
    obtain ⟨c, rest, rfl, hc⟩ := startsDefinition_cases hstart
    have hlet : ∀ c ∈ ['l', 'e', 't'], isBlank c = false := by simp [isBlank]
    have hbehind : ∀ d ∈ (c :: rest).head?, isBlank d = true := by
      rintro d ⟨⟩
      exact isBlank_of_isAsciiBlank hc
    have hfirst := words_append (List.cons_ne_nil _ _) hlet hbehind
    exact (List.cons.inj (hwords.symm.trans hfirst)).1
  have hnone : keyword.count p = 0 := by
    rw [hkeyword]
    rcases hp with rfl | rfl <;> decide
  rw [← count_removeBlanks hp, ← words_flatten, hwords, List.flatten_cons, List.flatten_cons,
    List.count_append, List.count_append, hnone, Nat.zero_add]

/-- A definition around a text brings in one pair of parentheses and those in its body. -/
theorem count_around (hp : p = '(' ∨ p = ')') (d : Definition) (text : List Char) :
    (d.around text).count p
      = d.name.toList.count p + d.body.toList.count p + text.count p + 2 := by
  rw [Definition.around_eq]
  rcases hp with rfl | rfl
  · simp only [List.count_append, List.count_cons_self,
      List.count_cons_of_ne (by decide : ')' ≠ '('), List.count_cons_of_ne (by decide : '.' ≠ '('),
      List.count_nil]
    omega
  · simp only [List.count_append, List.count_cons_self,
      List.count_cons_of_ne (by decide : '(' ≠ ')'), List.count_cons_of_ne (by decide : '.' ≠ ')'),
      List.count_nil]
    omega

/-- **Definitions.** Peeling definitions off and binding them around the rest keeps all parentheses
    and adds two of each kind for every definition. -/
theorem count_of_peel (hp : p = '(' ∨ p = ')') {source rest : List Char} {ds : List Definition}
    (h : peelDefinitions source = .ok (ds, rest)) :
    (bindDefinitions ds rest).count p = source.count p + 2 * ds.length := by
  obtain ⟨hblank, hsemicolon⟩ := isParen_kept hp
  fun_induction peelDefinitions source generalizing ds rest with
  | case1 => cases h
  | case2 => cases h
  | case3 text start hstart c after hcut inside _ name first more hwords ds' _ hafter =>
    rename_i body ih
    cases h
    -- Neither the blanks in front nor the semicolon are parentheses.
    have hlead : (text.takeWhile isBlank).count p = 0 := by
      rw [List.count_eq_zero]
      intro hmem
      rw [List.mem_takeWhile_imp hmem] at hblank
      cases hblank
    have hinside : ((trimStart text).takeWhile fun c => c != ';').count p
        = name.count p + body.count p :=
      count_of_words hp (startsDefinition_takeWhile hstart) hwords
    have hbound := ih hafter
    rw [text_of_semicolon hcut, List.count_append, List.count_append,
      List.count_cons_of_ne (Ne.symm hsemicolon), hlead]
    rw [bindDefinitions, List.foldr_cons, ← bindDefinitions, count_around hp, String.toList_ofList,
      String.toList_ofList, List.length_cons]
    omega
  | case4 => cases h
  | case5 =>
    cases h
    rfl

end

/-! ### Programs -/

/-- What can be read is balanced. -/
theorem balanced_of_parse {text : List Char} {t : Term} {names : Names}
    (h : parse text = .ok (t, names)) : Balanced (removeBlanks text) := by
  obtain ⟨s, hreads, -⟩ := reads_of_parse h
  exact (hreads.placed Scope.sound_empty).2

/-- The text of an entry with one more line. -/
def Interactive.gathered (i : Interactive) (line : String) : String :=
  if i.entry.isEmpty then line else i.entry ++ "\n" ++ line

/-- An answer leaves nothing of the entry. -/
theorem Interactive.entry_answer (i : Interactive) (entry : String) :
    (i.answer entry).1.entry = i.entry := by
  unfold answer
  split
  · rfl
  · split
    · split <;> rfl
    · split <;> rfl

/-- What does not await more is answered. -/
theorem Interactive.entry_feed {i : Interactive} {line : String}
    (h : awaitsMore (i.gathered line).toList = false) : (i.feed line).1.entry = "" := by
  unfold feed
  extract_lets text done entry flat
  have hdone : ¬ awaitsMore text.toList = true := by
    rw [Bool.not_eq_true]
    exact h
  rw [if_neg hdone]
  split
  · rfl
  · rw [entry_answer]

/-- **Programs are complete.** A source that can be desugared and read closes as many parentheses as
    it opens.  So no more text is awaited, and an entry that has become a program is answered with
    the line that made it one. -/
theorem program_not_awaited {source : List Char} {program : Desugared} {t : Term} {names : Names}
    (hdesugar : desugar source = .ok program) (hparse : parse program.text = .ok (t, names)) :
    source.count '(' = source.count ')' ∧ awaitsMore source = false ∧
      ∀ (i : Interactive) (line : String), (i.gathered line).toList = source →
        (i.feed line).1.entry = "" := by
  have hcount : source.count '(' = source.count ')' := by
    cases hpeel : peelDefinitions source with
    | error e =>
      rw [desugar, hpeel] at hdesugar
      cases hdesugar
    | ok peel =>
      obtain ⟨ds, rest⟩ := peel
      have hspell := spellOut_of_desugar hpeel hdesugar
      have hread := balanced_of_parse hparse
      -- Lists of parameters, when written out, keep the balance of the text that they stand in.
      rw [removeBlanks_of_spellOut hspell, balanced_spellOut hspell] at hread
      have hbound := hread.count_eq
      -- Both counts have grown by the same number.
      rw [count_removeBlanks (.inl rfl), count_removeBlanks (.inr rfl),
        count_of_peel (.inl rfl) hpeel, count_of_peel (.inr rfl) hpeel] at hbound
      omega
  have hdone : awaitsMore source = false := by
    rw [awaitsMore, hcount, decide_eq_false_iff_not]
    exact Nat.lt_irrefl _
  refine ⟨hcount, hdone, fun i line hline => Interactive.entry_feed ?_⟩
  rw [hline]
  exact hdone

/-- Two definitions that are out of balance one by one, on two lines of which the first awaits
    more. -/
theorem program_not_awaited_unbalanced :
    let i : Interactive :=
      { session := {}, watched := false, history := [], entry := "let f a)); let g ((b(" }
    awaitsMore i.entry.toList = true ∧
      desugar "let f a)); let g ((b(\nc); x".toList
        = .ok ⟨2, "f(g(x).(((b(c))).(a)))".toList⟩ ∧
      parse "f(g(x).(((b(c))).(a)))".toList
        = .ok (.abs 0 (.abs 4 (.var 5) (.abs 2 (.var 3) (.var 1))) .absent,
          #["f", "a", "b", "c", "g", "x"]) ∧
      awaitsMore "let f a)); let g ((b(\nc); x".toList = false ∧ (i.feed "c); x").1.entry = "" := by
  intro i
  have hdesugar : desugar "let f a)); let g ((b(\nc); x".toList
      = .ok ⟨2, "f(g(x).(((b(c))).(a)))".toList⟩ := by cbv
  have hparse : parse "f(g(x).(((b(c))).(a)))".toList
      = .ok (.abs 0 (.abs 4 (.var 5) (.abs 2 (.var 3) (.var 1))) .absent,
        #["f", "a", "b", "c", "g", "x"]) := by cbv
  obtain ⟨-, hdone, hanswered⟩ := program_not_awaited hdesugar hparse
  exact ⟨by decide, hdesugar, hparse, hdone, hanswered i "c); x" (by decide)⟩

end DotLambda
