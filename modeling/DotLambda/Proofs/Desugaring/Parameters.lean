import DotLambda.Parameters
import DotLambda.Proofs.Reading.Blocks

namespace DotLambda

/-!
# Desugaring — lists of parameters

Writing out lists of parameters is a rewriting of texts, one list at a time.

* `Expands` — one list is written out, the first in the text;
* `spellOutParameters_iff`, `spellOutParameters_induct` — all lists are written out one by one;
* `Expands.depthBehind_eq` — this opens and closes the same parentheses;
* `spellOutParameters_within` — what stands between parentheses is written out by itself;
* `spellOutParameters_behind` — what stands in front and has no comma is left as it is.
-/

open ParameterList

/-! ### The first list -/

/-- A name may begin behind the text. -/
def EndsName (text : List Char) : Prop :=
  ∀ c, text.getLast? = some c → isDelimiter c = true

/-- No name goes on in the text. -/
def StopsName (text : List Char) : Prop :=
  ∀ c, text.head? = some c → isDelimiter c = true

/-- Two texts that each end where a name may begin do so together. -/
theorem EndsName.append {s t : List Char} (hs : EndsName s) (ht : EndsName t) :
    EndsName (s ++ t) := by
  intro c hc
  rw [List.getLast?_append] at hc
  rcases Option.or_eq_some_iff.mp hc with h | ⟨-, h⟩
  · exact ht c h
  · exact hs c h

/-- Two texts that each begin where a name may end do so together. -/
theorem StopsName.append {s t : List Char} (hs : StopsName s) (ht : StopsName t) :
    StopsName (s ++ t) := by
  intro c hc
  rw [List.head?_append] at hc
  rcases Option.or_eq_some_iff.mp hc with h | ⟨-, h⟩
  · exact hs c h
  · exact ht c h

/-- The parts of a text around its first list of parameters. -/
structure ParameterList.Around (p : ParameterList) (text : List Char) : Prop where
  text_eq : text = p.lead ++ (p.list ++ p.beyond)
  comma : ',' ∈ p.list
  first : ',' ∉ p.lead
  list : ∀ c ∈ p.list, isDelimiter c = false
  lead : EndsName p.lead
  beyond : StopsName p.beyond

/-- What is found is a list of parameters with the text around it. -/
theorem ParameterList.around_of_find? {text : List Char} {p : ParameterList}
    (h : find? text = some p) : p.Around text := by
  obtain ⟨htext, hcomma⟩ := text_eq_of_find? h
  unfold find? at h
  split at h
  · cases h
  · rename_i comma rest hrest
    have hfirst : ∀ c ∈ (text.takeWhile fun c => c != ',').reverse, c ≠ ',' := fun c hc => by
      simpa using List.mem_takeWhile_imp (List.mem_reverse.mp hc)
    have hcomma' : comma = ',' := by
      have hstop := List.head?_dropWhile_not (fun c => c != ',') text
      simpa [hrest] using hstop
    cases h
    -- The first comma is in the list; the list has no delimiters, and has them around it.
    refine ⟨htext, hcomma, fun hmem => ?_, fun c hc => ?_, fun c hc => ?_, fun c hc => ?_⟩
    · have hmem := (List.dropWhile_sublist _).subset (List.mem_reverse.mp hmem)
      exact hfirst _ hmem rfl
    · rcases List.mem_append.mp hc with hc | hc
      · simpa using List.mem_takeWhile_imp (List.mem_reverse.mp hc)
      · rcases List.mem_cons.mp hc with rfl | hc
        · rw [hcomma']
          rfl
        · simpa using List.mem_takeWhile_imp hc
    · rw [List.getLast?_reverse] at hc
      have hstop := List.head?_dropWhile_not (fun c => !isDelimiter c)
        (text.takeWhile fun c => c != ',').reverse
      simpa [hc] using hstop
    · have hstop := List.head?_dropWhile_not (fun c => !isDelimiter c) rest
      simpa [hc] using hstop

/-- The first list is where it stands. -/
theorem ParameterList.Around.find?_eq {text : List Char} {p : ParameterList} (h : p.Around text) :
    find? text = some p := by
  obtain ⟨lead, list, beyond⟩ := p
  obtain ⟨rfl, hcomma, hfirst, hlist, hlead, hbeyond⟩ := h
  -- The search starts from the first comma, and collects the list on both sides of it.
  obtain ⟨a, b, rfl, ha⟩ := List.eq_append_cons_of_mem hcomma
  have hname : ∀ c ∈ a ++ b, (!isDelimiter c) = true := fun c hc => by
    rw [Bool.not_eq_true']
    refine hlist c ?_
    rcases List.mem_append.mp hc with hc | hc
    · exact List.mem_append_left _ hc
    · exact List.mem_append_right _ (List.mem_cons_of_mem _ hc)
  rw [List.forall_mem_append] at hname
  have hbefore : ∀ c ∈ lead ++ a, (c != ',') = true := fun c hc => by
    rw [bne_iff_ne]
    rintro rfl
    exact (List.mem_append.mp hc).elim hfirst ha
  have hsplit : lead ++ ((a ++ ',' :: b) ++ beyond) = (lead ++ a) ++ ',' :: (b ++ beyond) := by
    simp
  -- On either side it ends where the list does.
  have hlead' : lead.reverse.takeWhile (fun c => !isDelimiter c) = [] ∧
      lead.reverse.dropWhile (fun c => !isDelimiter c) = lead.reverse := by
    cases hlast : lead.reverse with
    | nil => exact ⟨rfl, rfl⟩
    | cons c rest =>
      have hc := hlead c (by rw [← List.head?_reverse, hlast]; rfl)
      simp [hc]
  have hbeyond' : beyond.takeWhile (fun c => !isDelimiter c) = [] ∧
      beyond.dropWhile (fun c => !isDelimiter c) = beyond := by
    cases beyond with
    | nil => exact ⟨rfl, rfl⟩
    | cons c rest =>
      have hc := hbeyond c rfl
      simp [hc]
  have hname' : ∀ c ∈ a.reverse, (!isDelimiter c) = true := fun c hc =>
    hname.1 c (List.mem_reverse.mp hc)
  have htake : (lead ++ ((a ++ ',' :: b) ++ beyond)).takeWhile (fun c => c != ',') = lead ++ a := by
    rw [hsplit, List.takeWhile_append_of_pos hbefore]
    simp
  have hdrop : (lead ++ ((a ++ ',' :: b) ++ beyond)).dropWhile (fun c => c != ',')
      = ',' :: (b ++ beyond) := by
    rw [hsplit, List.dropWhile_append_of_pos hbefore]
    simp
  unfold find?
  rw [hdrop, htake]
  simp only [List.reverse_append, List.takeWhile_append_of_pos hname',
    List.dropWhile_append_of_pos hname', List.takeWhile_append_of_pos hname.2,
    List.dropWhile_append_of_pos hname.2, hlead', hbeyond', List.append_nil, List.reverse_reverse]

/-- A text without commas has no list. -/
theorem ParameterList.find?_eq_none {text : List Char} : find? text = none ↔ ',' ∉ text := by
  constructor
  · intro h hmem
    unfold find? at h
    split at h
    · rename_i hnil
      exact absurd (List.dropWhile_eq_nil_iff.mp hnil ',' hmem) (by decide)
    · cases h
  · intro h
    have hnil : text.dropWhile (fun c => c != ',') = [] := by
      rw [List.dropWhile_eq_nil_iff]
      intro c hc
      rw [bne_iff_ne]
      rintro rfl
      exact h hc
    unfold find?
    rw [hnil]

/-- The first list of a part is the first list of the text, if there is none before it. -/
theorem ParameterList.Around.within {mid start rest : List Char} {p : ParameterList}
    (h : p.Around mid) (hfirst : ',' ∉ start) (hstart : EndsName start) (hrest : StopsName rest) :
    (⟨start ++ p.lead, p.list, p.beyond ++ rest⟩ : ParameterList).Around
      (start ++ (mid ++ rest)) where
  text_eq := by
    rw [h.text_eq]
    simp
  comma := h.comma
  first := fun hmem => (List.mem_append.mp hmem).elim hfirst h.first
  list := h.list
  lead := hstart.append h.lead
  beyond := h.beyond.append hrest

/-! ### One list after the other -/

/-- The first list of a text is written out. -/
inductive Expands : List Char → List Char → Prop where
  | list {text : List Char} {p : ParameterList} {inner tail : List Char} (hp : p.Around text)
      (hpieces : (pieces ',' p.list).any List.isEmpty = false)
      (hbeyond : p.beyond = '(' :: (inner ++ ')' :: tail)) (hinner : Balanced inner) :
      Expands text (p.lead ++ (opened p.list ++ (inner ++ (closed p.list ++ tail))))

/-- Spelling out is done when no comma is left, and otherwise goes on from a text in which one list
    is spelled out. -/
theorem spellOutParameters_iff {text core : List Char} :
    spellOutParameters text = .ok core ↔
      ',' ∉ text ∧ core = text ∨
        ∃ next, Expands text next ∧ spellOutParameters next = .ok core := by
  constructor
  · intro h
    rw [spellOutParameters] at h
    split at h
    · rename_i hnone
      cases h
      exact .inl ⟨find?_eq_none.mp hnone, rfl⟩
    · rename_i p hp
      split at h
      · rename_i hopen
        split at h
        · cases h
        · rename_i hpieces
          split at h
          · cases h
          · rename_i block hcut
            -- The text beyond the list opens with its parenthesis, so nothing is in front of the
            -- block.
            have hhead : block.head = [] := by
              rw [Block.head_of_cut hcut]
              obtain ⟨rest, hrest⟩ := List.head?_eq_some_iff.mp hopen
              rw [hrest]
              rfl
            have hbeyond := Block.text_eq_of_cut hcut
            rw [hhead, List.nil_append] at hbeyond
            exact .inr ⟨_, .list (around_of_find? hp) (Bool.not_eq_true _ ▸ hpieces) hbeyond
              (Block.balanced_of_cut hcut), h⟩
      · cases h
  · rintro (⟨hnone, rfl⟩ | ⟨next, hexpands, hnext⟩)
    · rw [spellOutParameters]
      split
      · rfl
      · rename_i p hp
        rw [find?_eq_none.mpr hnone] at hp
        cases hp
    · -- The list that is expanded is the one that is found, and its block is cut out as given.
      cases hexpands with
      | @list p inner tail hp hpieces hbeyond hinner =>
        rw [spellOutParameters]
        split
        · rename_i hnone
          rw [hp.find?_eq] at hnone
          cases hnone
        · rename_i q hq
          rw [hp.find?_eq, Option.some.injEq] at hq
          subst hq
          rw [if_pos (by rw [hbeyond]; rfl), if_neg (by rw [hpieces]; exact Bool.false_ne_true)]
          split
          · rename_i fault hcut
            rw [hbeyond, Block.cut_opened hinner] at hcut
            cases hcut
          · rename_i block hcut
            rw [hbeyond, Block.cut_opened hinner, Except.ok.injEq] at hcut
            subst hcut
            exact hnext

/-- Writing out a list takes its commas away. -/
theorem Expands.count_lt {text next : List Char} (h : Expands text next) :
    next.count ',' < text.count ',' := by
  obtain ⟨hp, -, hbeyond, -⟩ := h
  rename_i p inner tail
  have hcomma := List.count_pos_iff.mpr hp.comma
  have hblock : p.beyond.count ',' = inner.count ',' + tail.count ',' := by
    rw [hbeyond]
    simp
  rw [hp.text_eq]
  simp only [List.count_append, count_opened, count_closed, hblock]
  omega

/-- What passes from a text with one list less to the text holds of every text that can be written
    out. -/
theorem spellOutParameters_induct {P : List Char → List Char → Prop}
    (done : ∀ text, ',' ∉ text → P text text)
    (step : ∀ text next core, Expands text next → P next core → P text core)
    {text core : List Char} (h : spellOutParameters text = .ok core) : P text core := by
  induction hn : text.count ',' using Nat.strong_induction_on generalizing text with
  | _ n ih =>
    rcases spellOutParameters_iff.mp h with ⟨hnone, rfl⟩ | ⟨next, hexpands, hnext⟩
    · exact done core hnone
    · exact step text next core hexpands (ih _ (hn ▸ hexpands.count_lt) hnext rfl)

/-- No comma is left when parameters are spelled out. -/
theorem not_comma_of_spellOut {text core : List Char} (h : spellOutParameters text = .ok core) :
    ',' ∉ core :=
  spellOutParameters_induct (P := fun _ core => ',' ∉ core) (fun _ h => h) (fun _ _ _ _ h => h) h

/-! ### Parentheses -/

section

variable {text next core : List Char}

/-- What is not a delimiter is not a parenthesis. -/
theorem not_paren_of_not_isDelimiter {c : Char} (h : isDelimiter c = false) :
    c ≠ '(' ∧ c ≠ ')' := by
  simp only [isDelimiter, Bool.or_eq_false_iff, beq_eq_false_iff_ne] at h
  exact h.1

/-- A list that is written out opens a parenthesis for each of its names. -/
theorem depthBehind_opened {list : List Char} (h : ∀ c ∈ list, isDelimiter c = false)
    (depth : Nat) (rest : List Char) :
    depthBehind depth (opened list ++ rest) = depthBehind (depth + (list.count ',' + 1)) rest := by
  induction list generalizing depth with
  | nil => exact depthBehind_open depth rest
  | cons c list ih =>
    rw [List.forall_mem_cons] at h
    by_cases hc : c = ','
    · subst hc
      have hopened : opened (',' :: list) = '(' :: opened list := rfl
      rw [hopened, List.cons_append, depthBehind_open, ih h.2, List.count_cons_self]
      congr 1
      omega
    · have hopened : opened (c :: list) = c :: opened list := by
        simp [opened, hc]
      obtain ⟨hopen, hclose⟩ := not_paren_of_not_isDelimiter h.1
      rw [hopened, List.cons_append, depthBehind_other hopen hclose, ih h.2,
        List.count_cons_of_ne hc]

/-- As many are closed behind the block. -/
theorem depthBehind_closed (list : List Char) (depth : Nat) (rest : List Char) :
    depthBehind (depth + (list.count ',' + 1)) (closed list ++ rest) = depthBehind depth rest := by
  unfold closed
  induction list.count ',' + 1 with
  | zero => rfl
  | succ n ih =>
    rw [List.replicate_succ, List.cons_append, ← Nat.add_assoc, depthBehind_close, ih]

/-- Writing out a list opens and closes the same parentheses. -/
theorem Expands.depthBehind_eq (h : Expands text next) (depth : Nat) :
    depthBehind depth next = depthBehind depth text := by
  obtain ⟨hp, -, hbeyond, hinner⟩ := h
  rename_i p inner tail
  have hlist : Balanced p.list :=
    balanced_of_not_paren fun c hc => not_paren_of_not_isDelimiter (hp.list c hc)
  have hsame : ∀ depth, depthBehind depth (opened p.list ++ (inner ++ (closed p.list ++ tail)))
      = depthBehind depth (p.list ++ p.beyond) := by
    intro depth
    rw [depthBehind_opened hp.list, hinner.depthBehind_append, depthBehind_closed,
      hlist.depthBehind_append, hbeyond, depthBehind_open, hinner.depthBehind_append,
      depthBehind_close]
  rw [hp.text_eq, depthBehind_append, depthBehind_append depth p.lead]
  simp only [hsame]

/-- Spelling out does not change how deep the parentheses are behind a text. -/
theorem depthBehind_of_spellOut (h : spellOutParameters text = .ok core) (depth : Nat) :
    depthBehind depth core = depthBehind depth text :=
  spellOutParameters_induct (P := fun text core => depthBehind depth core = depthBehind depth text)
    (fun _ _ => rfl) (fun _ _ _ hexpands h => h.trans (hexpands.depthBehind_eq depth)) h

/-- A text with its lists written out is balanced if the text is, and only then. -/
theorem balanced_spellOut (h : spellOutParameters text = .ok core) :
    Balanced core ↔ Balanced text := by
  rw [balanced_iff, balanced_iff, depthBehind_of_spellOut h]

/-! ### Parts of a text -/

variable {start mid rest : List Char}

/-- A list in a part of a text is written out inside this part. -/
theorem Expands.within (hfirst : ',' ∉ start) (hstart : EndsName start) (hmid : Balanced mid)
    (hcomma : ',' ∈ mid) (hrest : rest = [] ∨ ∃ tail, rest = ')' :: tail)
    (h : Expands (start ++ (mid ++ rest)) next) :
    ∃ mid', Expands mid mid' ∧ next = start ++ (mid' ++ rest) := by
  have hstops : StopsName rest := by
    rcases hrest with rfl | ⟨tail, rfl⟩
    · nofun
    · rintro c ⟨⟩
      rfl
  cases hfind : find? mid with
  | none => exact absurd hcomma (find?_eq_none.mp hfind)
  | some p =>
    have hp := around_of_find? hfind
    obtain ⟨hq, hpieces, hbeyond, hinner⟩ := h
    rename_i q inner tail
    -- Both are the first list of the text.
    have hsame := hq.find?_eq
    rw [(hp.within hfirst hstart hstops).find?_eq, Option.some.injEq] at hsame
    subst hsame
    have hopen : ∃ behind, p.beyond = '(' :: behind := by
      cases hb : p.beyond with
      | nil =>
        rw [hb, List.nil_append] at hbeyond
        rcases hrest with rfl | ⟨tail, rfl⟩
        · cases hbeyond
        · cases hbeyond
      | cons c behind =>
        rw [hb, List.cons_append, List.cons.injEq] at hbeyond
        exact ⟨behind, by rw [hbeyond.1]⟩
    obtain ⟨behind, hbehind⟩ := hopen
    -- The part is balanced, so the block is closed in it.
    have hdepth := balanced_iff.mp hmid
    rw [hp.text_eq, ← List.append_assoc, depthBehind_append, Option.bind_eq_some_iff] at hdepth
    obtain ⟨depth, -, hdepth⟩ := hdepth
    rw [hbehind] at hdepth
    obtain ⟨inner', tail', rfl, hinner'⟩ := cut_of_depthBehind hdepth
    have hcut := Block.cut_opened hinner tail
    have hlonger : p.beyond ++ rest = '(' :: (inner' ++ ')' :: (tail' ++ rest)) := by
      rw [hbehind]
      simp
    simp only at hbeyond
    rw [← hbeyond, hlonger, Block.cut_opened hinner', Except.ok.injEq, Block.mk.injEq] at hcut
    obtain ⟨-, rfl, rfl⟩ := hcut
    refine ⟨_, .list hp hpieces hbehind hinner', ?_⟩
    simp

/-- **Parts of a text.** What stands between parentheses is written out by itself. -/
theorem spellOutParameters_within (hfirst : ',' ∉ start) (hstart : EndsName start)
    (hmid : Balanced mid) (hrest : rest = [] ∨ ∃ tail, rest = ')' :: tail)
    (h : spellOutParameters (start ++ (mid ++ rest)) = .ok core) :
    ∃ mid', spellOutParameters mid = .ok mid' ∧
      spellOutParameters (start ++ (mid' ++ rest)) = .ok core := by
  induction hn : mid.count ',' using Nat.strong_induction_on generalizing mid with
  | _ n ih =>
    by_cases hcomma : ',' ∈ mid
    · rcases spellOutParameters_iff.mp h with ⟨hnone, -⟩ | ⟨next, hexpands, hnext⟩
      · exact absurd (List.mem_append_right _ (List.mem_append_left _ hcomma)) hnone
      · obtain ⟨mid₁, hmid₁, rfl⟩ := hexpands.within hfirst hstart hmid hcomma hrest
        have hbalanced : Balanced mid₁ := by
          rw [balanced_iff, hmid₁.depthBehind_eq]
          exact balanced_iff.mp hmid
        obtain ⟨mid', hspell, hcore⟩ := ih _ (hn ▸ hmid₁.count_lt) hbalanced hnext rfl
        exact ⟨mid', spellOutParameters_iff.mpr (.inr ⟨mid₁, hmid₁, hspell⟩), hcore⟩
    · exact ⟨mid, spellOutParameters_iff.mpr (.inl ⟨hcomma, rfl⟩), h⟩

/-- A text in front that has no comma, and behind which a name may begin, has no part in writing out
    the first list. -/
theorem expands_behind (hfirst : ',' ∉ start) (hstart : EndsName start) :
    Expands (start ++ mid) next ↔ ∃ mid', Expands mid mid' ∧ next = start ++ mid' := by
  have hnone : StopsName [] := by
    rintro c ⟨⟩
  have hwithin {p : ParameterList} (hp : p.Around mid) :
      (⟨start ++ p.lead, p.list, p.beyond⟩ : ParameterList).Around (start ++ mid) := by
    have h := hp.within hfirst hstart hnone
    rwa [List.append_nil, List.append_nil] at h
  constructor
  · rintro ⟨hq, hpieces, hbeyond, hinner⟩
    cases hfind : find? mid with
    | none =>
      -- A list of the whole text has its comma behind the front.
      have hcomma : ',' ∉ start ++ mid := by
        rw [List.mem_append, not_or]
        exact ⟨hfirst, find?_eq_none.mp hfind⟩
      rw [← find?_eq_none, hq.find?_eq] at hcomma
      cases hcomma
    | some p =>
      have hp := around_of_find? hfind
      have hsame := hq.find?_eq
      rw [(hwithin hp).find?_eq, Option.some.injEq] at hsame
      subst hsame
      exact ⟨_, .list hp hpieces hbeyond hinner, by simp⟩
  · rintro ⟨mid', ⟨hp, hpieces, hbeyond, hinner⟩, rfl⟩
    have h := Expands.list (hwithin hp) hpieces hbeyond hinner
    rwa [List.append_assoc] at h

/-- **What stands in front.** A text without commas in front of another is left as it is. -/
theorem spellOutParameters_behind (hfirst : ',' ∉ start) (hstart : EndsName start) :
    spellOutParameters (start ++ mid) = .ok core ↔
      ∃ mid', spellOutParameters mid = .ok mid' ∧ core = start ++ mid' := by
  induction hn : mid.count ',' using Nat.strong_induction_on generalizing mid with
  | _ n ih =>
    rw [spellOutParameters_iff]
    constructor
    · rintro (⟨hnone, rfl⟩ | ⟨next, hexpands, hnext⟩)
      · have hmid : ',' ∉ mid := fun h => hnone (List.mem_append_right _ h)
        exact ⟨mid, spellOutParameters_iff.mpr (.inl ⟨hmid, rfl⟩), rfl⟩
      · obtain ⟨mid₁, hmid₁, rfl⟩ := (expands_behind hfirst hstart).mp hexpands
        obtain ⟨mid', hspell, rfl⟩ := (ih _ (hn ▸ hmid₁.count_lt) rfl).mp hnext
        exact ⟨mid', spellOutParameters_iff.mpr (.inr ⟨mid₁, hmid₁, hspell⟩), rfl⟩
    · rintro ⟨mid', hspell, rfl⟩
      rcases spellOutParameters_iff.mp hspell with ⟨hnone, rfl⟩ | ⟨mid₁, hmid₁, hnext⟩
      · refine .inl ⟨?_, rfl⟩
        rw [List.mem_append, not_or]
        exact ⟨hfirst, hnone⟩
      · refine .inr ⟨start ++ mid₁, (expands_behind hfirst hstart).mpr ⟨mid₁, hmid₁, rfl⟩, ?_⟩
        exact (ih _ (hn ▸ hmid₁.count_lt) rfl).mpr ⟨mid', hnext, rfl⟩

/-- Writing out lists puts in nothing but parentheses. -/
theorem mem_of_spellOut (h : spellOutParameters text = .ok core) :
    ∀ c ∈ core, c ∈ text ∨ c = '(' ∨ c = ')' := by
  refine spellOutParameters_induct (P := fun text core => ∀ c ∈ core, c ∈ text ∨ c = '(' ∨ c = ')')
    (fun _ _ c hc => .inl hc) (fun text next core hexpands h c hc => ?_) h
  rcases h c hc with hnext | hparen
  · obtain ⟨hp, -, hbeyond, -⟩ := hexpands
    rename_i p inner tail
    rw [hp.text_eq, hbeyond]
    simp only [opened, closed, List.mem_append, List.mem_map, List.mem_replicate, List.mem_cons,
      List.not_mem_nil, or_false] at hnext ⊢
    rcases hnext with hc | (⟨d, hd, rfl⟩ | rfl) | hc | ⟨-, rfl⟩ | hc
    · simp [hc]
    · split
      · simp
      · simp [hd]
    · simp
    · simp [hc]
    · simp
    · simp [hc]
  · exact .inr hparen

end

end DotLambda
