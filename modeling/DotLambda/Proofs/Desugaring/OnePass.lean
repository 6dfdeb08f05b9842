import DotLambda.Proofs.Desugaring.Parameters
import Mathlib.Data.List.Basic

namespace DotLambda

/-!
# Desugaring — lists of parameters in one pass

Lists of parameters are written out one at a time, and each time the whole text is searched again.
The outcome is that of a single pass over the text, from left to right, that keeps in mind how many
names stand in front of each block that is open.

* `ParameterList.Splits` — any list of a text, not only the first;
* `Spellable` — what a list has to be like;
* `everyList_append` — the lists of a text are those before a delimiter and those behind it;
* `Pass` — the single pass;
* `Expands.everyList_iff`, `Expands.writeAll_eq` — writing out one list changes nothing about the
  others, and nothing about the pass;
* `spellOutParameters_one_pass` — writing out all lists is the single pass.
-/

open ParameterList

/-! ### All lists of a text -/

/-- The parts of a text around one of its lists of parameters: a run of characters between
    delimiters, as long as possible, with a comma in it. -/
structure ParameterList.Splits (p : ParameterList) (text : List Char) : Prop where
  text_eq : text = p.lead ++ (p.list ++ p.beyond)
  comma : ',' ∈ p.list
  list : ∀ c ∈ p.list, isDelimiter c = false
  lead : EndsName p.lead
  beyond : StopsName p.beyond

/-- A list can be written out where `beyond` stands behind it: it has no empty entry, and a
    parenthesis follows directly that is closed further on. -/
structure Spellable (list beyond : List Char) : Prop where
  entries : ∀ name ∈ pieces ',' list, name ≠ []
  block : ∃ inner tail, beyond = '(' :: (inner ++ ')' :: tail) ∧ depthBehind 0 inner = some 0

/-- It holds of each list of the text and of what stands behind it. -/
def EveryList (P : (list beyond : List Char) → Prop) (text : List Char) : Prop :=
  ∀ p : ParameterList, p.Splits text → P p.list p.beyond

/-- Whether a text ends where a name may begin is told by its last part. -/
theorem EndsName.of_append {s t : List Char} (h : EndsName (s ++ t)) : EndsName t := by
  intro c hc
  refine h c ?_
  rw [List.getLast?_append, hc]
  rfl

/-- Whether a text begins where a name may end is told by its first part. -/
theorem StopsName.of_append {s t : List Char} (h : StopsName (s ++ t)) : StopsName s := by
  intro c hc
  refine h c ?_
  rw [List.head?_append, hc]
  rfl

/-- Behind a delimiter a name may begin. -/
theorem endsName_concat (s : List Char) {c : Char} (hc : isDelimiter c = true) :
    EndsName (s ++ [c]) := by
  intro d hd
  rw [List.getLast?_concat, Option.some.injEq] at hd
  exact hd ▸ hc

/-- At a delimiter a name ends. -/
theorem stopsName_cons {c : Char} (hc : isDelimiter c = true) (t : List Char) :
    StopsName (c :: t) := by
  rintro d ⟨⟩
  exact hc

section

variable {P : (list beyond : List Char) → Prop} {s t : List Char} {c : Char}

/-- What holds of every list holds of the one that is split off. -/
theorem EveryList.apply {lead list beyond : List Char} (h : EveryList P s)
    (hp : (⟨lead, list, beyond⟩ : ParameterList).Splits s) : P list beyond :=
  h _ hp

/-- A text without a comma has no list of parameters. -/
theorem everyList_of_not_comma (h : ',' ∉ s) : EveryList P s := by
  intro p hp
  refine absurd ?_ h
  rw [hp.text_eq]
  exact List.mem_append_right _ (List.mem_append_left _ hp.comma)

/-- A list lies on one side of a delimiter. -/
theorem ParameterList.Splits.append_cases {p : ParameterList} (hc : isDelimiter c = true)
    (hp : p.Splits (s ++ c :: t)) :
    (∃ rest, p.beyond = rest ++ c :: t ∧ (⟨p.lead, p.list, rest⟩ : ParameterList).Splits s) ∨
      ∃ front, (⟨front, p.list, p.beyond⟩ : ParameterList).Splits t := by
  obtain ⟨lead, list, beyond⟩ := p
  obtain ⟨htext, hcomma, hlist, hlead, hbeyond⟩ := hp
  simp only at htext hcomma hlist hlead hbeyond ⊢
  have hout : c ∉ list := fun hmem => by
    rw [hlist c hmem] at hc
    cases hc
  rcases List.append_eq_append_iff.mp htext with ⟨front, rfl, hfront⟩ | ⟨more, rfl, hmore⟩
  · cases front with
    | nil =>
      -- The list would begin with the delimiter.
      cases list with
      | nil => exact absurd hcomma List.not_mem_nil
      | cons d list =>
        rw [List.nil_append, List.cons_append, List.cons.injEq] at hfront
        exact absurd (hfront.1 ▸ List.mem_cons_self) hout
    | cons d front =>
      rw [List.cons_append, List.cons.injEq] at hfront
      have hfront' : EndsName front := by
        refine EndsName.of_append (s := s ++ [d]) ?_
        rwa [List.append_assoc, List.singleton_append]
      exact .inr ⟨front, hfront.2, hcomma, hlist, hfront', hbeyond⟩
  · rcases List.append_eq_append_iff.mp hmore with ⟨rest, rfl, rfl⟩ | ⟨more', rfl, hmore'⟩
    · exact .inl ⟨rest, rfl, rfl, hcomma, hlist, hlead, hbeyond.of_append⟩
    · cases more' with
      | nil =>
        rw [List.nil_append] at hmore'
        rw [List.append_nil] at hcomma hlist
        refine .inl ⟨[], hmore'.symm, ?_, ?_, ?_, hlead, by rintro d ⟨⟩⟩
        · simp
        · simpa using hcomma
        · simpa using hlist
      | cons d more' =>
        -- The delimiter would be in the list.
        rw [List.cons_append, List.cons.injEq] at hmore'
        refine absurd (List.mem_append_right _ ?_) hout
        exact hmore'.1 ▸ List.mem_cons_self

/-- The lists of a text are those before a delimiter and those behind it. -/
theorem everyList_append (hc : isDelimiter c = true) :
    EveryList P (s ++ c :: t) ↔
      EveryList (fun list rest => P list (rest ++ c :: t)) s ∧ EveryList P t := by
  constructor
  · refine fun h => ⟨fun p hp => ?_, fun p hp => ?_⟩
    · have hsplits : (⟨p.lead, p.list, p.beyond ++ c :: t⟩ : ParameterList).Splits (s ++ c :: t) :=
        ⟨by simp [hp.text_eq], hp.comma, hp.list, hp.lead, hp.beyond.append (stopsName_cons hc t)⟩
      exact h.apply hsplits
    · have hsplits : (⟨(s ++ [c]) ++ p.lead, p.list, p.beyond⟩ : ParameterList).Splits
          (s ++ c :: t) :=
        ⟨by simp [hp.text_eq], hp.comma, hp.list, (endsName_concat s hc).append hp.lead, hp.beyond⟩
      exact h.apply hsplits
  · rintro ⟨hs, ht⟩ p hp
    rcases hp.append_cases hc with ⟨rest, hrest, hp⟩ | ⟨front, hp⟩
    · rw [hrest]
      exact hs.apply hp
    · exact ht.apply hp

/-- In front of a text, what has no comma and ends with a delimiter has no list. -/
theorem everyList_lead (hcomma : ',' ∉ s) (hends : EndsName s) :
    EveryList P (s ++ t) ↔ EveryList P t := by
  rcases List.eq_nil_or_concat' s with rfl | ⟨s, c, rfl⟩
  · rw [List.nil_append]
  · have hc : isDelimiter c = true := hends c (List.getLast?_concat ..)
    have hnone : ',' ∉ s := fun h => hcomma (List.mem_append_left _ h)
    rw [List.append_assoc, List.singleton_append, everyList_append hc]
    exact ⟨fun h => h.2, fun h => ⟨everyList_of_not_comma hnone, h⟩⟩

/-- A run of characters without delimiters is one list, if it has a comma. -/
theorem everyList_run (hrun : ∀ c ∈ s, isDelimiter c = false) (hcomma : ',' ∈ s) :
    EveryList P s ↔ P s [] := by
  constructor
  · intro h
    exact h ⟨[], s, []⟩ ⟨by simp, hcomma, hrun, by rintro c ⟨⟩, by rintro c ⟨⟩⟩
  · intro h p hp
    obtain ⟨lead, list, beyond⟩ := p
    obtain ⟨rfl, -, -, hlead, hbeyond⟩ := hp
    simp only [List.forall_mem_append] at hrun hlead hbeyond ⊢
    -- What stands around the list ends and begins with delimiters, of which there are none.
    have hlead' : lead = [] := by
      rcases List.eq_nil_or_concat' lead with rfl | ⟨lead, c, rfl⟩
      · rfl
      · have hc := hlead c (List.getLast?_concat ..)
        rw [hrun.1 c (by simp)] at hc
        cases hc
    have hbeyond' : beyond = [] := by
      cases beyond with
      | nil => rfl
      | cons c beyond =>
        have hc := hbeyond c rfl
        rw [hrun.2.2 c List.mem_cons_self] at hc
        cases hc
    subst hlead' hbeyond'
    simpa using h

end

/-! ### Lists that can be written out -/

/-- Whether a list can be written out is decided inside a text whose parentheses match. -/
theorem spellable_append {list beyond : List Char} {depth : Nat}
    (h : depthBehind depth beyond = some 0) (rest : List Char) :
    Spellable list (beyond ++ ')' :: rest) ↔ Spellable list beyond := by
  constructor
  · rintro ⟨hentries, inner, tail, hblock, -⟩
    cases beyond with
    | nil => cases hblock
    | cons c beyond =>
      rw [List.cons_append, List.cons.injEq] at hblock
      obtain ⟨rfl, -⟩ := hblock
      obtain ⟨inner, tail, rfl, hinner⟩ := cut_of_depthBehind h
      exact ⟨hentries, inner, tail, rfl, balanced_iff.mp hinner⟩
  · rintro ⟨hentries, inner, tail, rfl, hinner⟩
    exact ⟨hentries, inner, tail ++ ')' :: rest, by simp, hinner⟩

/-- Whether the lists inside a block can be spelled out does not depend on what is behind it. -/
theorem everyList_spellable_append {inner : List Char} (h : Balanced inner) (rest : List Char) :
    EveryList (fun list beyond => Spellable list (beyond ++ ')' :: rest)) inner ↔
      EveryList Spellable inner := by
  refine forall_congr' fun p => imp_congr_right fun hp => ?_
  have hdepth := balanced_iff.mp h
  rw [hp.text_eq, ← List.append_assoc, depthBehind_append, Option.bind_eq_some_iff] at hdepth
  obtain ⟨depth, -, hdepth⟩ := hdepth
  exact spellable_append hdepth rest

/-- No comma is left in the names that are opened. -/
theorem not_comma_opened (list : List Char) : ',' ∉ opened list :=
  List.count_eq_zero.mp (count_opened list)

/-- **Other lists.** Writing out the first list leaves the others as they are. -/
theorem Expands.everyList_iff {text next : List Char} (h : Expands text next) :
    EveryList Spellable text ↔ EveryList Spellable next := by
  obtain ⟨hp, hpieces, hbeyond, hinner⟩ := h
  rename_i p inner tail
  have hfirst : Spellable p.list ('(' :: (inner ++ ')' :: tail)) := by
    refine ⟨fun name hname hnil => ?_, inner, tail, rfl, balanced_iff.mp hinner⟩
    rw [List.any_eq_false] at hpieces
    exact hpieces name hname (List.isEmpty_iff.mpr hnil)
  have htext : EveryList Spellable text ↔
      EveryList Spellable inner ∧ EveryList Spellable tail := by
    rw [hp.text_eq, hbeyond, everyList_lead hp.first hp.lead, everyList_append rfl,
      everyList_run hp.list hp.comma, everyList_append rfl, everyList_spellable_append hinner,
      List.nil_append]
    exact and_iff_right hfirst
  -- What is put in has no comma, and ends with a parenthesis.
  have hnext :
      EveryList Spellable (p.lead ++ (opened p.list ++ (inner ++ (closed p.list ++ tail)))) ↔
      EveryList Spellable inner ∧ EveryList Spellable tail := by
    have hclosed : closed p.list = ')' :: List.replicate (p.list.count ',') ')' := rfl
    have hmore : ',' ∉ List.replicate (p.list.count ',') ')' := by simp
    have hends : EndsName (List.replicate (p.list.count ',') ')') := by
      intro c hc
      rw [List.eq_of_mem_replicate (List.mem_of_getLast? hc)]
      rfl
    rw [everyList_lead hp.first hp.lead,
      everyList_lead (not_comma_opened _) (endsName_concat _ rfl), hclosed, List.cons_append,
      everyList_append rfl, everyList_spellable_append hinner,
      everyList_lead hmore hends]
  rw [htext, hnext]

/-! ### The single pass -/

/-- What is kept in mind on the way through a text. -/
structure Pass where
  /-- The number of names in the list that was begun last, the one that is being read included. -/
  names : Nat := 1
  /-- The numbers of names in front of the blocks that are open, the innermost first. -/
  blocks : List Nat := []

namespace Pass

/-- Goes past a character. -/
def step (p : Pass) (c : Char) : Pass :=
  if c = ',' then { p with names := p.names + 1 }
  else if c = '(' then ⟨1, p.names :: p.blocks⟩
  else if c = ')' then ⟨1, p.blocks.tail⟩
  else if c = '.' then { p with names := 1 }
  else p

/-- What is written for a character: an opening parenthesis for a comma, and for a closing one as
    many as there are names in front of its block. -/
def write (p : Pass) (c : Char) : List Char :=
  if c = ',' then ['(']
  else if c = ')' then List.replicate (p.blocks.headD 1) ')'
  else [c]

/-- What is written for a text. -/
def writeAll (p : Pass) : List Char → List Char
  | [] => []
  | c :: rest => p.write c ++ (p.step c).writeAll rest

/-- What is kept in mind behind a text. -/
def behind (p : Pass) (text : List Char) : Pass :=
  text.foldl step p

/-- The state behind two texts is reached through the state behind the first. -/
theorem behind_append (p : Pass) (s t : List Char) : p.behind (s ++ t) = (p.behind s).behind t :=
  List.foldl_append

/-- A pass writes two texts one after the other. -/
theorem writeAll_append (p : Pass) (s t : List Char) :
    p.writeAll (s ++ t) = p.writeAll s ++ (p.behind s).writeAll t := by
  induction s generalizing p with
  | nil => rfl
  | cons c s ih =>
    rw [List.cons_append, writeAll, writeAll, ih, List.append_assoc]
    rfl

/-- Only parentheses change the blocks that are open. -/
theorem step_other {c : Char} (hopen : c ≠ '(') (hclose : c ≠ ')') (p : Pass) :
    p.step c = ⟨if c = ',' then p.names + 1 else if c = '.' then 1 else p.names, p.blocks⟩ := by
  unfold step
  rw [if_neg hopen, if_neg hclose]
  split
  · rfl
  · split <;> rfl

/-- Only commas and closing parentheses are not copied as they are. -/
theorem write_other {c : Char} (hclose : c ≠ ')') (p : Pass) :
    p.write c = [if c = ',' then '(' else c] := by
  unfold write
  rw [if_neg hclose]
  split <;> rfl

/-- Without commas, in front of open blocks or in the text, nothing changes. -/
theorem writeAll_of_not_comma {text : List Char} (h : ',' ∉ text) {p : Pass} (hnames : p.names = 1)
    (hblocks : ∀ n ∈ p.blocks, n = 1) : p.writeAll text = text := by
  induction text generalizing p with
  | nil => rfl
  | cons c text ih =>
    rw [List.mem_cons, not_or] at h
    have hwrite : p.write c = [c] := by
      unfold write
      rw [if_neg (Ne.symm h.1)]
      split
      · rename_i hc
        have hhead : p.blocks.headD 1 = 1 := by
          cases hp : p.blocks with
          | nil => rfl
          | cons n blocks => exact hblocks n (hp ▸ List.mem_cons_self)
        rw [hhead, hc]
        rfl
      · rfl
    have hstep : (p.step c).names = 1 ∧ ∀ n ∈ (p.step c).blocks, n = 1 := by
      unfold step
      rw [if_neg (Ne.symm h.1)]
      split
      · exact ⟨rfl, List.forall_mem_cons.mpr ⟨hnames, hblocks⟩⟩
      · split
        · exact ⟨rfl, fun n hn => hblocks n (List.mem_of_mem_tail hn)⟩
        · split
          · exact ⟨rfl, hblocks⟩
          · exact ⟨hnames, hblocks⟩
    rw [writeAll, hwrite, ih h.2 hstep.1 hstep.2, List.singleton_append]

/-- Behind a delimiter a new list begins. -/
theorem behind_of_endsName {text : List Char} (h : EndsName text) (blocks : List Nat) :
    ∃ blocks', (⟨1, blocks⟩ : Pass).behind text = ⟨1, blocks'⟩ := by
  rcases List.eq_nil_or_concat' text with rfl | ⟨text, c, rfl⟩
  · exact ⟨blocks, rfl⟩
  · have hc : isDelimiter c = true := h c (List.getLast?_concat ..)
    simp only [isDelimiter, Bool.or_eq_true, beq_iff_eq] at hc
    rw [behind_append]
    rcases hc with (rfl | rfl) | rfl
    · exact ⟨_, rfl⟩
    · exact ⟨_, rfl⟩
    · exact ⟨_, rfl⟩

/-- Blocks that a text opens and closes again leave those around it as they are, and what is written
    has nothing to do with these. -/
theorem writeAll_of_depthBehind {text : List Char} {depth : Nat} (names : Nat)
    (inside blocks : List Nat) (h : depthBehind inside.length text = some depth) :
    (⟨names, inside ++ blocks⟩ : Pass).writeAll text = (⟨names, inside⟩ : Pass).writeAll text ∧
      ∃ inside' names', inside'.length = depth ∧
        (⟨names, inside ++ blocks⟩ : Pass).behind text = ⟨names', inside' ++ blocks⟩ := by
  -- The blocks around are at the bottom of the stack, where the text does not get to.
  induction text generalizing inside names with
  | nil =>
    cases h
    exact ⟨rfl, inside, names, rfl, rfl⟩
  | cons c text ih =>
    cases c using paren_cases with
    | opening =>
      rw [depthBehind_open] at h
      obtain ⟨hover, hbehind⟩ := ih 1 (names :: inside) h
      exact ⟨congrArg ('(' :: ·) hover, hbehind⟩
    | closing =>
      cases inside with
      | nil =>
        rw [List.length_nil, depthBehind_close_zero] at h
        cases h
      | cons n inside =>
        rw [List.length_cons, depthBehind_close] at h
        obtain ⟨hover, hbehind⟩ := ih 1 inside h
        exact ⟨congrArg (List.replicate n ')' ++ ·) hover, hbehind⟩
    | other c hopen hclose =>
      rw [depthBehind_other hopen hclose] at h
      obtain ⟨hover, hbehind⟩ := ih
        (if c = ',' then names + 1 else if c = '.' then 1 else names) inside h
      rw [writeAll, writeAll, write_other hclose, write_other hclose, step_other hopen hclose,
        step_other hopen hclose, hover]
      refine ⟨rfl, ?_⟩
      show ∃ inside' names', _ ∧ ((⟨names, inside ++ blocks⟩ : Pass).step c).behind text = _
      rw [step_other hopen hclose]
      exact hbehind

/-- Behind a text whose parentheses match, the blocks around it are open. -/
theorem writeAll_of_balanced {text : List Char} (h : Balanced text) (names : Nat)
    (blocks : List Nat) :
    (⟨names, blocks⟩ : Pass).writeAll text = (⟨names, []⟩ : Pass).writeAll text ∧
      ∃ names', (⟨names, blocks⟩ : Pass).behind text = ⟨names', blocks⟩ := by
  obtain ⟨hover, inside, names', hlength, hbehind⟩ :=
    writeAll_of_depthBehind names [] blocks (balanced_iff.mp h)
  rw [List.length_eq_zero_iff] at hlength
  subst hlength
  exact ⟨hover, names', hbehind⟩

/-- Past a block, which is closed as often as there are names in front of it. -/
theorem writeAll_block {inner : List Char} (h : Balanced inner) (names : Nat) (blocks : List Nat)
    (tail : List Char) :
    (⟨names, blocks⟩ : Pass).writeAll ('(' :: (inner ++ ')' :: tail))
      = '(' :: (writeAll {} inner ++
          (List.replicate names ')' ++ (⟨1, blocks⟩ : Pass).writeAll tail)) := by
  obtain ⟨hover, names', hbehind⟩ := writeAll_of_balanced h 1 (names :: blocks)
  show '(' :: (⟨1, names :: blocks⟩ : Pass).writeAll (inner ++ ')' :: tail) = _
  rw [writeAll_append, hover, hbehind]
  rfl

/-- Past a list, all its commas are counted and become parentheses. -/
theorem writeAll_list {list : List Char} (h : ∀ c ∈ list, isDelimiter c = false) (p : Pass) :
    p.writeAll list = list.map (fun c => if c = ',' then '(' else c) ∧
      p.behind list = ⟨p.names + list.count ',', p.blocks⟩ := by
  induction list generalizing p with
  | nil => exact ⟨rfl, rfl⟩
  | cons c list ih =>
    rw [List.forall_mem_cons] at h
    have hc := h.1
    simp only [isDelimiter, Bool.or_eq_false_iff, beq_eq_false_iff_ne] at hc
    obtain ⟨⟨hopen, hclose⟩, hdot⟩ := hc
    have hstep : p.step c = ⟨p.names + [c].count ',', p.blocks⟩ := by
      rw [step_other hopen hclose, if_neg hdot]
      by_cases hcomma : c = ','
      · rw [if_pos hcomma, hcomma]
        rfl
      · rw [if_neg hcomma, List.count_singleton, if_neg (by simpa using hcomma)]
        rfl
    obtain ⟨hover, hbehind⟩ := ih h.2 (p.step c)
    refine ⟨?_, ?_⟩
    · rw [writeAll, write_other hclose, hover]
      rfl
    · have hcount : (c :: list).count ',' = [c].count ',' + list.count ',' := by
        rw [← List.count_append, List.singleton_append]
      show (p.step c).behind list = _
      rw [hbehind, hstep, hcount, Nat.add_assoc]

/-- Past a list that is written out, each of its names is in front of a block. -/
theorem writeAll_opened {list : List Char} (h : ∀ c ∈ list, isDelimiter c = false)
    (blocks : List Nat) :
    (⟨1, blocks⟩ : Pass).writeAll (opened list) = opened list ∧
      (⟨1, blocks⟩ : Pass).behind (opened list)
        = ⟨1, List.replicate (list.count ',' + 1) 1 ++ blocks⟩ := by
  induction list generalizing blocks with
  | nil => exact ⟨rfl, rfl⟩
  | cons c list ih =>
    rw [List.forall_mem_cons] at h
    by_cases hcomma : c = ','
    · subst hcomma
      have hopened : opened (',' :: list) = '(' :: opened list := rfl
      obtain ⟨hover, hbehind⟩ := ih h.2 (1 :: blocks)
      rw [hopened, List.count_cons_self]
      refine ⟨congrArg ('(' :: ·) hover, ?_⟩
      show (⟨1, 1 :: blocks⟩ : Pass).behind (opened list) = _
      rw [hbehind, List.replicate_succ' (n := list.count ',' + 1)]
      simp
    · have hc := h.1
      simp only [isDelimiter, Bool.or_eq_false_iff, beq_eq_false_iff_ne] at hc
      obtain ⟨⟨hopen, hclose⟩, hdot⟩ := hc
      have hopened : opened (c :: list) = c :: opened list := by
        simp [opened, hcomma]
      have hstep : (⟨1, blocks⟩ : Pass).step c = ⟨1, blocks⟩ := by
        rw [step_other hopen hclose, if_neg hcomma, if_neg hdot]
      obtain ⟨hover, hbehind⟩ := ih h.2 blocks
      rw [hopened, List.count_cons_of_ne hcomma]
      refine ⟨?_, ?_⟩
      · rw [writeAll, write_other hclose, if_neg hcomma, hstep, hover, List.singleton_append]
      · show ((⟨1, blocks⟩ : Pass).step c).behind (opened list) = _
        rw [hstep, hbehind]

/-- Past the parentheses that close these blocks. -/
theorem writeAll_closed (list : List Char) (names : Nat) (blocks : List Nat) :
    (⟨names, List.replicate (list.count ',' + 1) 1 ++ blocks⟩ : Pass).writeAll (closed list)
        = closed list ∧
      (⟨names, List.replicate (list.count ',' + 1) 1 ++ blocks⟩ : Pass).behind (closed list)
        = ⟨1, blocks⟩ := by
  unfold closed
  induction list.count ',' generalizing names with
  | zero => exact ⟨rfl, rfl⟩
  | succ n ih =>
    obtain ⟨hover, hbehind⟩ := ih 1
    rw [List.replicate_succ, List.replicate_succ (n := n + 1), List.cons_append]
    exact ⟨congrArg (')' :: ·) hover, hbehind⟩

end Pass

/-- **The pass.** Writing out the first list changes nothing about what the pass writes. -/
theorem Expands.writeAll_eq {text next : List Char} (h : Expands text next) :
    Pass.writeAll {} next = Pass.writeAll {} text := by
  obtain ⟨hp, -, hbeyond, hinner⟩ := h
  rename_i p inner tail
  rw [hp.text_eq, hbeyond, Pass.writeAll_append, Pass.writeAll_append _ p.lead]
  congr 1
  obtain ⟨blocks, hlead⟩ := Pass.behind_of_endsName hp.lead []
  rw [show Pass.behind {} p.lead = ⟨1, blocks⟩ from hlead]
  obtain ⟨hlist, hnames⟩ := Pass.writeAll_list hp.list ⟨1, blocks⟩
  obtain ⟨hopened, hblocks⟩ := Pass.writeAll_opened hp.list blocks
  -- What stands in the block is written alike below one block with all the names in front of it and
  -- below one block for each name.
  obtain ⟨hinside, names, hbehind⟩ :=
    Pass.writeAll_of_balanced hinner 1 (List.replicate (p.list.count ',' + 1) 1 ++ blocks)
  obtain ⟨hclosed, htail⟩ := Pass.writeAll_closed p.list names blocks
  rw [Pass.writeAll_append, hopened, hblocks, Pass.writeAll_append, hinside, hbehind,
    Pass.writeAll_append, hclosed, htail, Pass.writeAll_append, hlist, hnames,
    Pass.writeAll_block hinner, Nat.add_comm 1]
  simp [opened, closed]

/-! ### All lists at once -/

section

variable {text core : List Char}

/-- **The outcome.** What comes of writing out all lists is what the pass writes. -/
theorem writeAll_of_spellOut (h : spellOutParameters text = .ok core) :
    core = Pass.writeAll {} text := by
  refine spellOutParameters_induct (P := fun text core => core = Pass.writeAll {} text)
    (fun text hnone => ?_) (fun text next core hexpands hnext => ?_) h
  · exact (Pass.writeAll_of_not_comma hnone rfl (List.forall_mem_nil _)).symm
  · rw [hnext, hexpands.writeAll_eq]

/-- Where the parameters of a text are spelled out, every list in it can be. -/
theorem everyList_of_spellOut (h : spellOutParameters text = .ok core) :
    EveryList Spellable text :=
  spellOutParameters_induct (P := fun text _ => EveryList Spellable text)
    (fun _ hnone => everyList_of_not_comma hnone)
    (fun _ _ _ hexpands hnext => hexpands.everyList_iff.mpr hnext) h

/-- A first list that can be written out is written out. -/
theorem expands_of_everyList (h : EveryList Spellable text) (hcomma : ',' ∈ text) :
    ∃ next, Expands text next := by
  cases hfind : find? text with
  | none => exact absurd hcomma (find?_eq_none.mp hfind)
  | some p =>
    have hp := around_of_find? hfind
    obtain ⟨hentries, inner, tail, hbeyond, hinner⟩ :=
      h p ⟨hp.text_eq, hp.comma, hp.list, hp.lead, hp.beyond⟩
    have hpieces : (pieces ',' p.list).any List.isEmpty = false := by
      rw [List.any_eq_false]
      exact fun name hname hempty => hentries name hname (List.isEmpty_iff.mp hempty)
    exact ⟨_, .list hp hpieces hbeyond (balanced_iff.mpr hinner)⟩

/-- A text all of whose lists can be written out can be written out. -/
theorem spellOut_of_everyList (h : EveryList Spellable text) :
    spellOutParameters text = .ok (Pass.writeAll {} text) := by
  have hsome : ∃ core, spellOutParameters text = .ok core := by
    induction hn : text.count ',' using Nat.strong_induction_on generalizing text with
    | _ n ih =>
      by_cases hcomma : ',' ∈ text
      · obtain ⟨next, hexpands⟩ := expands_of_everyList h hcomma
        obtain ⟨core, hcore⟩ :=
          ih _ (hn ▸ hexpands.count_lt) (hexpands.everyList_iff.mp h) rfl
        exact ⟨core, spellOutParameters_iff.mpr (.inr ⟨next, hexpands, hcore⟩)⟩
      · exact ⟨text, spellOutParameters_iff.mpr (.inl ⟨hcomma, rfl⟩)⟩
  obtain ⟨core, hcore⟩ := hsome
  rw [hcore, writeAll_of_spellOut hcore]

end

/-- **One pass.** All lists of a text can be written out if each of them has no empty entry and is
    followed by a block, and only then.  What comes of it is what the single pass writes, which has
    no comma; and a text without commas is left as it is. -/
theorem spellOutParameters_one_pass (text : List Char) :
    ((∃ core, spellOutParameters text = .ok core) ↔
      ∀ p : ParameterList, p.Splits text → Spellable p.list p.beyond) ∧
    (∀ core, spellOutParameters text = .ok core → core = Pass.writeAll {} text ∧ ',' ∉ core) ∧
    (',' ∉ text → spellOutParameters text = .ok text) := by
  refine ⟨⟨?_, ?_⟩, fun core h => ?_, fun h => ?_⟩
  · rintro ⟨core, h⟩
    exact everyList_of_spellOut h
  · exact fun h => ⟨_, spellOut_of_everyList h⟩
  · exact ⟨writeAll_of_spellOut h, not_comma_of_spellOut h⟩
  · exact spellOutParameters_iff.mpr (.inl ⟨h, rfl⟩)

example : Pass.writeAll {} "a,b(c,d(x).e,f(a))".toList = "a(b(c(d(x)).e(f(a))))".toList := by decide

end DotLambda
