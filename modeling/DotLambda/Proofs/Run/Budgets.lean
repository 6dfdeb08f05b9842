import DotLambda.Proofs.Reading.Resolution
import DotLambda.Proofs.Reduction.Names
import DotLambda.Proofs.Reduction.Nesting
import DotLambda.Proofs.Reduction.Soundness
import DotLambda.Proofs.Reduction.Tidy
import DotLambda.Proofs.Term.Alpha
import DotLambda.Run
import Mathlib

namespace DotLambda

/-!
# Runs — the result does not depend on the budgets

Which redexes are fired depends on the steps that a program and its parameters may take.  Where
two runs of one program come to a result, it is the same one: the two are equal up to the
identities of their binders, binders that correspond have the same name, and both are shown as the
same text.

* `tidy_of_parse` — the term of a program is tidy;
* `run_cases` — what a run that gives a result is made of;
* `run_of_answer` — an answer stays the same however deep runs are followed;
* `Options.next_start`, `Options.start_sound` — the counter starts at the end of the table;
* `Evaluates` — what a result has to do with the term of the program;
* `Evaluates.alike` — it is determined by that, up to the identities of binders;
* `results_agree` — two results of one program.

Names come into it by a rendering in which binders are signed with their names.  There, uniqueness
of normal forms says that the names of binders are the same as well.
-/

open Lambda

/-! ### Programs -/

/-- No application is read without arguments. -/
theorem tidy_follows : Reader.Follows
    (fun _ _ queue t _ => (∀ u ∈ queue, u.Tidy) → t.Tidy)
    (fun as _ ts _ => (∀ u ∈ ts, u.Tidy) ∧ (as ≠ [] → ts ≠ [])) where
  bare queue _ _ := by
    intro hqueue
    cases queue with
    | nil => exact .var _
    | cons u queue => exact .app (List.cons_ne_nil _ _) hqueue
  binder {_ _ _ _ _ _ _ args queue _ _} _ _ _ _ hargs hbody := by
    intro hqueue
    have hall := List.forall_mem_append.mpr ⟨hargs.1, hqueue⟩
    refine .abs (hbody fun u hu => hall u (List.mem_of_mem_tail hu)) ?_
    cases hsupplied : args ++ queue with
    | nil => exact .absent
    | cons u rest => exact hall u (hsupplied ▸ List.mem_cons_self)
  call queue hne _ _ hargs := by
    intro hqueue
    exact .app (List.append_ne_nil_of_left_ne_nil (hargs.2 hne) queue)
      (List.forall_mem_append.mpr ⟨hargs.1, hqueue⟩)
  group _ _ hargs hinner := fun hqueue => hinner (List.forall_mem_append.mpr ⟨hargs.1, hqueue⟩)
  nil _ := ⟨by simp, fun h => absurd rfl h⟩
  cons _ _ harg hafter :=
    ⟨List.forall_mem_cons.mpr ⟨harg (by simp), hafter.1⟩, fun _ => List.cons_ne_nil _ _⟩

/-- What is parsed is tidy. -/
theorem tidy_of_parse {text : List Char} {t : Term} {names : Names}
    (h : parse text = .ok (t, names)) : t.Tidy := by
  obtain ⟨s, hread, rfl⟩ := parse_respects tidy_follows.respects h
  obtain ⟨-, -, -, htidy⟩ := hread Scope.sound_empty (.nil _)
  exact htidy (by simp)

/-! ### Runs -/

/-- The state in which the reduction of a program starts. -/
def Options.start (options : Options) (names : Names) (t : Term) : Reducer :=
  ((({} : Reducer).withBudget options.parameterSteps).adoptNames names).skipPast t

/-- **Runs.** A run that gives a result reads the program that the source stands for, and reduces
    it to a term to which no step applies. -/
theorem run_cases {source : List Char} {options : Options} {r : Result}
    (h : run source options = .ok r) :
    ∃ program t names journal ran, desugar source = .ok program ∧
      parse program.text = .ok (t, names) ∧
      runAt options.nesting options.maxSteps.toNat t ⟨options.start names t, journal⟩ = some ran ∧
      ran.term.reducible = false ∧ r.term = ran.term ∧ r.names = ran.machine.names := by
  unfold run runLogged loadWith at h
  cases hdesugar : desugar source with
  | error e =>
    rw [hdesugar] at h
    cases h
  | ok program =>
    rcases hparse : parseWith .off program.text with ⟨outcome, journal⟩
    simp only [hdesugar, Journal.record_off, hparse] at h
    cases outcome with
    | error e => cases h
    | ok loaded =>
      obtain ⟨t, names⟩ := loaded
      simp only [Except.mapError] at h
      split at h
      · cases h
      · cases h
      · rename_i hnormalize
        cases h
        rw [Machine.normalize_eq] at hnormalize
        obtain ⟨ran, hran, hanswer⟩ := Option.map_eq_some_iff.mp hnormalize
        obtain ⟨houtcome, rfl⟩ := Prod.mk.inj hanswer
        obtain rfl := Run.term_of_outcome houtcome
        have hparsed : parse program.text = .ok (t, names) := congrArg Prod.fst hparse
        exact ⟨program, t, names, journal, ran, rfl, hparsed, hran,
          Run.normal_of_outcome hran houtcome, rfl, rfl⟩

/-! ### Depth -/

/-- A reduction that gives an answer gives the same at every greater depth. -/
theorem Machine.normalize_mono {depth depth' maxSteps : Nat} (hle : depth ≤ depth') {t : Term}
    {m : Machine} {answer : Except Divergence Term × Machine}
    (h : m.normalize depth maxSteps t = some answer) :
    m.normalize depth' maxSteps t = some answer := by
  rw [Machine.normalize_eq] at h ⊢
  obtain ⟨run, hrun, hanswer⟩ := Option.map_eq_some_iff.mp h
  rw [(runAt_mono hle hrun).1, Option.map_some, hanswer]

/-- **Answers stay.** A run with a journal that gives an answer gives the same, and the same
    journal, if parameters are followed deeper. -/
theorem runLogged_of_answer {journal : Journal} {source : List Char} {options : Options} {n : Nat}
    (hle : options.nesting ≤ n) (h : (runLogged journal source options).1 ≠ .error .nested) :
    runLogged journal source { options with nesting := n } = runLogged journal source options := by
  unfold runLogged at h ⊢
  split
  · rfl
  · rename_i t names journal hload
    rw [hload] at h
    dsimp only at h ⊢
    cases hnormalize : Machine.normalize options.nesting options.maxSteps.toNat t
        ⟨(({} : Reducer).withBudget options.parameterSteps).adoptNames names, journal⟩ with
    | none =>
      rw [hnormalize] at h
      exact absurd rfl h
    | some answer => rw [Machine.normalize_mono hle hnormalize]

/-- A run that gives an answer, be it a result or an error of the program, gives the same if
    parameters are followed deeper. -/
theorem run_of_answer {source : List Char} {options : Options} {n : Nat}
    (hle : options.nesting ≤ n) (h : run source options ≠ .error .nested) :
    run source { options with nesting := n } = run source options :=
  congrArg Prod.fst (runLogged_of_answer hle h)

/-! ### Where reduction starts -/

/-- The identities of a program are the places of its table, so the counter starts behind them. -/
theorem Options.next_start (options : Options) {text : List Char} {t : Term} {names : Names}
    (h : parse text = .ok (t, names)) (hsize : names.size < 2 ^ 63) :
    0 < names.size ∧ (options.start names t).next = names.size := by
  have hmem := mem_idents_of_parse h
  have hwhole := (proper_of_parse h).whole
  obtain ⟨i, hi⟩ := Term.exists_mem_idents (Term.isPresent_of_isWhole hwhole)
  have hpos : 0 < names.size := by
    have := (hmem i).mp hi
    lia
  have hlow : 0 ≤ t.greatest := Term.le_greatest ((hmem 0).mpr ⟨le_refl _, by lia⟩)
  have hhigh : t.greatest < names.size := Term.greatest_lt (by lia) fun i hi => ((hmem i).mp hi).2
  refine ⟨hpos, ?_⟩
  show max (max (0 : Int) names.size) (Ident.next t.greatest) = names.size
  rw [Ident.next_eq (by lia) (by lia)]
  lia

/-- **The reduction of a program.** It starts with a table up to the counter, below which the term
    is.  The table has an entry for every identity handed out, so if it is no longer than words can
    count, the counter does not come around. -/
theorem Options.start_sound (options : Options) {text : List Char} {t : Term} {names : Names}
    (hparse : parse text = .ok (t, names)) {depth maxSteps : Nat} {journal : Journal} {ran : Run}
    (hran : runAt depth maxSteps t ⟨options.start names t, journal⟩ = some ran)
    (hsize : ran.machine.names.size < 2 ^ 63) :
    (options.start names t).Tabled ∧
      (options.start names t).Unwrapped (Firing.modelsAll
        (firingsAt depth maxSteps t ⟨options.start names t, journal⟩)) ∧
      t.Fits (options.start names t) := by
  have hadv := runAt_advances hran
  have hnamesSize : names.size < 2 ^ 63 := Nat.lt_of_le_of_lt hadv.names_extend.size hsize
  obtain ⟨hpos, hnext⟩ := options.next_start hparse hnamesSize
  refine ⟨⟨hpos, hnext⟩, ?_, proper_of_parse hparse, ?_⟩
  · have hentries := hadv.size_le hpos
    rw [Reducer.Unwrapped, hnext]
    have : (options.start names t).names.size = names.size := rfl
    lia
  · exact fun i hi => hnext ▸ ((mem_idents_of_parse hparse i).mp hi).2

/-! ### Results -/

/-- The result `r` of a program with the term `t` and the table `names`: a normal form of `t`, also
    with binders signed with their names, in a table that has grown. -/
structure Evaluates (t : Term) (names : Names) (r : Result) : Prop where
  whole : r.term.isWhole = true
  tidy : r.term.Tidy
  done : r.term.reducible = false
  frees : ∀ i ∈ r.term.frees, i ∈ t.frees
  table : names.Extends r.names
  conv : ∀ {α : Type} (sign : String → α) (ρ : Ident → Lambda α),
    Conv (t.render (.signed fun i => sign (r.names.lookup i)) ρ)
      (r.term.render (.signed fun i => sign (r.names.lookup i)) ρ)

/-- A run that gives a result has evaluated the term of its program. -/
theorem run_evaluates {source : List Char} {options : Options} {r : Result}
    (h : run source options = .ok r) (hsize : r.names.size < 2 ^ 63) :
    ∃ program t names, desugar source = .ok program ∧ parse program.text = .ok (t, names) ∧
      Evaluates t names r := by
  obtain ⟨program, t, names, journal, ran, hdesugar, hparse, hran, hdone, hterm, hnames⟩ :=
    run_cases h
  refine ⟨program, t, names, hdesugar, hparse, ?_⟩
  have htable : names.Extends r.names := hnames ▸ (runAt_advances hran).names_extend
  obtain ⟨htabled, hu, hfits⟩ := options.start_sound hparse hran (hnames ▸ hsize)
  have hreduct := (runAt_reduct hran).reduct hfits hu
  have htidy := runAt_tidy hran (tidy_of_parse hparse)
  rw [← hterm] at hreduct hdone htidy
  refine ⟨hreduct.whole, htidy, hdone, hreduct.frees, htable, fun sign ρ => ?_⟩
  rw [hnames]
  -- Counter and table start at the same place, so new identities get the names of their models.
  exact hreduct.render (Rendering.signed_follows htabled (runAt_advances hran) hu (.refl _) sign) ρ

/-! ### Results that agree -/

/-- Free identities as atoms, which are none of the signs of binders. -/
def freeAtom (i : Ident) : Lambda (String ⊕ Ident) :=
  .atom (.inr i)

/-- Free identities stand for names. -/
theorem isName_freeAtom (i : Ident) : (freeAtom i).IsName :=
  .atom _

/-- Different identities stand for different ones. -/
theorem freeAtom_injective : Function.Injective freeAtom := by
  intro i j hij
  cases hij
  rfl

namespace Evaluates

variable {t : Term} {names : Names} {r r' : Result}

/-- What a term evaluates to is a normal form. -/
theorem normalForm (h : Evaluates t names r) : r.term.NormalForm :=
  Term.normalForm_of_not_reducible h.done h.whole h.tidy

/-- Identities of the program have one name in all tables that have grown from its own. -/
theorem lookup_eq (h : Evaluates t names r) (h' : Evaluates t names r') {i : Ident}
    (hi : i < names.size) : r.names.lookup i = r'.names.lookup i := by
  rw [h.table.lookup i hi, h'.table.lookup i hi]

/-- **Uniqueness.** The results of one term are equal up to the identities of their binders, and
    binders that correspond have the same name. -/
theorem alike (h : Evaluates t names r) (h' : Evaluates t names r')
    (hlow : ∀ i ∈ t.idents, i < names.size) :
    Term.Alike (fun i j => r.names.lookup i = r'.names.lookup j) [] r.term r'.term := by
  -- Signed with the names of either table, the term of the program is written in one way.
  have hstart : t.render (.signed fun i => Sum.inl (r.names.lookup i)) freeAtom
      = t.render (.signed fun i => Sum.inl (r'.names.lookup i)) freeAtom :=
    Term.render_signed_congr (fun i hi =>
      congrArg Sum.inl (h.lookup_eq h' (hlow i (Term.mem_idents.mpr (.inl hi))))) freeAtom
  have hconv := h.conv Sum.inl freeAtom
  have hconv' := h'.conv Sum.inl freeAtom
  rw [hstart] at hconv
  -- So both results are normal forms of one signed term, and these are equal.
  have hsame := (hconv.symm.trans hconv').eq_of_normal
    (Term.normal_render h.whole h.done isName_freeAtom)
    (Term.normal_render h'.whole h'.done isName_freeAtom)
  exact Term.NormalForm.alike_of_render_eq freeAtom_injective isName_freeAtom
    (fun _ _ => Sum.inl.inj) h.normalForm h'.normalForm hsame

end Evaluates

/-- **Results agree.** If a program comes to a result under two settings, however many steps it and
    its parameters may take, the two results are equal up to the identities of their binders.
    Binders that correspond have the same name, the free identities are the same, and so the
    results are shown as the same text in either layout.  The tables are no longer than machine
    words can count, as all tables are. -/
theorem results_agree {source : List Char} {options options' : Options} {r r' : Result}
    (h : run source options = .ok r) (h' : run source options' = .ok r')
    (hsize : r.names.size < 2 ^ 63) (hsize' : r'.names.size < 2 ^ 63) :
    Term.Alike (fun i j => r.names.lookup i = r'.names.lookup j) [] r.term r'.term ∧
      r.term.frees = r'.term.frees ∧ ∀ overLines, r.display overLines = r'.display overLines := by
  obtain ⟨program, t, names, hdesugar, hparse, heval⟩ := run_evaluates h hsize
  obtain ⟨_, _, _, hdesugar', hparse', heval'⟩ := run_evaluates h' hsize'
  -- What is desugared and read does not depend on the settings.
  cases hdesugar.symm.trans hdesugar'
  cases hparse.symm.trans hparse'
  have hlow : ∀ i ∈ t.idents, i < names.size := fun i hi =>
    ((mem_idents_of_parse hparse i).mp hi).2
  have halike := heval.alike heval' hlow
  refine ⟨halike, halike.frees_eq, halike.display_eq fun i hi => ?_⟩
  exact heval.lookup_eq heval' (hlow i (Term.mem_idents.mpr (.inr (heval.frees i hi))))

/-- In `f(x(f.x.x).(w(y(w)).v))` the parameter of `x` is a redex.  If it may not take a step it is
    copied as it stands, with a new identity for `w`, so that the second `y` has another one. -/
theorem results_agree_unreduced :
    ∃ r r', run "f(x(f.x.x).(w(y(w)).v))".toList {} = .ok r ∧
      run "f(x(f.x.x).(w(y(w)).v))".toList { maxSteps := 5, parameterSteps := 0 } = .ok r' ∧
      r.names.size < 2 ^ 63 ∧ r'.names.size < 2 ^ 63 ∧
      r.term = .abs 0 (.app 0 [.abs 3 (.var 1) .absent, .abs 5 (.var 1) .absent]) .absent ∧
      r'.term = .abs 0 (.app 0 [.abs 3 (.var 1) .absent, .abs 6 (.var 1) .absent]) .absent ∧
      Term.Alike (fun i j => r.names.lookup i = r'.names.lookup j) [] r.term r'.term ∧
      r.term.frees = r'.term.frees ∧ ∀ overLines, r.display overLines = r'.display overLines := by
  obtain ⟨r, hrun, hsize, hterm⟩ : ∃ r, run "f(x(f.x.x).(w(y(w)).v))".toList {} = .ok r ∧
      r.names.size < 2 ^ 63 ∧
      r.term = .abs 0 (.app 0 [.abs 3 (.var 1) .absent, .abs 5 (.var 1) .absent]) .absent :=
    ⟨⟨_, #["f", "v", "w", "y", "x", "y"], ⟨2, 2, 2, 0, 3, 0⟩⟩, by cbv, by decide, rfl⟩
  obtain ⟨r', hrun', hsize', hterm'⟩ : ∃ r', run "f(x(f.x.x).(w(y(w)).v))".toList
        { maxSteps := 5, parameterSteps := 0 } = .ok r' ∧ r'.names.size < 2 ^ 63 ∧
      r'.term = .abs 0 (.app 0 [.abs 3 (.var 1) .absent, .abs 6 (.var 1) .absent]) .absent :=
    ⟨⟨_, #["f", "v", "w", "y", "x", "w", "y"], ⟨3, 3, 3, 1, 4, 0⟩⟩, by cbv, by decide, rfl⟩
  exact ⟨r, r', hrun, hrun', hsize, hsize', hterm, hterm', results_agree hrun hrun' hsize hsize'⟩

end DotLambda
