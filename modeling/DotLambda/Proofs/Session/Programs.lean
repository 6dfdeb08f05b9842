import DotLambda.Proofs.Desugaring.Sources
import DotLambda.Session

namespace DotLambda

/-!
# Sessions — sessions and programs

A session keeps definitions without their white space and writes them back for every expression.
What it shows is nevertheless what a program shows that has the lines as they were entered.

* `Session.Accepts` — lines that a session accepts one after the other;
* `Session.define_cases` — a line that is accepted is made of definitions, which are entered;
* `Session.Accepts.definitions` — what lines leave behind, if no name is defined twice;
* `Session.eval_eq_run` — a session shows what the program of its lines shows.
-/

/-! ### Entering definitions -/

namespace Definition

/-- A definition of a new name is entered at the end. -/
theorem enter_of_new {d : Definition} {ds : List Definition} (h : d.name ∉ ds.map name) :
    d.enter ds = ds ++ [d] := by
  induction ds with
  | nil => rfl
  | cons old ds ih =>
    rw [List.map_cons, List.mem_cons, not_or] at h
    rw [enter, if_neg (Ne.symm h.1), ih h.2, List.cons_append]

/-- Definitions of new names are entered behind the others. -/
theorem foldl_enter {ds all : List Definition} (h : ((all ++ ds).map name).Nodup) :
    ds.foldl (fun all d => d.enter all) all = all ++ ds := by
  induction ds generalizing all with
  | nil => simp
  | cons d ds ih =>
    have hnew : d.name ∉ all.map name := by
      rw [List.map_append, List.map_cons] at h
      exact fun hmem => (List.disjoint_of_nodup_append h) hmem List.mem_cons_self
    have hsplit : all ++ d :: ds = all ++ [d] ++ ds := by simp
    rw [hsplit] at h ⊢
    rw [List.foldl_cons, enter_of_new hnew, ih h]

end Definition

namespace Session

variable {s s' : Session} {line : String} {lines names : List String}

/-- A line that is accepted has definitions with nothing behind them.  They are entered one after
    the other, and with all of them the name defined last is a program. -/
theorem define_accepted (h : s.define line = (.ok names, s')) :
    ∃ ds rest last, peelDefinitions line.toList = .ok (ds, rest) ∧ trim rest = [] ∧
      ds.getLast? = some last ∧ names = ds.map Definition.name ∧
      s' = { s with definitions := ds.foldl (fun all d => d.enter all) s.definitions } ∧
      ∃ program, load (s'.programFor last.name).toList = .ok program := by
  unfold define defineLogged at h
  split at h
  · cases h
  · rename_i ds rest hpeel
    split at h
    · cases h
    · rename_i last hlast
      split at h
      · cases h
      · rename_i hrest
        dsimp only at h
        split at h
        · cases h
        · rename_i program journal hload
          cases h
          exact ⟨ds, rest, last, hpeel, not_ne_iff.mp hrest, hlast, rfl, rfl, program,
            congrArg Prod.fst hload⟩

/-- A line that is accepted is made of definitions; these are entered one after the other. -/
theorem define_cases (h : s.define line = (.ok names, s')) :
    ∃ ds, Defines line.toList ds ∧ names = ds.map Definition.name ∧
      s' = { s with definitions := ds.foldl (fun all d => d.enter all) s.definitions } := by
  obtain ⟨ds, rest, _, hpeel, hrest, _, hnames, hentered, _⟩ := define_accepted h
  exact ⟨ds, defines_of_peel hpeel hrest, hnames, hentered⟩

/-- The session accepts the lines one after the other, which define `names` and lead to `s'`. -/
inductive Accepts : Session → (lines names : List String) → Session → Prop where
  | nil (s : Session) : Accepts s [] [] s
  | cons {s s₁ s₂ : Session} {line : String} {lines names more : List String}
      (h : s.define line = (.ok names, s₁)) (hmore : Accepts s₁ lines more s₂) :
      Accepts s (line :: lines) (names ++ more) s₂

/-! ### Lines -/

/-- Lines with their ends. -/
def endLines (lines : List String) : List Char :=
  lines.flatMap fun line => line.toList ++ ['\n']

theorem toList_intercalate_concat (lines : List String) (last : String) :
    ("\n".intercalate (lines ++ [last])).toList = endLines lines ++ last.toList := by
  induction lines with
  | nil => simp [endLines]
  | cons line lines ih =>
    rw [List.cons_append, String.intercalate_cons_of_ne_nil (by simp), String.toList_append,
      String.toList_append, ih]
    simp [endLines]

/-- A line break at the end changes nothing. -/
theorem defines_newline {text : List Char} {ds : List Definition} (h : Defines text ds) :
    Defines (text ++ ['\n']) ds := by
  have hblank : ∀ c ∈ ['\n'], isBlank c = true := by simp [isBlank]
  have hall := h.append (.blank hblank)
  rwa [List.append_nil] at hall

/-- Definitions that are written back, one on each line. -/
theorem defines_sources {ds : List Definition} (h : ∀ d ∈ ds, d.Written) :
    Defines (endLines (ds.map Definition.source)) ds := by
  induction ds with
  | nil => exact .blank (List.forall_mem_nil _)
  | cons d ds ih =>
    rw [List.forall_mem_cons] at h
    have hall := (defines_newline h.1.defines).append (ih h.2)
    rw [List.map_cons, endLines, List.flatMap_cons]
    exact hall

/-- **What lines leave behind.** Lines that are accepted are made of definitions.  If no name is
    defined twice, these are what the session has more than before. -/
theorem Accepts.definitions (h : s.Accepts lines names s')
    (hnames : (s.names ++ names).Nodup) :
    ∃ ds, Defines (endLines lines) ds ∧ s' = { s with definitions := s.definitions ++ ds } := by
  induction h with
  | nil s => exact ⟨[], .blank (List.forall_mem_nil _), by simp⟩
  | @cons s s₁ s₂ line lines names more hline _ ih =>
    obtain ⟨ds, hdefines, rfl, rfl⟩ := define_cases hline
    have hnew : ((s.definitions ++ ds).map Definition.name).Nodup := by
      rw [← List.append_assoc] at hnames
      rw [List.map_append]
      exact hnames.of_append_left
    rw [Definition.foldl_enter hnew] at ih
    obtain ⟨ds', hdefines', rfl⟩ := ih (by
      show ((s.definitions ++ ds).map Definition.name ++ more).Nodup
      rwa [List.map_append, List.append_assoc])
    refine ⟨ds ++ ds', ?_, by simp⟩
    rw [endLines, List.flatMap_cons]
    exact (defines_newline hdefines).append hdefines'

/-! ### Programs -/

/-- Only the definitions and the rest of a source matter for its run. -/
theorem run_congr {source source' : List Char} (h : peeled source = peeled source')
    (options : Options) : run source options = run source' options := by
  unfold run runLogged loadWith
  rw [desugar_congr h]

/-- **Sessions and programs.** If no name is defined twice, a session shows for an expression what
    a program shows that has the lines as they were entered, and the expression behind them. -/
theorem eval_eq_run {options : Options} (h : Accepts { options } lines names s)
    (hnames : names.Nodup) (expression : String) :
    s.eval expression = (run ("\n".intercalate (lines ++ [expression])).toList options).map
      (·.display options.overLines) := by
  obtain ⟨ds, hdefines, rfl⟩ := h.definitions hnames
  have hsame : peeled (sourceUnder ds expression).toList
      = peeled ("\n".intercalate (lines ++ [expression])).toList := by
    rw [sourceUnder, toList_intercalate_concat, toList_intercalate_concat,
      (defines_sources hdefines.written).peeled_append, hdefines.peeled_append]
  show (run (sourceUnder ds expression).toList options).map _ = _
  rw [run_congr hsame]

/-- Two definitions on one line with white space in odd places, a third that uses them, and an
    expression that has a definition of its own: the session shows a normal form, and so does the
    program of its lines. -/
theorem eval_eq_run_lines :
    let lines := ["let t  z ( z ) ;\tlet n x, y(t .x); ", "\nlet k a(n.a);"]
    let s : Session := ⟨[⟨"t", "z(z)"⟩, ⟨"n", "x,y(t.x)"⟩, ⟨"k", "a(n.a)"⟩], {}⟩
    Accepts {} lines ["t", "n", "k"] s ∧ ["t", "n", "k"].Nodup ∧
      s.eval "let u n.t; k.u" = .ok "y(y(z(z)))" ∧
      (run ("\n".intercalate (lines ++ ["let u n.t; k.u"])).toList {}).map (·.display false)
        = .ok "y(y(z(z)))" := by
  intro lines s
  have hfirst : define {} "let t  z ( z ) ;\tlet n x, y(t .x); "
      = (.ok ["t", "n"], ⟨[⟨"t", "z(z)"⟩, ⟨"n", "x,y(t.x)"⟩], {}⟩) := by cbv
  have hsecond : define ⟨[⟨"t", "z(z)"⟩, ⟨"n", "x,y(t.x)"⟩], {}⟩ "\nlet k a(n.a);"
      = (.ok ["k"], s) := by cbv
  have haccepts : Accepts {} lines ["t", "n", "k"] s := .cons hfirst (.cons hsecond (.nil s))
  have hnodup : ["t", "n", "k"].Nodup := by decide
  have hshown : s.eval "let u n.t; k.u" = .ok "y(y(z(z)))" := by cbv
  exact ⟨haccepts, hnodup, hshown,
    (eval_eq_run haccepts hnodup "let u n.t; k.u").symm.trans hshown⟩

end Session

end DotLambda
