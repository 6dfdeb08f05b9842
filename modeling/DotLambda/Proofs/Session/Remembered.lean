import DotLambda.Proofs.Session.Programs
import Mathlib

namespace DotLambda

/-!
# Sessions — what is remembered

The definitions of a session are a map that keeps the order in which names came in.  A line updates
it as a whole or not at all.  Whatever the history of a session, its definitions can be written in
front of an expression and are peeled off again one by one.

* `Definition.names_enterAll`, `Definition.find?_enterAll` — the names and the bodies after some
  definitions were entered;
* `Session.Reachable` — sessions after any calls;
* `Session.Orderly` — what all of them have in common;
* `Session.definitions_form_map` — what a line does to the definitions, and what they are in every
  session.
-/

/-! ### Entering definitions -/

namespace Definition

/-- A known name keeps its place, and a new one comes last. -/
theorem names_enter (d : Definition) (all : List Definition) :
    (d.enter all).map name
      = if d.name ∈ all.map name then all.map name else all.map name ++ [d.name] := by
  induction all with
  | nil => rfl
  | cons old all ih =>
    by_cases hold : old.name = d.name
    · simp [enter, hold]
    · have hne : ¬ d.name = old.name := Ne.symm hold
      rw [enter, if_neg hold]
      simp only [List.map_cons, List.mem_cons, ih]
      by_cases hmem : d.name ∈ all.map name
      · rw [if_pos hmem, if_pos (.inr hmem)]
      · rw [if_neg hmem, if_neg (not_or.mpr ⟨hne, hmem⟩), List.cons_append]

/-- The name has the new body, and no other name has another one. -/
theorem find?_enter (d : Definition) (all : List Definition) (x : String) :
    (d.enter all).find? (·.name = x) = if d.name = x then some d else all.find? (·.name = x) := by
  induction all with
  | nil => by_cases hx : d.name = x <;> simp [enter, hx]
  | cons old all ih =>
    by_cases hold : old.name = d.name
    · by_cases hx : d.name = x <;> simp [enter, hold, hx]
    · rw [enter, if_neg hold]
      by_cases hx : old.name = x
      · -- The old definition of `x` stays in front of what is entered.
        have hne : ¬ d.name = x := fun h => hold (hx.trans h.symm)
        simp [hx, hne]
      · simp [hx, ih]

/-- Entering a definition brings in nothing else. -/
theorem mem_enter {d e : Definition} {all : List Definition} (h : e ∈ d.enter all) :
    e = d ∨ e ∈ all := by
  induction all with
  | nil => exact .inl (List.mem_singleton.mp h)
  | cons old all ih =>
    rw [enter] at h
    split at h
    · exact (List.mem_cons.mp h).imp_right (List.mem_cons_of_mem old)
    · rcases List.mem_cons.mp h with rfl | h
      · exact .inr List.mem_cons_self
      · exact (ih h).imp_right (List.mem_cons_of_mem old)

/-- Definitions after others were entered one by one. -/
def enterAll (ds all : List Definition) : List Definition :=
  ds.foldl (fun all d => d.enter all) all

/-- Definitions are entered one after the other. -/
theorem enterAll_cons (d : Definition) (ds all : List Definition) :
    enterAll (d :: ds) all = enterAll ds (d.enter all) :=
  rfl

/-- **Names.** The names that were there keep their places.  Behind them come those that were not,
    in the order in which they occur first. -/
theorem names_enterAll (ds all : List Definition) :
    (enterAll ds all).map name
      = all.map name ++ ((ds.map name).removeAll (all.map name)).eraseDups := by
  induction ds generalizing all with
  | nil => simp [enterAll]
  | cons d ds ih =>
    rw [enterAll_cons, ih, names_enter, List.map_cons, List.cons_removeAll]
    by_cases hmem : d.name ∈ all.map name
    · rw [if_pos hmem, if_neg (by simpa using hmem)]
    · rw [if_neg hmem, if_pos (by simpa using hmem), List.eraseDups_cons, List.append_assoc,
        List.singleton_append]
      -- Later uses of the new name are dropped because it is known by then, or as duplicates.
      have hrest : (ds.map name).removeAll (all.map name ++ [d.name])
          = ((ds.map name).removeAll (all.map name)).filter fun b => !b == d.name := by
        simp only [List.removeAll, List.filter_filter, List.elem_eq_contains,
          List.contains_eq_mem, List.mem_append, List.mem_singleton]
        congr 1
        funext b
        by_cases hb : b = d.name <;> simp [hb]
      rw [hrest]

/-- **Bodies.** A name has the body that it was given last. -/
theorem find?_enterAll (ds all : List Definition) (x : String) :
    (enterAll ds all).find? (·.name = x)
      = (ds.reverse.find? (·.name = x)).or (all.find? (·.name = x)) := by
  induction ds generalizing all with
  | nil => simp [enterAll]
  | cons d ds ih =>
    rw [enterAll_cons, ih, find?_enter, List.reverse_cons, List.find?_append, Option.or_assoc]
    by_cases hx : d.name = x <;> simp [hx]

/-- Names that are defined once are so after more definitions are entered. -/
theorem nodup_enterAll {ds all : List Definition} (h : (all.map name).Nodup) :
    ((enterAll ds all).map name).Nodup := by
  induction ds generalizing all with
  | nil => exact h
  | cons d ds ih =>
    refine ih ?_
    rw [names_enter]
    split
    · exact h
    · rename_i hnew
      exact h.append (List.nodup_singleton _) (List.disjoint_singleton.mpr hnew)

/-- All that is there was there or has been entered. -/
theorem mem_enterAll {e : Definition} {ds all : List Definition} (h : e ∈ enterAll ds all) :
    e ∈ ds ∨ e ∈ all := by
  induction ds generalizing all with
  | nil => exact .inr h
  | cons d ds ih =>
    rcases ih h with h | h
    · exact .inl (List.mem_cons_of_mem d h)
    · rcases mem_enter h with rfl | h
      · exact .inl List.mem_cons_self
      · exact .inr h

end Definition

namespace Session

variable {s s' : Session} {line : String}

/-! ### Reachable sessions -/

/-- The sessions that calls lead to.  Running an expression and completing a line leave a session as
    it is, so there is nothing to be said about them. -/
inductive Reachable : Session → Prop where
  | start (options : Options) : Reachable { options }
  | define {s : Session} (h : Reachable s) (line : String) : Reachable (s.define line).2
  | perform {s : Session} (h : Reachable s) (input : String) : Reachable (s.perform input).session
  | reset {s : Session} (h : Reachable s) : Reachable s.reset

/-- Names are distinct, and definitions can be told apart when they are written. -/
structure Orderly (s : Session) : Prop where
  distinct : s.names.Nodup
  written : ∀ d ∈ s.definitions, d.Written

/-- A line that is refused changes nothing. -/
theorem define_refused {e : DefineError} (h : s.define line = (.error e, s')) : s' = s := by
  unfold define defineLogged at h
  split at h
  · cases h
    rfl
  · split at h
    · cases h
      rfl
    · split at h
      · cases h
        rfl
      · dsimp only at h
        split at h
        · cases h
          rfl
        · cases h

/-- A command forgets all definitions or none. -/
theorem perform_cases (s : Session) (input : String) :
    (s.perform input).session.definitions = s.definitions ∨
      (s.perform input).session.definitions = [] := by
  unfold perform
  split
  case h_5 => exact .inr rfl
  all_goals exact .inl rfl

namespace Orderly

/-- A session without definitions is orderly. -/
theorem of_nil (h : s.definitions = []) : s.Orderly where
  distinct := by
    rw [names, h]
    exact List.nodup_nil
  written := by
    rw [h]
    exact List.forall_mem_nil _

/-- Only the definitions of a session matter for its order. -/
theorem of_eq (hs : s.Orderly) (h : s'.definitions = s.definitions) : s'.Orderly where
  distinct := by
    rw [names, h]
    exact hs.distinct
  written := by
    rw [h]
    exact hs.written

/-- A session stays orderly when a line is taken as a definition. -/
theorem define (hs : s.Orderly) (line : String) : (s.define line).2.Orderly := by
  rcases hdefine : s.define line with ⟨result, s'⟩
  cases result with
  | error e => exact hs.of_eq (congrArg definitions (define_refused hdefine))
  | ok names =>
    obtain ⟨ds, hdefines, -, rfl⟩ := define_cases hdefine
    refine ⟨Definition.nodup_enterAll hs.distinct, fun d hd => ?_⟩
    exact (Definition.mem_enterAll hd).elim (hdefines.written d) (hs.written d)

/-- The definitions of a session are peeled off the program of an expression before its own. -/
theorem peel_program (hs : s.Orderly) {expression : String} {ds : List Definition}
    {rest : List Char} (h : peelDefinitions expression.toList = .ok (ds, rest)) :
    ∃ rest', peelDefinitions (s.programFor expression).toList = .ok (s.definitions ++ ds, rest') ∧
      trimStart rest' = trimStart rest := by
  obtain ⟨lead, hlead, hpeel⟩ := (defines_sources hs.written).peel_append h
  refine ⟨lead ++ rest, ?_, trimStart_append hlead rest⟩
  rw [programFor, sourceUnder, toList_intercalate_concat]
  exact hpeel

end Orderly

/-- **Invariant.** All sessions are orderly. -/
theorem Reachable.orderly (h : s.Reachable) : s.Orderly := by
  induction h with
  | start options => exact .of_nil rfl
  | define _ line ih => exact ih.define line
  | @perform s _ input ih =>
    rcases perform_cases s input with hsame | hnone
    · exact ih.of_eq hsame
    · exact .of_nil hnone
  | reset _ _ => exact .of_nil rfl

/-! ### Lines -/

/-- **Definitions.** A line that is refused leaves the definitions as they were.  One that is
    accepted is made of definitions; the names known before keep their places, the others follow in
    the order in which the line has them first, and of each name the session has the last definition
    that the line gives, or else the one that it had.  In every session names are distinct, names
    and bodies are not empty and hold neither white space nor a semicolon, and in front of any
    expression the definitions are peeled off before its own. -/
theorem definitions_form_map (h : s.Reachable) (line : String) :
    (∀ e s', s.define line = (.error e, s') → s'.definitions = s.definitions) ∧
    (∀ names s', s.define line = (.ok names, s') →
      ∃ ds rest, peelDefinitions line.toList = .ok (ds, rest) ∧ names = ds.map Definition.name ∧
        s'.names = s.names ++ (names.removeAll s.names).eraseDups ∧
        ∀ x, s'.definitions.find? (·.name = x)
          = (ds.reverse.find? (·.name = x)).or (s.definitions.find? (·.name = x))) ∧
    s.names.Nodup ∧ (∀ d ∈ s.definitions, d.Written) ∧
    ∀ expression ds rest, peelDefinitions expression.toList = .ok (ds, rest) →
      ∃ rest', peelDefinitions (s.programFor expression).toList = .ok (s.definitions ++ ds, rest') ∧
        trimStart rest' = trimStart rest := by
  have hs := h.orderly
  refine ⟨fun e s' hdefine => congrArg definitions (define_refused hdefine), ?_, hs.distinct,
    hs.written, fun expression ds rest hpeel => hs.peel_program hpeel⟩
  intro names s' hdefine
  obtain ⟨ds, hdefines, rfl, rfl⟩ := define_cases hdefine
  have hnil : peelDefinitions [] = .ok ([], []) := peel_expression rfl
  obtain ⟨lead, -, hpeel⟩ := hdefines.peel_append hnil
  rw [List.append_nil, List.append_nil, List.append_nil] at hpeel
  exact ⟨ds, lead, hpeel, rfl, Definition.names_enterAll ds s.definitions,
    Definition.find?_enterAll ds s.definitions⟩

/-- A line that defines `a` and `b` anew and `c` twice, and an expression with a definition of its
    own. -/
theorem definitions_form_map_redefined :
    let s : Session := ⟨[⟨"a", "x(x)"⟩, ⟨"b", "y(a.y)"⟩], {}⟩
    let line := "let b u(u); let c v(b.v);let a w(w); let c q ( a.q );"
    s.Reachable ∧
      (∃ s', s.define line = (.ok ["b", "c", "a", "c"], s') ∧ s'.names = ["a", "b", "c"] ∧
        s'.definitions.find? (·.name = "b") = some ⟨"b", "u(u)"⟩ ∧
        s'.definitions.find? (·.name = "c") = some ⟨"c", "q(a.q)"⟩) ∧
      ∃ rest, peelDefinitions (s.programFor "let d a.b; d").toList
          = .ok (s.definitions ++ [⟨"d", "a.b"⟩], rest) ∧ trimStart rest = ['d'] := by
  intro s line
  have hfirst : define {} "let a x(x); let b y(a.y);" = (.ok ["a", "b"], s) := by cbv
  have hreachable : s.Reachable := by
    have hdefine := (Reachable.start {}).define "let a x(x); let b y(a.y);"
    rwa [hfirst] at hdefine
  obtain ⟨-, haccepted, -, -, hpeeled⟩ := definitions_form_map hreachable line
  refine ⟨hreachable, ?_, ?_⟩
  · obtain ⟨s', hdefine⟩ : ∃ s', s.define line = (.ok ["b", "c", "a", "c"], s') := ⟨_, by cbv⟩
    obtain ⟨ds, rest, hpeel, -, hnames, hfind⟩ := haccepted _ _ hdefine
    have hline : peelDefinitions line.toList = .ok ([⟨"b", "u(u)"⟩, ⟨"c", "v(b.v)"⟩,
        ⟨"a", "w(w)"⟩, ⟨"c", "q(a.q)"⟩], []) := by cbv
    cases hline.symm.trans hpeel
    exact ⟨s', hdefine, hnames, hfind "b", hfind "c"⟩
  · have hexpression : peelDefinitions "let d a.b; d".toList
        = .ok ([⟨"d", "a.b"⟩], [' ', 'd']) := by cbv
    exact hpeeled _ _ _ hexpression

end Session

end DotLambda
