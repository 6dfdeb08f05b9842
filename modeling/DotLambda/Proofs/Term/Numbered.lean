import DotLambda.Parameters
import DotLambda.Proofs.Term.Identities
import Mathlib

namespace DotLambda

/-!
# Terms — the rendering with identities tells the term

In the rendering for logs every form of a term begins with a number, and the forms share their
punctuation.  What stands behind the number tells them apart, and the parentheses tell where a part
ends: from a text that goes on behind a term, the term and the rest can be had back.

* `Term.same_iff` — structural equality is equality;
* `Ident.toString_append_inj` — a number ends where a delimiter follows;
* `Term.Legible` — a term that can be had back from every text that begins with its rendering;
* `Term.argsNumbered_append_inj` — so can a list of such terms;
* `Term.Complete.legible` — every term without gaps and without empty applications is legible;
* `numbered_unambiguous` — renderings are equal for equal terms only.
-/

/-! ### Structural equality -/

namespace Term

theorem sameArgs_iff {args args' : List Term}
    (h : ∀ arg ∈ args, ∀ u, arg.same u = true ↔ arg = u) :
    sameArgs args args' = true ↔ args = args' := by
  induction args generalizing args' with
  | nil => cases args' <;> simp [sameArgs]
  | cons arg args ih =>
    rw [List.forall_mem_cons] at h
    cases args' with
    | nil => simp [sameArgs]
    | cons arg' args' => simp [sameArgs, h.1, ih h.2]

/-- Structural equality is equality. -/
theorem same_iff {t u : Term} : t.same u = true ↔ t = u := by
  induction t generalizing u with
  | absent => cases u <;> simp [same]
  | var id => cases u <;> simp [same]
  | abs id body param ihb ihp => cases u <;> simp [same, ihb, ihp, and_assoc]
  | app id args ih =>
    cases u with
    | absent => simp [same]
    | var id' => simp [same]
    | abs id' body param => simp [same]
    | app id' args' => simp [same, sameArgs_iff fun arg harg _ => ih arg harg]

end Term

/-! ### Numbers in a text -/

/-- There are digits in a number, and perhaps a sign, but no delimiters. -/
theorem Ident.not_delimiter_of_mem {i : Ident} {c : Char} (h : c ∈ (toString i).toList) :
    isDelimiter c = false := by
  have hdigit {n : Nat} (hmem : c ∈ n.repr.toList) : isDelimiter c = false := by
    rw [Nat.toList_repr] at hmem
    have hc := Nat.isDigit_of_mem_toDigits (by decide) (by decide) hmem
    rw [Bool.eq_false_iff]
    intro hdelimiter
    simp only [isDelimiter, Bool.or_eq_true, beq_iff_eq] at hdelimiter
    rcases hdelimiter with (rfl | rfl) | rfl <;> exact absurd hc (by decide)
  rw [Int.toString_eq_repr, Int.repr_eq_if] at h
  split at h
  · exact hdigit h
  · rw [String.toList_append, List.mem_append] at h
    rcases h with hsign | hmem
    · obtain rfl : c = '-' := by simpa using hsign
      rfl
    · exact hdigit hmem

theorem takeWhile_append_of_delimiter {run rest : List Char}
    (hrun : ∀ c ∈ run, isDelimiter c = false) (hrest : ∀ c ∈ rest.head?, isDelimiter c = true) :
    (run ++ rest).takeWhile (fun c => !isDelimiter c) = run := by
  rw [List.takeWhile_append_of_pos fun c hc => by simp [hrun c hc]]
  cases rest with
  | nil => simp
  | cons c rest => simp [hrest c rfl]

/-- A number ends where a delimiter follows, and no other identity has it. -/
theorem Ident.toString_append_inj {i j : Ident} {rest rest' : List Char}
    (hrest : ∀ c ∈ rest.head?, isDelimiter c = true)
    (hrest' : ∀ c ∈ rest'.head?, isDelimiter c = true)
    (h : (toString i).toList ++ rest = (toString j).toList ++ rest') : i = j ∧ rest = rest' := by
  have hnumber : (toString i).toList = (toString j).toList := by
    rw [← takeWhile_append_of_delimiter (fun c => not_delimiter_of_mem) hrest, h,
      takeWhile_append_of_delimiter (fun c => not_delimiter_of_mem) hrest']
  rw [hnumber] at h
  exact ⟨Int.repr_injective (String.toList_inj.mp hnumber), List.append_cancel_left h⟩

/-! ### The parts of a rendering -/

namespace Term

/-- The arguments that an abstraction is supplied with: its parameter, if that is there. -/
def supplied : Term → List Term
  | absent => []
  | param => [param]

theorem mem_supplied {t param : Term} :
    t ∈ supplied param ↔ t = param ∧ param.isPresent = true := by
  cases param <;> simp [supplied, isPresent]

/-- The arguments of a binding tell its parameter. -/
theorem supplied_injective {param param' : Term} (h : supplied param = supplied param') :
    param = param' := by
  cases param <;> cases param' <;> simp_all [supplied]

/-- No part is missing, and every application has arguments. -/
structure Complete (t : Term) : Prop where
  whole : t.isWhole = true
  tidy : t.Tidy

theorem Complete.abs {id : Ident} {body param : Term} (h : (abs id body param).Complete) :
    body.Complete ∧ ∀ arg ∈ supplied param, arg.Complete := by
  obtain ⟨hwhole, htidy⟩ := h
  cases htidy with
  | abs hbody hparam =>
    rw [isWhole_abs] at hwhole
    refine ⟨⟨hwhole.1, hbody⟩, fun arg harg => ?_⟩
    obtain ⟨rfl, hpresent⟩ := mem_supplied.mp harg
    refine ⟨hwhole.2.resolve_left fun habsent => ?_, hparam⟩
    rw [habsent] at hpresent
    cases hpresent

theorem Complete.app {id : Ident} {args : List Term} (h : (app id args).Complete) :
    args ≠ [] ∧ ∀ arg ∈ args, arg.Complete := by
  obtain ⟨hwhole, htidy⟩ := h
  cases htidy with
  | app hne hargs =>
    rw [isWhole_app] at hwhole
    exact ⟨hne, fun arg harg => ⟨hwhole arg harg, hargs arg harg⟩⟩

/-- The number that the rendering of a term begins with. -/
def number : Term → Ident
  | absent => 0
  | var id => id
  | abs id _ _ => id
  | app id _ => id

/-- What the rendering has behind that number.  A parameter is written as an argument is. -/
def behind : Term → List Char
  | absent => []
  | var _ => []
  | abs _ body param =>
    '(' :: (body.numbered.toList ++ ')' :: (argsNumbered (supplied param)).toList)
  | app _ args => (argsNumbered args).toList

/-- A numbered term begins with its number. -/
theorem toList_numbered {t : Term} (h : t.isPresent = true) :
    t.numbered.toList = (toString t.number).toList ++ t.behind := by
  cases t with
  | absent => exact absurd h (by simp [isPresent])
  | var id => simp [numbered, number, behind]
  | abs id body param => cases param <;> simp [numbered, argsNumbered, supplied, number, behind]
  | app id args => simp [numbered, number, behind]

theorem toList_argsNumbered_cons (arg : Term) (args : List Term) :
    (argsNumbered (arg :: args)).toList
      = '.' :: '(' :: (arg.numbered.toList ++ ')' :: (argsNumbered args).toList) := by
  simp [argsNumbered]

/-! ### Unique reading -/

/-- Nothing stands behind a term, or the parenthesis that closes around it. -/
inductive Closes : List Char → Prop where
  | nil : Closes []
  | paren (rest : List Char) : Closes (')' :: rest)

/-- The term can be had back from every text that begins with its rendering: no other term has it
    there, and what is left is the same. -/
def Legible (t : Term) : Prop :=
  ∀ {u : Term} {rest rest' : List Char}, u.Complete → Closes rest → Closes rest' →
    t.numbered.toList ++ rest = u.numbered.toList ++ rest' → t = u ∧ rest = rest'

/-- **Arguments.** Each argument is closed by a parenthesis, and a dot begins the next one. -/
theorem argsNumbered_append_inj {args args' : List Term} {rest rest' : List Char}
    (hargs : ∀ arg ∈ args, arg.Legible) (hargs' : ∀ arg ∈ args', arg.Complete)
    (hrest : Closes rest) (hrest' : Closes rest')
    (h : (argsNumbered args).toList ++ rest = (argsNumbered args').toList ++ rest') :
    args = args' ∧ rest = rest' := by
  induction args generalizing args' with
  | nil =>
    cases args' with
    | nil => exact ⟨rfl, h⟩
    | cons arg' args' =>
      -- The rest would begin with the dot of an argument.
      rw [toList_argsNumbered_cons] at h
      subst h
      cases hrest
  | cons arg args ih =>
    rw [toList_argsNumbered_cons] at h
    cases args' with
    | nil =>
      subst h
      cases hrest'
    | cons arg' args' =>
      rw [List.forall_mem_cons] at hargs hargs'
      rw [toList_argsNumbered_cons] at h
      simp only [List.cons_append, List.append_assoc, List.cons.injEq, true_and] at h
      obtain ⟨rfl, hafter⟩ := hargs.1 hargs'.1 (.paren _) (.paren _) h
      obtain ⟨rfl, hends⟩ := ih hargs.2 hargs'.2 (List.cons.inj hafter).2
      exact ⟨rfl, hends⟩

/-- The character that stands behind the number and tells the form of a term. -/
def mark : Term → Option Char
  | absent => none
  | var _ => none
  | abs _ _ _ => some '('
  | app _ _ => some '.'

/-- Behind the number stands the mark of the term, or what stands behind the term. -/
theorem Complete.head?_behind {t : Term} (h : t.Complete) (rest : List Char) :
    (t.behind ++ rest).head? = t.mark.or rest.head? := by
  cases t with
  | absent => rfl
  | var id => rfl
  | abs id body param => rfl
  | app id args =>
    obtain ⟨arg, args, rfl⟩ := List.exists_cons_of_ne_nil h.app.1
    simp [behind, mark, toList_argsNumbered_cons]

/-- What closes is no mark. -/
theorem Closes.head? {rest : List Char} (h : Closes rest) : ∀ c ∈ rest.head?, c = ')' := by
  cases h with
  | nil => simp
  | paren rest => simp

section

variable {t u : Term} {rest rest' : List Char}

/-- A number is not followed by a digit, whatever the form of the term. -/
theorem Complete.delimiter_behind (h : t.Complete) (hrest : Closes rest) :
    ∀ c ∈ (t.behind ++ rest).head?, isDelimiter c = true := by
  have hends : ∀ c ∈ rest.head?, isDelimiter c = true := fun c hc => by rw [hrest.head? c hc]; rfl
  rw [h.head?_behind]
  cases t with
  | absent => exact hends
  | var id => exact hends
  | abs id body param => simp [mark, isDelimiter]
  | app id args => simp [mark, isDelimiter]

/-- Texts that go on in the same way are those of terms of one form. -/
theorem mark_eq_of_behind (ht : t.Complete) (hu : u.Complete) (hrest : Closes rest)
    (hrest' : Closes rest') (h : t.behind ++ rest = u.behind ++ rest') : t.mark = u.mark := by
  have hhead := congrArg List.head? h
  rw [ht.head?_behind, hu.head?_behind] at hhead
  -- A mark on one side only would be the parenthesis that closes on the other.
  have hopen (t : Term) : t.mark ≠ some ')' := by cases t <;> simp [mark]
  cases hm : t.mark with
  | none =>
    cases hm' : u.mark with
    | none => rfl
    | some c =>
      rw [hm, hm', Option.none_or, Option.some_or] at hhead
      exact absurd (hrest.head? c hhead ▸ hm') (hopen u)
  | some c =>
    cases hm' : u.mark with
    | none =>
      rw [hm, hm', Option.none_or, Option.some_or] at hhead
      exact absurd (hrest'.head? c hhead.symm ▸ hm) (hopen t)
    | some c' =>
      rwa [hm, hm', Option.some_or, Option.some_or] at hhead

/-- Equal texts begin with the same number and mark, and go on in the same way. -/
theorem numbered_append_inj (ht : t.Complete) (hu : u.Complete) (hrest : Closes rest)
    (hrest' : Closes rest') (h : t.numbered.toList ++ rest = u.numbered.toList ++ rest') :
    t.number = u.number ∧ t.mark = u.mark ∧ t.behind ++ rest = u.behind ++ rest' := by
  rw [toList_numbered (isPresent_of_isWhole ht.whole),
    toList_numbered (isPresent_of_isWhole hu.whole), List.append_assoc, List.append_assoc] at h
  obtain ⟨hnumber, hbehind⟩ :=
    Ident.toString_append_inj (ht.delimiter_behind hrest) (hu.delimiter_behind hrest') h
  exact ⟨hnumber, mark_eq_of_behind ht hu hrest hrest' hbehind, hbehind⟩

end

/-- **Unique reading.** The rendering of a term tells the term and where it ends: the number and the
    mark behind it tell the form, and the parts are told one after the other. -/
theorem Complete.legible {t : Term} (h : t.Complete) : t.Legible := by
  induction t with
  | absent => exact absurd h.whole (by simp [isWhole])
  | var id =>
    intro u rest rest' hu hrest hrest' htext
    obtain ⟨hid, hmark, hbehind⟩ := numbered_append_inj h hu hrest hrest' htext
    cases u with
    | absent => exact absurd hu.whole (by simp [isWhole])
    | var id' => exact ⟨congrArg var hid, hbehind⟩
    | abs id' body' param' => cases hmark
    | app id' args' => cases hmark
  | abs id body param ihb ihp =>
    intro u rest rest' hu hrest hrest' htext
    obtain ⟨hid, hmark, hbehind⟩ := numbered_append_inj h hu hrest hrest' htext
    cases u with
    | absent => cases hmark
    | var id' => cases hmark
    | app id' args' => exact absurd hmark (by simp [mark])
    | abs id' body' param' =>
      -- Both texts go on with the body, which ends at its own parenthesis.
      simp only [behind, List.cons_append, List.append_assoc, List.cons.injEq, true_and] at hbehind
      obtain ⟨rfl, hafter⟩ := ihb h.abs.1 hu.abs.1 (.paren _) (.paren _) hbehind
      -- A parameter is written like one argument of a call, or not at all.
      have hlegible : ∀ arg ∈ supplied param, arg.Legible := by
        intro arg harg
        obtain ⟨rfl, -⟩ := mem_supplied.mp harg
        exact ihp (h.abs.2 arg harg)
      obtain ⟨hparam, hends⟩ :=
        argsNumbered_append_inj hlegible hu.abs.2 hrest hrest' (List.cons.inj hafter).2
      exact ⟨by rw [show id = id' from hid, supplied_injective hparam], hends⟩
  | app id args ih =>
    intro u rest rest' hu hrest hrest' htext
    obtain ⟨hid, hmark, hbehind⟩ := numbered_append_inj h hu hrest hrest' htext
    cases u with
    | absent => cases hmark
    | var id' => cases hmark
    | abs id' body' param' => exact absurd hmark (by simp [mark])
    | app id' args' =>
      have hlegible : ∀ arg ∈ args, arg.Legible := fun arg harg => ih arg harg (h.app.2 arg harg)
      obtain ⟨hargs, hends⟩ := argsNumbered_append_inj hlegible hu.app.2 hrest hrest' hbehind
      exact ⟨by rw [show id = id' from hid, hargs], hends⟩

end Term

/-- **Renderings.** Terms without gaps and without empty applications have the same rendering
    exactly if they are structurally equal, which is exactly if they are the same term.  Nothing is
    asked of the identities. -/
theorem numbered_unambiguous {t u : Term} (ht : t.Complete) (hu : u.Complete) :
    (t.numbered = u.numbered ↔ t.same u = true) ∧ (t.same u = true ↔ t = u) := by
  refine ⟨⟨fun h => ?_, fun h => congrArg Term.numbered (Term.same_iff.mp h)⟩, Term.same_iff⟩
  have htext : t.numbered.toList ++ [] = u.numbered.toList ++ [] := by rw [h]
  exact Term.same_iff.mpr (ht.legible hu .nil .nil htext).1

/-- A redex and an application that differ in where the first parenthesis stands, with the least of
    the identities at their head. -/
theorem numbered_unambiguous_punctuation :
    let t : Term := .abs (-9223372036854775808) (.app 1 [.var 2]) (.var 3)
    let u : Term := .app (-9223372036854775808) [.abs 1 (.var 2) .absent, .var 3]
    t.Complete ∧ u.Complete ∧ t.numbered = "-9223372036854775808(1.(2)).(3)" ∧
      u.numbered = "-9223372036854775808.(1(2)).(3)" ∧
      (t.numbered = u.numbered ↔ t.same u = true) ∧ (t.same u = true ↔ t = u) := by
  intro t u
  have ht : t.Complete :=
    ⟨rfl, .abs (.app (by simp) (by simpa using .var 2)) (.var 3)⟩
  have hu : u.Complete := by
    refine ⟨rfl, .app (by simp) ?_⟩
    simpa using ⟨.abs (.var 2) .absent, .var 3⟩
  exact ⟨ht, hu, by cbv, by cbv, numbered_unambiguous ht hu⟩

/-- An empty application is written like a variable. -/
example : (Term.app 1 []).numbered = (Term.var 1).numbered := by decide

end DotLambda
