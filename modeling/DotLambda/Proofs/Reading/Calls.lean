import DotLambda.Proofs.Reading.Verdicts
import Mathlib

namespace DotLambda

/-!
# Reading — scopes as state machines

A scope is a table, a stack and the free names, which different calls change and which only indices
tie together.  Whatever the calls and their order, the three fit: an identity has one origin and one
role, and the innermost binder of a name is the one that came last.

* `Scope.Call`, `Scope.after` — calls, and the scope that they lead to;
* `Scope.Extends` — what all calls keep: entries of the table, and identities of free names;
* `Scope.Enters` — the call that made an entry of the table;
* `Scope.existsUnique_enters` — every entry of the table has one origin;
* `Scope.Entered`, `Scope.mem_stack_after` — the stack has the binders entered and not yet left;
* `Scope.Arises.descending` — it is in the order in which they were entered;
* `scope_calls` — all that calls can rely on.
-/

namespace Scope

/-! ### Calls -/

/-- A call on a scope. -/
inductive Call where
  | bind (name : String)
  | leave
  | freeName (name : String)
  | find? (name : String)
  | binds (name : String)

/-- What a call returns. -/
inductive Reply where
  | done
  | identity (id : Nat)
  | found (id : Option Nat)
  | visible (answer : Bool)

/-- Serves a call. -/
def Call.serve : Call → Scope → Reply × Scope
  | bind name, s => (.identity (s.bind name).1, (s.bind name).2)
  | leave, s => (.done, s.leave)
  | freeName name, s => (.identity (s.freeName name).1, (s.freeName name).2)
  | find? name, s => (.found (s.find? name), s)
  | binds name, s => (.visible (s.binds name), s)

/-- The scope after calls, one after the other on a new scope. -/
def after (calls : List Call) : Scope :=
  calls.foldl (fun s call => (call.serve s).2) {}

/-- What the call at a place among the calls returns. -/
def replyAt (calls : List Call) (i : Nat) : Option Reply :=
  calls[i]?.map fun call => (call.serve (after (calls.take i))).1

/-- The last call is served by the scope that the others have left. -/
theorem after_concat (calls : List Call) (call : Call) :
    after (calls ++ [call]) = (call.serve (after calls)).2 :=
  List.foldl_concat ..

variable {s s' : Scope} {call : Call} {calls : List Call} {name : String} {id : Nat}

/-- Calls lead to scopes that arise. -/
theorem arises_after (calls : List Call) : (after calls).Arises := by
  induction calls using List.reverseRecOn with
  | nil => exact .empty
  | append_singleton calls call ih =>
    rw [after_concat]
    cases call with
    | bind name => exact ih.bind name
    | leave => exact ih.leave
    | freeName name => exact ih.freeName name
    | find? name => exact ih
    | binds name => exact ih

/-! ### What a call does -/

/-- The name for which a call makes an entry in the table: that of a new binder, or that of a free
    name that has no identity yet. -/
def Call.entry? (s : Scope) : Call → Option String
  | bind name => some name
  | leave => none
  | freeName name => if s.unbound.lookup name = none then some name else none
  | find? _ => none
  | binds _ => none

/-- What `freeName` does: it looks up the identity, or makes an entry. -/
theorem freeName_cases (s : Scope) (name : String) :
    (∃ k, s.unbound.lookup name = some k ∧ s.freeName name = (k, s)) ∨
      (s.unbound.lookup name = none ∧ s.freeName name = (s.table.size,
        { s with table := s.table.push name, unbound := (name, s.table.size) :: s.unbound })) := by
  unfold freeName
  cases hlookup : s.unbound.lookup name with
  | some k => exact .inl ⟨k, rfl, rfl⟩
  | none => exact .inr ⟨rfl, rfl⟩

/-- **Step.** A call makes one entry at the end of the table and returns its place, or leaves the
    table as it is. -/
theorem serve_cases (call : Call) (s : Scope) :
    (∃ name, call.entry? s = some name ∧ (call.serve s).1 = .identity s.table.size ∧
      (call.serve s).2.table = s.table.push name) ∨
    (call.entry? s = none ∧ (call.serve s).2.table = s.table) := by
  cases call with
  | bind name => exact .inl ⟨name, rfl, rfl, rfl⟩
  | leave => exact .inr ⟨rfl, rfl⟩
  | freeName name =>
    simp only [Call.entry?, Call.serve]
    rcases freeName_cases s name with ⟨k, hlookup, hfree⟩ | ⟨hlookup, hfree⟩
    · exact .inr ⟨by rw [if_neg (by simp [hlookup])], by rw [hfree]⟩
    · exact .inl ⟨name, by rw [if_pos hlookup], by rw [hfree], by rw [hfree]⟩
  | find? name => exact .inr ⟨rfl, rfl⟩
  | binds name => exact .inr ⟨rfl, rfl⟩

/-- A free name has no identity as long as nobody asked for one. -/
theorem lookup_serve_eq_none :
    (call.serve s).2.unbound.lookup name = none ↔
      s.unbound.lookup name = none ∧ call ≠ .freeName name := by
  cases call with
  | bind other => simp [Call.serve, Scope.bind, allot]
  | leave => simp [Call.serve, Scope.leave]
  | freeName other =>
    simp only [Call.serve, ne_eq, Call.freeName.injEq]
    rcases freeName_cases s other with ⟨k, hlookup, hfree⟩ | ⟨hlookup, hfree⟩
    · rw [hfree]
      refine ⟨fun hnone => ⟨hnone, ?_⟩, And.left⟩
      rintro rfl
      rw [hnone] at hlookup
      cases hlookup
    · rw [hfree]
      by_cases hname : name = other
      · simp [hname]
      · rw [List.lookup_cons, beq_eq_false_iff_ne.mpr hname]
        exact ⟨fun hnone => ⟨hnone, Ne.symm hname⟩, And.left⟩
  | find? other => simp [Call.serve]
  | binds other => simp [Call.serve]

/-- A free name keeps its identity. -/
theorem lookup_serve {k : Nat} (h : s.unbound.lookup name = some k) :
    (call.serve s).2.unbound.lookup name = some k := by
  cases call with
  | bind other => exact h
  | leave => exact h
  | freeName other =>
    simp only [Call.serve]
    rcases freeName_cases s other with ⟨k, -, hfree⟩ | ⟨hlookup, hfree⟩
    · rw [hfree]
      exact h
    · rw [hfree]
      exact lookup_cons_of_new hlookup h
  | find? other => exact h
  | binds other => exact h

/-! ### What calls keep -/

/-- Entries of the table stay where they are, and free names keep their identities. -/
structure Extends (s s' : Scope) : Prop where
  table : s.table.toList <+: s'.table.toList
  lookup : ∀ name k, s.unbound.lookup name = some k → s'.unbound.lookup name = some k

/-- An entry of the table stays where it is. -/
theorem Extends.getElem? (h : s.Extends s') (hname : s.table[id]? = some name) :
    s'.table[id]? = some name := by
  obtain ⟨more, hmore⟩ := h.table
  rw [← Array.getElem?_toList] at hname ⊢
  rw [← hmore, List.getElem?_append_left (List.getElem?_eq_some_iff.mp hname).1, hname]

/-- No call takes anything back. -/
theorem Extends.serve (call : Call) (s : Scope) : s.Extends (call.serve s).2 where
  table := by
    rcases serve_cases call s with ⟨name, -, -, htable⟩ | ⟨-, htable⟩
    · rw [htable, Array.toList_push]
      exact List.prefix_append _ _
    · rw [htable]
  lookup _ _ h := lookup_serve h

/-- **Run.** All that calls enter is there after further calls. -/
theorem extends_after (earlier later : List Call) :
    (after earlier).Extends (after (earlier ++ later)) := by
  induction later using List.reverseRecOn with
  | nil =>
    rw [List.append_nil]
    exact ⟨List.prefix_rfl, fun _ _ h => h⟩
  | append_singleton later call ih =>
    rw [← List.append_assoc, after_concat]
    have hstep := Extends.serve call (after (earlier ++ later))
    exact ⟨ih.table.trans hstep.table, fun name k h => hstep.lookup name k (ih.lookup name k h)⟩

/-- A name is known as free exactly if a call was made for it. -/
theorem lookup_after_eq_none :
    (after calls).unbound.lookup name = none ↔ .freeName name ∉ calls := by
  induction calls using List.reverseRecOn with
  | nil => simp [after]
  | append_singleton calls call ih =>
    rw [after_concat, lookup_serve_eq_none, ih, List.mem_append, List.mem_singleton, not_or]
    exact and_congr_right fun _ => ne_comm

/-- A free name that is known is found, and nothing changes. -/
theorem freeName_of_lookup {k : Nat} (h : s.unbound.lookup name = some k) :
    s.freeName name = (k, s) := by
  rw [freeName, h]

/-- A free name is known from the call for it on. -/
theorem lookup_freeName (s : Scope) (name : String) :
    (s.freeName name).2.unbound.lookup name = some (s.freeName name).1 := by
  rcases freeName_cases s name with ⟨k, hlookup, hfree⟩ | ⟨-, hfree⟩
  · rw [hfree]
    exact hlookup
  · rw [hfree]
    exact List.lookup_cons_self

/-- The calls up to one of them, and those behind it. -/
theorem after_take_succ {i : Nat} (h : calls[i]? = some call) :
    after (calls.take (i + 1)) = (call.serve (after (calls.take i))).2 := by
  rw [List.take_add_one, h, Option.toList_some, after_concat]

/-- **Free names.** A call for a free name returns the identity that one would return after all
    calls, whatever comes between. -/
theorem replyAt_freeName {i : Nat} (h : calls[i]? = some (.freeName name)) :
    replyAt calls i = some (.identity ((after calls).freeName name).1) := by
  have hentered := lookup_freeName (after (calls.take i)) name
  have hextends := extends_after (calls.take (i + 1)) (calls.drop (i + 1))
  rw [List.take_append_drop, after_take_succ h] at hextends
  have hkept := hextends.lookup name _ hentered
  rw [replyAt, h, freeName_of_lookup hkept]
  rfl

/-! ### Where entries come from -/

/-- The call at place `i` is that of a new binder, or the first for a free name, and returns the
    identity `id` for `name`. -/
def Enters (calls : List Call) (i : Nat) (name : String) (id : Nat) : Prop :=
  (calls[i]? = some (.bind name) ∨
    calls[i]? = some (.freeName name) ∧ .freeName name ∉ calls.take i) ∧
  replyAt calls i = some (.identity id)

variable {i : Nat}

/-- The next call makes an entry for the name. -/
theorem entry?_after : call.entry? (after calls) = some name ↔
    call = .bind name ∨ call = .freeName name ∧ .freeName name ∉ calls := by
  cases call with
  | bind other => simp [Call.entry?]
  | leave => simp [Call.entry?]
  | freeName other =>
    simp only [Call.entry?, lookup_after_eq_none, Option.ite_none_right_eq_some,
      Option.some.injEq, reduceCtorEq, false_or, Call.freeName.injEq]
    constructor
    · rintro ⟨hnew, rfl⟩
      exact ⟨rfl, hnew⟩
    · rintro ⟨rfl, hnew⟩
      exact ⟨hnew, rfl⟩
  | find? other => simp [Call.entry?]
  | binds other => simp [Call.entry?]

/-- What a call does is settled by the calls before it. -/
theorem enters_append (h : i < calls.length) (later : List Call) :
    Enters (calls ++ later) i name id ↔ Enters calls i name id := by
  unfold Enters replyAt
  rw [List.getElem?_append_left h, List.take_append_of_le_length h.le]

/-- The last call, if it makes an entry. -/
theorem enters_last : Enters (calls ++ [call]) calls.length name id ↔
    call.entry? (after calls) = some name ∧ id = (after calls).table.size := by
  unfold Enters replyAt
  rw [List.getElem?_concat_length, List.take_left, Option.some.injEq, Option.some.injEq,
    Option.map_some, Option.some.injEq, entry?_after]
  refine and_congr_right fun hentry => ?_
  rcases serve_cases call (after calls) with ⟨_, -, hreply, -⟩ | ⟨hnone, -⟩
  · rw [hreply, Reply.identity.injEq, eq_comm]
  · rw [entry?_after.mpr hentry] at hnone
    cases hnone

/-- An entry was made before the last call or is made by it. -/
theorem enters_concat : Enters (calls ++ [call]) i name id ↔ Enters calls i name id ∨
    i = calls.length ∧ call.entry? (after calls) = some name ∧ id = (after calls).table.size := by
  rcases Nat.lt_trichotomy i calls.length with hlt | rfl | hgt
  · rw [enters_append hlt]
    simp [hlt.ne]
  · have hnone : ¬ Enters calls calls.length name id := by simp [Enters]
    simp [enters_last, hnone]
  · have hnone : calls[i]? = none := List.getElem?_eq_none hgt.le
    have hnone' : (calls ++ [call])[i]? = none := List.getElem?_eq_none (by simpa using hgt)
    simp [Enters, hnone, hnone', hgt.ne']

/-- What a call enters is in the table for good. -/
theorem Enters.getElem? (h : Enters calls i name id) : (after calls).table[id]? = some name := by
  induction calls using List.reverseRecOn with
  | nil => simp [Enters] at h
  | append_singleton calls call ih =>
    rw [after_concat]
    rcases enters_concat.mp h with hold | ⟨-, hentry, rfl⟩
    · exact (Extends.serve call (after calls)).getElem? (ih hold)
    · rcases serve_cases call (after calls) with ⟨other, hother, -, htable⟩ | ⟨hnone, -⟩
      · rw [hentry, Option.some.injEq] at hother
        rw [htable, Array.getElem?_push_size, hother]
      · rw [hentry] at hnone
        cases hnone

/-- No two calls enter one identity: the later one finds it in the table. -/
theorem Enters.unique {j : Nat} {other : String} (hi : Enters calls i name id)
    (hj : Enters calls j other id) : i = j := by
  induction calls using List.reverseRecOn with
  | nil => simp [Enters] at hi
  | append_singleton calls call ih =>
    have hsize {k : Nat} {name : String} : ¬ Enters calls k name (after calls).table.size :=
      fun h => by simpa using h.getElem?
    rcases enters_concat.mp hi with hi | ⟨rfl, -, rfl⟩
    · rcases enters_concat.mp hj with hj | ⟨-, -, rfl⟩
      · exact ih hi hj
      · exact absurd hi hsize
    · rcases enters_concat.mp hj with hj | ⟨rfl, -, -⟩
      · exact absurd hj hsize
      · rfl

/-- Every entry of the table was made by some call. -/
theorem exists_enters (h : (after calls).table[id]? = some name) :
    ∃ i, Enters calls i name id := by
  induction calls using List.reverseRecOn with
  | nil => simp [after] at h
  | append_singleton calls call ih =>
    rw [after_concat] at h
    simp only [enters_concat]
    rcases serve_cases call (after calls) with ⟨other, hentry, -, htable⟩ | ⟨-, htable⟩
    · rw [htable, Array.getElem?_push] at h
      split at h
      · rename_i hid
        rw [Option.some.injEq] at h
        exact ⟨calls.length, .inr ⟨rfl, h ▸ hentry, hid⟩⟩
      · obtain ⟨i, hi⟩ := ih h
        exact ⟨i, .inl hi⟩
    · rw [htable] at h
      obtain ⟨i, hi⟩ := ih h
      exact ⟨i, .inl hi⟩

/-- **Origins.** Every entry of the table comes from exactly one call. -/
theorem existsUnique_enters (h : (after calls).table[id]? = some name) :
    ∃! i, Enters calls i name id := by
  obtain ⟨i, hi⟩ := exists_enters h
  exact ⟨i, hi, fun j hj => hj.unique hi⟩

/-! ### The stack -/

/-- **Invariant.** The stack has the binders in the order in which they were entered, the latest
    first. -/
theorem Arises.descending (h : s.Arises) : s.stack.Pairwise (· > ·) := by
  induction h with
  | empty => exact List.Pairwise.nil
  | @bind s hs name ih => exact List.pairwise_cons.mpr ⟨hs.sound.stack_lt, ih⟩
  | leave _ ih => exact ih.tail
  | @freeName s _ name ih =>
    rcases freeName_cases s name with ⟨k, -, hfree⟩ | ⟨-, hfree⟩
    · rwa [hfree]
    · rwa [hfree]

/-- Whether a call enters a new binder. -/
def Call.enters : Call → Bool
  | bind _ => true
  | _ => false

/-- Whether a call leaves the innermost binder. -/
def Call.leaves : Call → Bool
  | leave => true
  | _ => false

/-- The binder entered by the call at place `i` has not been left: since then, at no time have more
    binders been left than entered. -/
def Stays (calls : List Call) (i : Nat) : Prop :=
  ∀ later, later <+: calls.drop (i + 1) → later.countP Call.leaves ≤ later.countP Call.enters

/-- The call at place `i` has entered the binder `id`, which has not been left, and neither have `k`
    of those entered since. -/
structure Entered (calls : List Call) (i id k : Nat) : Prop where
  bind : ∃ name, calls[i]? = some (.bind name)
  reply : replyAt calls i = some (.identity id)
  stays : Stays calls i
  above : (calls.drop (i + 1)).countP Call.enters = (calls.drop (i + 1)).countP Call.leaves + k

/-- It is one of the calls. -/
theorem Entered.lt_length {k : Nat} (h : Entered calls i id k) : i < calls.length := by
  obtain ⟨_, hcall⟩ := h.bind
  exact (List.getElem?_eq_some_iff.mp hcall).1

/-- With one more call, a binder that was entered before has one more above it, or one fewer.  It
    stays unless there is none above it to leave. -/
theorem entered_concat_of_lt {k : Nat} (h : i < calls.length) :
    Entered (calls ++ [call]) i id k ↔
      ∃ j, Entered calls i id j ∧ j + call.enters.toNat = call.leaves.toNat + k := by
  have hdrop : (calls ++ [call]).drop (i + 1) = calls.drop (i + 1) ++ [call] :=
    List.drop_append_of_le_length h
  have hget : (calls ++ [call])[i]? = calls[i]? := List.getElem?_append_left h
  have hreply : replyAt (calls ++ [call]) i = replyAt calls i := by
    rw [replyAt, replyAt, hget, List.take_append_of_le_length h.le]
  -- The new call is the last one behind `i`, and is counted last.
  have hcount (p : Call → Bool) (later : List Call) :
      (later ++ [call]).countP p = later.countP p + (p call).toNat := by
    rw [List.countP_append, List.countP_singleton]
    cases p call <;> rfl
  constructor
  · rintro ⟨hbind, hid, hstays, habove⟩
    rw [hdrop, hcount, hcount] at habove
    have hold : Stays calls i := fun later hlater =>
      hstays later (hdrop ▸ hlater.trans (List.prefix_append _ _))
    have hle := hold _ List.prefix_rfl
    refine ⟨_, ⟨hget ▸ hbind, hreply ▸ hid, hold, (Nat.add_sub_cancel' hle).symm⟩, by omega⟩
  · rintro ⟨j, ⟨hbind, hid, hstays, habove⟩, hj⟩
    refine ⟨hget ▸ hbind, hreply ▸ hid, fun later hlater => ?_, ?_⟩
    · rw [hdrop, List.prefix_concat_iff] at hlater
      rcases hlater with rfl | hlater
      · rw [hcount, hcount]
        omega
      · exact hstays later hlater
    · rw [hdrop, hcount, hcount]
      omega

/-- The last call may enter a binder, which has none above it. -/
theorem entered_last {k : Nat} : Entered (calls ++ [call]) calls.length id k ↔
    call.enters = true ∧ id = (after calls).table.size ∧ k = 0 := by
  -- No call comes after the last one.
  have hdrop : (calls ++ [call]).drop (calls.length + 1) = [] :=
    List.drop_of_length_le (by simp)
  have hreply (name : String) : replyAt (calls ++ [.bind name]) calls.length
      = some (.identity (after calls).table.size) := by
    rw [replyAt, List.getElem?_concat_length, List.take_left]
    rfl
  constructor
  · rintro ⟨⟨name, hcall⟩, hid, -, habove⟩
    rw [List.getElem?_concat_length, Option.some.injEq] at hcall
    subst hcall
    rw [hreply, Option.some.injEq, Reply.identity.injEq] at hid
    rw [hdrop] at habove
    exact ⟨rfl, hid.symm, by simpa using habove.symm⟩
  · rintro ⟨henters, rfl, rfl⟩
    cases call with
    | bind name =>
      refine ⟨⟨name, List.getElem?_concat_length⟩, hreply name, fun later hlater => ?_, ?_⟩
      · rw [hdrop, List.prefix_nil] at hlater
        rw [hlater]
        exact Nat.le_refl _
      · rw [hdrop]
        rfl
    | leave => cases henters
    | freeName name => cases henters
    | find? name => cases henters
    | binds name => cases henters

/-- The binders that have not been left after one more call: a new one, and those before it, unless
    the last of them is left. -/
theorem exists_entered_concat {k : Nat} : (∃ i, Entered (calls ++ [call]) i id k) ↔
    (call.enters = true ∧ id = (after calls).table.size ∧ k = 0) ∨
      ∃ j, (∃ i, Entered calls i id j) ∧ j + call.enters.toNat = call.leaves.toNat + k := by
  constructor
  · rintro ⟨i, h⟩
    have hle : i ≤ calls.length := by
      have := h.lt_length
      rw [List.length_append, List.length_singleton] at this
      omega
    rcases Nat.lt_or_eq_of_le hle with hlt | rfl
    · obtain ⟨j, hj, hcount⟩ := (entered_concat_of_lt hlt).mp h
      exact .inr ⟨j, ⟨i, hj⟩, hcount⟩
    · exact .inl (entered_last.mp h)
  · rintro (h | ⟨j, ⟨i, h⟩, hcount⟩)
    · exact ⟨_, entered_last.mpr h⟩
    · exact ⟨i, (entered_concat_of_lt h.lt_length).mpr ⟨j, h, hcount⟩⟩

/-- **The stack.** It has the binders that were entered and not left, each below those that were
    entered after it. -/
theorem getElem?_stack_after {k : Nat} :
    (after calls).stack[k]? = some id ↔ ∃ i, Entered calls i id k := by
  induction calls using List.reverseRecOn generalizing k with
  | nil =>
    refine ⟨fun h => by simp [after] at h, ?_⟩
    rintro ⟨i, h⟩
    exact absurd h.lt_length (Nat.not_lt_zero i)
  | append_singleton calls call ih =>
    rw [after_concat, exists_entered_concat]
    -- What neither enters nor leaves a binder keeps the stack.
    have hkept (henters : call.enters = false) (hleaves : call.leaves = false)
        (hstack : (call.serve (after calls)).2.stack = (after calls).stack) :
        (call.serve (after calls)).2.stack[k]? = some id ↔
          (call.enters = true ∧ id = (after calls).table.size ∧ k = 0) ∨
            ∃ j, (∃ i, Entered calls i id j) ∧ j + call.enters.toNat = call.leaves.toNat + k := by
      simp [hstack, henters, hleaves, ih]
    cases call with
    | bind name =>
      show (_ :: (after calls).stack)[k]? = some id ↔ _
      cases k with
      | zero => simp [Call.enters, Call.leaves, eq_comm]
      | succ k => simp [Call.enters, Call.leaves, ih]
    | leave =>
      show (after calls).stack.tail[k]? = some id ↔ _
      rw [List.getElem?_tail, ih]
      simp [Call.enters, Call.leaves, Nat.add_comm 1 k]
    | freeName name =>
      refine hkept rfl rfl ?_
      show ((after calls).freeName name).2.stack = _
      rcases freeName_cases (after calls) name with ⟨_, -, hfree⟩ | ⟨-, hfree⟩ <;> rw [hfree]
    | find? name => exact hkept rfl rfl rfl
    | binds name => exact hkept rfl rfl rfl

/-- A binder is on the stack exactly if it was entered and has not been left. -/
theorem mem_stack_after : id ∈ (after calls).stack ↔
    ∃ i name, calls[i]? = some (.bind name) ∧ replyAt calls i = some (.identity id) ∧
      Stays calls i := by
  constructor
  · intro hid
    obtain ⟨k, hk⟩ := List.mem_iff_getElem?.mp hid
    obtain ⟨i, ⟨name, hcall⟩, hreply, hstays, -⟩ := getElem?_stack_after.mp hk
    exact ⟨i, name, hcall, hreply, hstays⟩
  · rintro ⟨i, name, hcall, hreply, hstays⟩
    have hle := hstays _ List.prefix_rfl
    exact List.mem_of_getElem?
      (getElem?_stack_after.mpr ⟨i, ⟨name, hcall⟩, hreply, hstays, (Nat.add_sub_cancel' hle).symm⟩)

/-- Where the table has an entry, it gives the name. -/
theorem nameOf_eq_iff (h : id < s.table.size) : s.nameOf id = name ↔ s.table[id]? = some name := by
  rw [nameOf, Array.getElem?_eq_getElem h, Option.getD_some, Option.some.injEq]

/-- **Innermost binders.** Of the visible binders of a name, the one with the greatest identity is
    found. -/
theorem Arises.find?_eq_some (h : s.Arises) :
    s.find? name = some id ↔ IsGreatest {k | k ∈ s.stack ∧ s.table[k]? = some name} id := by
  have hfound {id : Nat} (hfind : s.find? name = some id) :
      IsGreatest {k | k ∈ s.stack ∧ s.table[k]? = some name} id := by
    obtain ⟨hname, inner, outer, hstack, hinner⟩ := List.find?_eq_some_iff_append.mp hfind
    have hmem : id ∈ s.stack := by
      rw [hstack]
      simp
    refine ⟨⟨hmem, (nameOf_eq_iff (h.sound.stack_lt id hmem)).mp (by simpa using hname)⟩, ?_⟩
    -- What was entered later has another name, and what was entered earlier is less.
    rintro k ⟨hk, hkname⟩
    have horder := h.descending
    rw [hstack, List.pairwise_append, List.pairwise_cons] at horder
    rw [← nameOf_eq_iff (h.sound.stack_lt k hk)] at hkname
    rw [hstack, List.mem_append, List.mem_cons] at hk
    rcases hk with hk | rfl | hk
    · exact absurd hkname (by simpa using hinner k hk)
    · exact le_rfl
    · exact (horder.2.1.1 k hk).le
  refine ⟨hfound, fun hgreatest => ?_⟩
  cases hfind : s.find? name with
  | some k => rw [(hfound hfind).unique hgreatest]
  | none =>
    have hname := (nameOf_eq_iff (h.sound.stack_lt id hgreatest.1.1)).mpr hgreatest.1.2
    exact absurd (List.find?_eq_none.mp hfind id hgreatest.1.1) (by simp [hname])

end Scope

open Scope in
/-- **Scopes.** Whatever calls are made on a new scope, in whatever order:

    * the stack has the binders that were entered and not left, and ascends from its bottom to its
      top;
    * every entry of the table comes from exactly one call, that of a new binder or the first for
      a free name, and every such call has made the entry that it returned;
    * no identity is both visible as a binder and that of a free name;
    * the table only grows;
    * the greatest visible identity of a name is found, and one is found exactly if the name is
      bound;
    * a free name has one identity, whatever is bound or left in between;
    * the names that are listed are those of the stack from its top. -/
theorem scope_calls (calls : List Scope.Call) :
    (∀ id, id ∈ (after calls).stack ↔ ∃ i name, calls[i]? = some (.bind name) ∧
      replyAt calls i = some (.identity id) ∧ Stays calls i) ∧
    (after calls).stack.reverse.Pairwise (· < ·) ∧
    (∀ id name, (after calls).table[id]? = some name → ∃! i, Enters calls i name id) ∧
    (∀ i id name, Enters calls i name id → (after calls).table[id]? = some name) ∧
    (∀ id ∈ (after calls).stack, id ∉ (after calls).unboundIds) ∧
    (∀ earlier, earlier <+: calls → (after earlier).table.toList <+: (after calls).table.toList) ∧
    (∀ name id, (after calls).find? name = some id ↔
      IsGreatest {k | k ∈ (after calls).stack ∧ (after calls).table[k]? = some name} id) ∧
    (∀ name, ((after calls).find? name).isSome = (after calls).binds name) ∧
    (∀ name, ∃ id, ∀ i : Nat, calls[i]? = some (.freeName name) →
      replyAt calls i = some (.identity id)) ∧
    (after calls).boundNames.map some = (after calls).stack.map ((after calls).table[·]?) := by
  -- What holds of one scope holds because it has arisen from calls; the rest is about the calls.
  have harises := arises_after calls
  refine ⟨fun _ => mem_stack_after, List.pairwise_reverse.mpr harises.descending,
    fun _ _ => existsUnique_enters, fun _ _ _ => Enters.getElem?, harises.sound.disjoint, ?_,
    fun _ _ => harises.find?_eq_some, ?_, fun name => ⟨_, fun _ => replyAt_freeName⟩, ?_⟩
  · rintro earlier ⟨later, rfl⟩
    exact (extends_after earlier later).table
  · intro name
    rw [Bool.eq_iff_iff, binds_iff, Option.isSome_iff_ne_none, Ne, find?_eq_none_iff, not_not]
  · rw [boundNames, List.map_map]
    refine List.map_congr_left fun id hid => ?_
    exact ((nameOf_eq_iff (harises.sound.stack_lt id hid)).mp rfl).symm

end DotLambda
