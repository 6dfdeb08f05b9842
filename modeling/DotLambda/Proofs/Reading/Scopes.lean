import DotLambda.Proofs.Reading.Success
import DotLambda.Proofs.Term.Identities
import Mathlib.Data.Int.Order.Basic
import Mathlib.Data.List.Nodup

namespace DotLambda

/-!
# Reading — identities

Where the identities of a term that was read come from.  Every binder has been handed out for it
while its text was read, and what is free is a visible binder or a free name.

* `Scope.Sound` — the identities in use are in the table, each in one role;
* `Scope.Grows` — what reading does to a scope;
* `Scope.Introduces` — binders that were handed out and are out of sight again;
* `Placed` — what a term has to do with the scopes before and after it is read, and with the
  arguments that wait;
* `placed_respects` — all that is read is placed;
* `proper_of_parse` — so the binders of a program are distinct, and none is also free.
-/

/-! ### Scopes -/

namespace Scope

variable {s s' s'' : Scope}

/-- The identities of the free names met so far. -/
def unboundIds (s : Scope) : List Nat :=
  s.unbound.map Prod.snd

/-- The identities that can be used: visible binders and free names. -/
def Visible (s : Scope) (i : Ident) : Prop :=
  ∃ k : Nat, i = k ∧ (k ∈ s.stack ∨ k ∈ s.unboundIds)

/-- Every identity in use is in the table, and none is both a binder and a free name.  Each free
    name has one identity, which has its name. -/
structure Sound (s : Scope) : Prop where
  stack_lt : ∀ k ∈ s.stack, k < s.table.size
  unbound_lt : ∀ k ∈ s.unboundIds, k < s.table.size
  disjoint : ∀ k ∈ s.stack, k ∉ s.unboundIds
  lookup : ∀ p ∈ s.unbound, s.unbound.lookup p.1 = some p.2
  named : ∀ p ∈ s.unbound, s.nameOf p.2 = p.1

/-- Reading leaves the stack as it was, adds to the table, and hands out new identities to free
    names that have none. -/
structure Grows (s s' : Scope) : Prop where
  stack : s'.stack = s.stack
  size : s.table.size ≤ s'.table.size
  nameOf : ∀ k < s.table.size, s'.nameOf k = s.nameOf k
  lookup : ∀ name k, s.unbound.lookup name = some k → s'.unbound.lookup name = some k
  kept : s.unboundIds ⊆ s'.unboundIds
  old : ∀ k ∈ s'.unboundIds, k < s.table.size → k ∈ s.unboundIds

/-- The empty scope is sound. -/
theorem sound_empty : Sound {} :=
  ⟨by simp, by simp [unboundIds], by simp, by simp, by simp⟩

namespace Grows

/-- A scope grows into itself. -/
theorem refl (s : Scope) : s.Grows s :=
  ⟨rfl, Nat.le_refl _, fun _ _ => rfl, fun _ _ h => h, fun _ h => h, fun _ h _ => h⟩

/-- Scopes grow step by step. -/
theorem trans (h₁ : s.Grows s') (h₂ : s'.Grows s'') : s.Grows s'' where
  stack := h₂.stack.trans h₁.stack
  size := Nat.le_trans h₁.size h₂.size
  nameOf := fun k hk => (h₂.nameOf k (Nat.lt_of_lt_of_le hk h₁.size)).trans (h₁.nameOf k hk)
  lookup := fun name k h => h₂.lookup name k (h₁.lookup name k h)
  kept := fun _ hk => h₂.kept (h₁.kept hk)
  old := fun k hk hlt => h₁.old k (h₂.old k hk (Nat.lt_of_lt_of_le hlt h₁.size)) hlt

end Grows

/-- What is visible has an entry in the table. -/
theorem Visible.lt {i : Ident} (h : s.Visible i) (hs : s.Sound) : i < s.table.size := by
  obtain ⟨k, rfl, hk | hk⟩ := h
  · exact Int.ofNat_lt.mpr (hs.stack_lt k hk)
  · exact Int.ofNat_lt.mpr (hs.unbound_lt k hk)

/-- What is visible stays so while the scope grows. -/
theorem Visible.mono {i : Ident} (h : s.Visible i) (hg : s.Grows s') : s'.Visible i := by
  obtain ⟨k, rfl, hk⟩ := h
  exact ⟨k, rfl, hk.imp (fun hk => hg.stack ▸ hk) fun hk => hg.kept hk⟩

/-- What is visible later and is not new has been visible before. -/
theorem Visible.of_grows {i : Ident} (h : s'.Visible i) (hg : s.Grows s')
    (hlt : i < s.table.size) : s.Visible i := by
  obtain ⟨k, rfl, hk⟩ := h
  exact ⟨k, rfl, hk.imp (fun hk => hg.stack ▸ hk) fun hk => hg.old k hk (Int.ofNat_lt.mp hlt)⟩

/-! ### The operations on scopes -/

/-- A new binder gets the next entry of the table and goes on top of the stack. -/
theorem bind_cases {name : String} {id : Nat} (h : s.bind name = (id, s')) :
    id = s.table.size ∧
      s' = { s with table := s.table.push name, stack := s.table.size :: s.stack } := by
  cases h
  exact ⟨rfl, rfl⟩

/-- A name is resolved to its innermost binder, to a free identity that it has already, or to a new
    one. -/
theorem resolve_cases {name : String} {id : Nat} (h : s.resolve name = (id, s')) :
    s.find? name = some id ∧ s' = s ∨
      s.find? name = none ∧ s.unbound.lookup name = some id ∧ s' = s ∨
      s.find? name = none ∧ s.unbound.lookup name = none ∧ id = s.table.size ∧
        s' = { s with
          table := s.table.push name, unbound := (name, s.table.size) :: s.unbound } := by
  unfold resolve at h
  split at h
  · rename_i k hk
    cases h
    exact .inl ⟨hk, rfl⟩
  · rename_i hnone
    unfold freeName at h
    split at h
    · rename_i k hk
      cases h
      exact .inr (.inl ⟨hnone, hk, rfl⟩)
    · rename_i hnew
      cases h
      exact .inr (.inr ⟨hnone, hnew, rfl, rfl⟩)

/-- A longer table has the same names where it had names. -/
theorem nameOf_push {k : Nat} (hk : k < s.table.size) (name : String) (stack : List Nat)
    (unbound : List (String × Nat)) :
    nameOf { table := s.table.push name, stack, unbound } k = s.nameOf k := by
  unfold nameOf
  rw [Array.getElem?_push_lt hk, Array.getElem?_eq_getElem hk]

/-- The last entry of the table is the last name. -/
theorem nameOf_push_self (name : String) (stack : List Nat) (unbound : List (String × Nat)) :
    nameOf { table := s.table.push name, stack, unbound } s.table.size = name := by
  unfold nameOf
  rw [Array.getElem?_push_size]
  rfl

/-- The identities of free names are those that are listed with them. -/
theorem mem_unboundIds {p : String × Nat} (h : p ∈ s.unbound) : p.2 ∈ s.unboundIds :=
  List.mem_map_of_mem h

/-- What is found for a free name is listed with it. -/
theorem mem_unbound_of_lookup {name : String} {k : Nat} (h : s.unbound.lookup name = some k) :
    (name, k) ∈ s.unbound := by
  obtain ⟨before, after, hsplit, -⟩ := List.lookup_eq_some_iff.mp h
  rw [hsplit]
  exact List.mem_append_right _ List.mem_cons_self

/-- A sound scope stays so below a new binder. -/
theorem Sound.bind {name : String} {id : Nat} (hs : s.Sound) (h : s.bind name = (id, s')) :
    s'.Sound := by
  obtain ⟨-, rfl⟩ := bind_cases h
  refine ⟨?_, ?_, ?_, hs.lookup, ?_⟩
  · intro k hk
    rw [Array.size_push]
    rcases List.mem_cons.mp hk with rfl | hk
    · exact Nat.lt_succ_self _
    · exact Nat.lt_succ_of_lt (hs.stack_lt k hk)
  · intro k hk
    rw [Array.size_push]
    exact Nat.lt_succ_of_lt (hs.unbound_lt k hk)
  · intro k hk hfree
    rcases List.mem_cons.mp hk with rfl | hk
    · exact Nat.lt_irrefl _ (hs.unbound_lt _ hfree)
    · exact hs.disjoint k hk hfree
  · intro p hp
    rw [nameOf_push (hs.unbound_lt _ (mem_unboundIds hp))]
    exact hs.named p hp

/-- It stays so when the innermost binder is left. -/
theorem Sound.leave (hs : s.Sound) : s.leave.Sound where
  stack_lt := fun k hk => hs.stack_lt k (List.mem_of_mem_tail hk)
  unbound_lt := hs.unbound_lt
  disjoint := fun k hk => hs.disjoint k (List.mem_of_mem_tail hk)
  lookup := hs.lookup
  named := hs.named

/-- A binder's scope, once left, has added to the scope around it. -/
theorem Grows.leave {s₁ s₂ : Scope} {name : String} {id : Nat} (h : s.bind name = (id, s₁))
    (hg : s₁.Grows s₂) : s.Grows s₂.leave := by
  obtain ⟨-, rfl⟩ := bind_cases h
  have hsize : s.table.size < s₂.table.size := by
    have := hg.size
    rw [Array.size_push] at this
    exact this
  have hlt : ∀ k < s.table.size, k < (s.table.push name).size := fun k hk => by
    rw [Array.size_push]
    exact Nat.lt_succ_of_lt hk
  refine ⟨?_, Nat.le_of_lt hsize, fun k hk => ?_, hg.lookup, hg.kept, fun k hk hold => ?_⟩
  · show s₂.stack.tail = s.stack
    rw [hg.stack, List.tail_cons]
  · exact (hg.nameOf k (hlt k hk)).trans (nameOf_push hk name _ _)
  · exact hg.old k hk (hlt k hold)

/-- What has an identity keeps it when another free name gets one. -/
theorem lookup_cons_of_new {name other : String} {k new : Nat} {unbound : List (String × Nat)}
    (hnew : unbound.lookup name = none) (h : unbound.lookup other = some k) :
    ((name, new) :: unbound).lookup other = some k := by
  have hne : (other == name) = false := by
    rw [beq_eq_false_iff_ne]
    rintro rfl
    rw [hnew] at h
    cases h
  rw [List.lookup_cons, hne]
  exact h

/-- A free name gets an identity at its first use. -/
theorem Grows.enterFree {name : String} (hnew : s.unbound.lookup name = none)
    (h : s' = { s with
      table := s.table.push name, unbound := (name, s.table.size) :: s.unbound }) : s.Grows s' := by
  subst h
  have hids : unboundIds { s with
      table := s.table.push name, unbound := (name, s.table.size) :: s.unbound }
        = s.table.size :: s.unboundIds := rfl
  refine ⟨rfl, ?_, ?_, ?_, ?_, ?_⟩
  · rw [Array.size_push]
    exact Nat.le_succ _
  · exact fun k hk => nameOf_push hk name _ _
  · exact fun _ _ h => lookup_cons_of_new hnew h
  · rw [hids]
    exact List.subset_cons_self _ _
  · rw [hids]
    intro k hk hlt
    rcases List.mem_cons.mp hk with rfl | hk
    · exact absurd hlt (Nat.lt_irrefl _)
    · exact hk

/-- It stays so with a new free name, and has grown. -/
theorem Sound.enterFree {name : String} (hs : s.Sound) (hnew : s.unbound.lookup name = none)
    (h : s' = { s with
      table := s.table.push name, unbound := (name, s.table.size) :: s.unbound }) :
    s'.Sound ∧ s.Grows s' := by
  refine ⟨?_, .enterFree hnew h⟩
  subst h
  -- The new identity is above all that have an entry.
  have hids : unboundIds { s with
      table := s.table.push name, unbound := (name, s.table.size) :: s.unbound }
        = s.table.size :: s.unboundIds := rfl
  refine ⟨?_, ?_, ?_, ?_, ?_⟩
  · intro k hk
    rw [Array.size_push]
    exact Nat.lt_succ_of_lt (hs.stack_lt k hk)
  · rw [hids, Array.size_push]
    intro k hk
    rcases List.mem_cons.mp hk with rfl | hk
    · exact Nat.lt_succ_self _
    · exact Nat.lt_succ_of_lt (hs.unbound_lt k hk)
  · rw [hids]
    intro k hk hfree
    rcases List.mem_cons.mp hfree with rfl | hfree
    · exact Nat.lt_irrefl _ (hs.stack_lt _ hk)
    · exact hs.disjoint k hk hfree
  · intro p hp
    rcases List.mem_cons.mp hp with rfl | hp
    · exact List.lookup_cons_self
    · exact lookup_cons_of_new hnew (hs.lookup p hp)
  · intro p hp
    rcases List.mem_cons.mp hp with rfl | hp
    · exact nameOf_push_self name _ _
    · rw [nameOf_push (hs.unbound_lt _ (mem_unboundIds hp))]
      exact hs.named p hp

/-- Whatever the scope, it grows when a name is resolved. -/
theorem Grows.resolve {name : String} {id : Nat} (h : s.resolve name = (id, s')) : s.Grows s' := by
  rcases resolve_cases h with ⟨-, rfl⟩ | ⟨-, -, rfl⟩ | ⟨-, hnew, -, heq⟩
  · exact .refl _
  · exact .refl _
  · exact .enterFree hnew heq

/-- A name that is resolved is visible, and the scope has grown. -/
theorem Sound.resolve {name : String} {id : Nat} (hs : s.Sound)
    (h : s.resolve name = (id, s')) : s'.Sound ∧ s.Grows s' ∧ s'.Visible id := by
  rcases resolve_cases h with ⟨hfind, rfl⟩ | ⟨-, hfree, rfl⟩ | ⟨-, hnew, rfl, rfl⟩
  · exact ⟨hs, .refl _, id, rfl, .inl (List.mem_of_find?_eq_some hfind)⟩
  · exact ⟨hs, .refl _, id, rfl, .inr (mem_unboundIds (mem_unbound_of_lookup hfree))⟩
  · obtain ⟨hsound, hgrows⟩ := hs.enterFree hnew rfl
    exact ⟨hsound, hgrows, _, rfl, .inr List.mem_cons_self⟩

/-! ### Binders that were handed out -/

/-- The identities `new` were handed out to binders from `s` to `s'`, each to one, and have gone
    out of sight again. -/
structure Introduces (s : Scope) (new : List Ident) (s' : Scope) : Prop where
  nodup : new.Nodup
  low : ∀ i ∈ new, (s.table.size : Ident) ≤ i
  high : ∀ i ∈ new, i < s'.table.size
  hidden : ∀ i ∈ new, ¬ s'.Visible i

namespace Introduces

/-- No identities are handed out to no binders. -/
theorem nil (s s' : Scope) : s.Introduces [] s' :=
  ⟨List.nodup_nil, by simp, by simp, by simp⟩

/-- Those handed out in two stretches are handed out in one. -/
theorem append {a b : List Ident} (h₁ : s.Introduces a s') (h₂ : s'.Introduces b s'')
    (hg₁ : s.Grows s') (hg₂ : s'.Grows s'') : s.Introduces (a ++ b) s'' where
  nodup := by
    refine List.nodup_append'.mpr ⟨h₁.nodup, h₂.nodup, fun i ha hb => ?_⟩
    exact not_lt.mpr (h₂.low i hb) (h₁.high i ha)
  low := by
    intro i hi
    rcases List.mem_append.mp hi with hi | hi
    · exact h₁.low i hi
    · exact le_trans (Int.ofNat_le.mpr hg₁.size) (h₂.low i hi)
  high := by
    intro i hi
    rcases List.mem_append.mp hi with hi | hi
    · exact lt_of_lt_of_le (h₁.high i hi) (Int.ofNat_le.mpr hg₂.size)
    · exact h₂.high i hi
  hidden := by
    intro i hi hvisible
    rcases List.mem_append.mp hi with hi | hi
    · exact h₁.hidden i hi (hvisible.of_grows hg₂ (h₁.high i hi))
    · exact h₂.hidden i hi hvisible

/-- Their order does not matter. -/
theorem perm {a b : List Ident} (h : s.Introduces a s') (hperm : a.Perm b) :
    s.Introduces b s' where
  nodup := hperm.nodup_iff.mp h.nodup
  low := fun i hi => h.low i (hperm.mem_iff.mpr hi)
  high := fun i hi => h.high i (hperm.mem_iff.mpr hi)
  hidden := fun i hi => h.hidden i (hperm.mem_iff.mpr hi)

/-- A binder is out of sight once its scope is left. -/
theorem binder {s₁ s₂ : Scope} {name : String} {id : Nat} {new : List Ident} (hs : s.Sound)
    (hid : s.bind name = (id, s₁)) (h : s₁.Introduces new s₂) (hg : s₁.Grows s₂) :
    s.Introduces ((id : Ident) :: new) s₂.leave := by
  have hleave := Grows.leave hid hg
  obtain ⟨rfl, rfl⟩ := bind_cases hid
  -- The binder gets the identity below all that are handed out in its body.
  have hnext : (s.table.size : Ident) < (s.table.push name).size := by
    rw [Array.size_push]
    exact Int.ofNat_lt.mpr (Nat.lt_succ_self _)
  refine ⟨List.nodup_cons.mpr ⟨fun hmem => ?_, h.nodup⟩, ?_, ?_, ?_⟩
  · exact not_lt.mpr (h.low _ hmem) hnext
  · intro i hi
    rcases List.mem_cons.mp hi with rfl | hi
    · exact le_refl _
    · exact le_trans (le_of_lt hnext) (h.low i hi)
  · intro i hi
    rcases List.mem_cons.mp hi with rfl | hi
    · exact lt_of_lt_of_le hnext (Int.ofNat_le.mpr hg.size)
    · exact h.high i hi
  · intro i hi hvisible
    rcases List.mem_cons.mp hi with rfl | hi
    · -- The binder is not on the stack any more, and free names get identities of their own.
      obtain ⟨k, hk, hstack | hfree⟩ := hvisible
      · rw [hleave.stack] at hstack
        have := hs.stack_lt k hstack
        exact absurd (Int.ofNat_inj.mp hk) (by omega)
      · obtain rfl := Int.ofNat_inj.mp hk
        have hold := hg.old _ hfree (Int.ofNat_lt.mp hnext)
        exact Nat.lt_irrefl _ (hs.unbound_lt _ hold)
    · obtain ⟨k, rfl, hk⟩ := hvisible
      exact h.hidden _ hi ⟨k, rfl, hk.imp_left List.mem_of_mem_tail⟩

end Introduces

end Scope

/-! ### Terms -/

/-- What a term that was read has to do with the scope before, the arguments that waited and the
    scope after: all arguments are in it, its other binders are new, and what else is free in it
    is visible. -/
structure Placed (s : Scope) (queue : List Term) (t : Term) (s' : Scope) : Prop where
  sound : s'.Sound
  grows : s.Grows s'
  whole : t.isWhole = true
  frees : ∀ i ∈ t.frees, s'.Visible i ∨ i ∈ queue.flatMap Term.frees
  binders : ∃ new, t.binders.Perm (new ++ queue.flatMap Term.binders) ∧ s.Introduces new s'

/-- The same for arguments, which are read with nothing waiting. -/
structure PlacedEach (s : Scope) (ts : List Term) (s' : Scope) : Prop where
  sound : s'.Sound
  grows : s.Grows s'
  whole : ∀ t ∈ ts, t.isWhole = true
  frees : ∀ i ∈ ts.flatMap Term.frees, s'.Visible i
  binders : s.Introduces (ts.flatMap Term.binders) s'

/-- Arguments that wait: they have all their parts, and what is free in them has been handed out
    before. -/
structure Waiting (s : Scope) (queue : List Term) : Prop where
  whole : ∀ u ∈ queue, u.isWhole = true
  low : ∀ u ∈ queue, ∀ i ∈ u.frees, i < s.table.size

namespace Waiting

variable {s s' : Scope} {queue : List Term}

/-- No arguments wait. -/
theorem nil (s : Scope) : Waiting s [] :=
  ⟨by simp, by simp⟩

/-- Own arguments wait in front of the others. -/
theorem append {args : List Term} (h : Waiting s queue) (hargs : PlacedEach s args s') :
    Waiting s' (args ++ queue) where
  whole := fun u hu => (List.mem_append.mp hu).elim (hargs.whole u) (h.whole u)
  low := by
    intro u hu i hi
    rcases List.mem_append.mp hu with hu | hu
    · exact (hargs.frees i (List.mem_flatMap.mpr ⟨u, hu, hi⟩)).lt hargs.sound
    · exact lt_of_lt_of_le (h.low u hu i hi) (Int.ofNat_le.mpr hargs.grows.size)

/-- Below a binder, all but the first argument wait. -/
theorem below {name : String} {id : Nat} (h : Waiting s queue) (hid : s.bind name = (id, s')) :
    Waiting s' queue.tail where
  whole := fun u hu => h.whole u (List.mem_of_mem_tail hu)
  low := by
    intro u hu i hi
    obtain ⟨-, rfl⟩ := Scope.bind_cases hid
    refine lt_of_lt_of_le (h.low u (List.mem_of_mem_tail hu) i hi) ?_
    rw [Array.size_push]
    exact Int.ofNat_le.mpr (Nat.le_succ _)

/-- A new binder is not free in arguments that wait. -/
theorem not_free {name : String} {id : Nat} (h : Waiting s queue) (hid : s.bind name = (id, s')) :
    ∀ u ∈ queue, (id : Ident) ∉ u.frees := by
  intro u hu hfree
  obtain ⟨rfl, -⟩ := Scope.bind_cases hid
  exact lt_irrefl _ (h.low u hu _ hfree)

end Waiting

/-- A name with the arguments it takes. -/
theorem Placed.headed {s s' : Scope} {id : Ident} {args queue : List Term}
    (hargs : PlacedEach s args s') (hid : s'.Visible id)
    (hqueue : ∀ u ∈ queue, u.isWhole = true) : Placed s queue (.app id (args ++ queue)) s' where
  sound := hargs.sound
  grows := hargs.grows
  whole := Term.isWhole_app.mpr fun u hu =>
    (List.mem_append.mp hu).elim (hargs.whole u) (hqueue u)
  frees := by
    intro i hi
    rw [Term.frees, Term.argsFrees_eq, List.flatMap_append, List.mem_cons, List.mem_append] at hi
    rcases hi with rfl | hi | hi
    · exact .inl hid
    · exact .inl (hargs.frees i hi)
    · exact .inr hi
  binders := by
    refine ⟨args.flatMap Term.binders, ?_, hargs.binders⟩
    rw [Term.binders, Term.argsBinders_eq, List.flatMap_append]

/-- No arguments are placed without a change. -/
theorem PlacedEach.nil {s : Scope} (hs : s.Sound) : PlacedEach s [] s :=
  ⟨hs, .refl s, by simp, by simp, .nil s s⟩

/-- A name that takes what waits, if anything does. -/
theorem Placed.bare {s s' : Scope} {name : String} {id : Nat} {queue : List Term} (hs : s.Sound)
    (hid : s.resolve name = (id, s')) (hqueue : ∀ u ∈ queue, u.isWhole = true) :
    Placed s queue (if queue.isEmpty then .var id else .app id queue) s' := by
  obtain ⟨hsound, hgrows, hvisible⟩ := hs.resolve hid
  cases queue with
  | nil =>
    refine ⟨hsound, hgrows, rfl, fun i hi => ?_, [], .refl _, .nil s s'⟩
    rw [Term.mem_frees_var.mp hi]
    exact .inl hvisible
  | cons arg queue =>
    have hnone : PlacedEach s [] s' := ⟨hsound, hgrows, by simp, by simp, .nil s s'⟩
    exact .headed hnone hvisible hqueue

/-- What waits besides the arguments of a block is what waited before them. -/
theorem Placed.group {s s₁ s₂ : Scope} {args queue : List Term} {t : Term}
    (hargs : PlacedEach s args s₁) (h : Placed s₁ (args ++ queue) t s₂) : Placed s queue t s₂ where
  sound := h.sound
  grows := hargs.grows.trans h.grows
  whole := h.whole
  frees := by
    intro i hi
    rcases h.frees i hi with hvisible | hi
    · exact .inl hvisible
    · -- What is free in the arguments was visible when they were read, and still is.
      rw [List.flatMap_append, List.mem_append] at hi
      exact hi.imp_left fun hi => (hargs.frees i hi).mono h.grows
  binders := by
    obtain ⟨new, hperm, hnew⟩ := h.binders
    refine ⟨new ++ args.flatMap Term.binders, ?_, ?_⟩
    · rw [List.append_assoc, ← List.flatMap_append]
      exact hperm
    · exact (hargs.binders.append hnew hargs.grows h.grows).perm List.perm_append_comm

/-- The first argument and the others are all of them. -/
theorem flatMap_headD_tail {β : Type} {f : Term → List β} (hf : f .absent = [])
    (queue : List Term) :
    f (queue.headD .absent) ++ queue.tail.flatMap f = queue.flatMap f := by
  cases queue with
  | nil => rw [List.headD_nil, hf, List.tail_nil, List.nil_append]
  | cons arg queue => rw [List.headD_cons, List.tail_cons, List.flatMap_cons]

/-- A binder takes the first argument, and its body the others. -/
theorem Placed.binder {s s₁ s₂ : Scope} {name : String} {id : Nat} {queue : List Term} {body : Term}
    (hs : s.Sound) (hid : s.bind name = (id, s₁)) (hqueue : ∀ u ∈ queue, u.isWhole = true)
    (h : Placed s₁ queue.tail body s₂) :
    Placed s queue (.abs id body (queue.headD .absent)) s₂.leave where
  sound := h.sound.leave
  grows := .leave hid h.grows
  whole := by
    refine Term.isWhole_abs.mpr ⟨h.whole, ?_⟩
    cases queue with
    | nil => exact .inl rfl
    | cons arg queue => exact .inr (hqueue arg List.mem_cons_self)
  frees := by
    intro i hi
    rw [← flatMap_headD_tail rfl queue, List.mem_append]
    rcases Term.mem_frees_abs.mp hi with ⟨hbody, hne⟩ | hparam
    · rcases h.frees i hbody with ⟨k, rfl, hk⟩ | hrest
      · -- Below the binder one identity more is visible, and it is not free outside.
        refine .inl ⟨k, rfl, hk.imp_left fun hk => ?_⟩
        obtain ⟨rfl, rfl⟩ := Scope.bind_cases hid
        rw [h.grows.stack] at hk
        rw [Scope.leave, h.grows.stack]
        exact (List.mem_cons.mp hk).resolve_left fun heq => hne (congrArg Nat.cast heq)
      · exact .inr (.inr hrest)
    · exact .inr (.inl hparam)
  binders := by
    obtain ⟨new, hperm, hnew⟩ := h.binders
    refine ⟨(id : Ident) :: new, ?_, hnew.binder hs hid h.grows⟩
    -- The parameter's binders stand behind those of the body, but were in front in the queue.
    rw [Term.binders, ← flatMap_headD_tail rfl queue, List.cons_append]
    refine .cons _ ((hperm.append_right _).trans ?_)
    rw [List.append_assoc]
    exact List.perm_append_comm.append_left new

/-- Arguments are placed one behind the other. -/
theorem PlacedEach.cons {s s₁ s₂ : Scope} {t : Term} {ts : List Term} (h : Placed s [] t s₁)
    (hs : PlacedEach s₁ ts s₂) : PlacedEach s (t :: ts) s₂ where
  sound := hs.sound
  grows := h.grows.trans hs.grows
  whole := List.forall_mem_cons.mpr ⟨h.whole, hs.whole⟩
  frees := by
    intro i hi
    rw [List.flatMap_cons, List.mem_append] at hi
    rcases hi with hi | hi
    · have hvisible := (h.frees i hi).resolve_right (by simp)
      exact hvisible.mono hs.grows
    · exact hs.frees i hi
  binders := by
    obtain ⟨new, hperm, hnew⟩ := h.binders
    rw [List.flatMap_nil, List.append_nil] at hperm
    exact (hnew.perm hperm.symm).append hs.binders h.grows hs.grows

/-- **Identities.** All that is read from a sound scope is placed in it. -/
theorem placed_respects : Reader.Respects
    (fun _ s queue t s' => s.Sound → Waiting s queue → Placed s queue t s')
    (fun _ s ts s' => s.Sound → PlacedEach s ts s') where
  bare _ _ hid := fun hs hqueue => .bare hs hid hqueue.whole
  binding _ _ _ _ hargs hid hbody := by
    intro hs hqueue
    have hplaced := hargs hs
    have hall := hqueue.append hplaced
    have hinner := hbody (hplaced.sound.bind hid) (hall.below hid)
    exact .group hplaced (.binder hplaced.sound hid hall.whole hinner)
  call _ _ hargs hid := by
    intro hs hqueue
    exact .headed (hargs hs) ⟨_, rfl, .inl (List.mem_of_find?_eq_some hid)⟩ hqueue.whole
  group _ hargs hinner := by
    intro hs hqueue
    have hplaced := hargs hs
    exact .group hplaced (hinner hplaced.sound (hqueue.append hplaced))
  nil _ := fun hs => .nil hs
  cons _ harg hafter := by
    intro hs
    have hplaced := harg hs (.nil _)
    exact .cons hplaced (hafter hplaced.sound)

/-- **Programs.** The term of a program has all its parts, its binders are distinct, and none of
    them is also free in it. -/
theorem proper_of_parse {text : List Char} {t : Term} {names : Names}
    (h : parse text = .ok (t, names)) : t.Proper := by
  obtain ⟨s, hplaced, -⟩ := parse_respects placed_respects h
  have hplaced := hplaced Scope.sound_empty (.nil _)
  obtain ⟨new, hperm, hnew⟩ := hplaced.binders
  rw [List.flatMap_nil, List.append_nil] at hperm
  refine ⟨⟨hperm.nodup_iff.mpr hnew.nodup, fun i hi hfree => ?_⟩, hplaced.whole⟩
  exact hnew.hidden i (hperm.mem_iff.mp hi) ((hplaced.frees i hfree).resolve_right (by simp))

end DotLambda
