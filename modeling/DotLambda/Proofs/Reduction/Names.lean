import DotLambda.Proofs.Reduction.Copy

namespace DotLambda

/-!
# Reduction — names of new identities

Every identity that a reducer hands out is entered in its table under the name of its model, and
entries stay what they are.

* `Names.Extends` — a table that has grown;
* `Reducer.Tabled` — the table has one entry for each identity below the counter;
* `Reducer.Advances.names_extend`, `Reducer.Advances.tabled` — later states of a reducer;
* `Reducer.Advances.size_le` — the size of the table bounds how many identities were handed out;
* `Reducer.Sized`, `Reducer.Sized.pairs` — a table that may end before the counter, and the names
  that identities handed out show;
* `Rendering.signed_follows` — signing binders with their names writes new identities like their
  models.
-/

namespace Names

variable {names names' names'' : Names}

/-! ### Tables that grow -/

/-- `names'` has the entries of `names`, and perhaps more behind them. -/
structure Extends (names names' : Names) : Prop where
  size : names.size ≤ names'.size
  lookup : ∀ id : Ident, id < names.size → names'.lookup id = names.lookup id

/-- A table extends itself. -/
theorem Extends.refl (names : Names) : names.Extends names :=
  ⟨Nat.le_refl _, fun _ _ => rfl⟩

/-- Tables are extended step by step. -/
theorem Extends.trans (h₁ : names.Extends names') (h₂ : names'.Extends names'') :
    names.Extends names'' := by
  refine ⟨Nat.le_trans h₁.size h₂.size, fun id hid => ?_⟩
  have hid' : id < names'.size := lt_of_lt_of_le hid (Int.ofNat_le.mpr h₁.size)
  rw [h₂.lookup id hid', h₁.lookup id hid]

/-- The entries of the one table are the first ones of the other. -/
theorem Extends.isPrefix (h : names.Extends names') : names.toList <+: names'.toList := by
  have hsize := h.size
  rw [List.prefix_iff_getElem?]
  intro k hk
  have hk : k < names.size := by simpa using hk
  have hlookup := h.lookup k (by lia)
  unfold Names.lookup at hlookup
  rw [if_neg (by lia), if_neg (by lia), Int.toNat_natCast, Array.getElem?_eq_getElem hk,
    Array.getElem?_eq_getElem (by lia), Option.getD_some, Option.getD_some] at hlookup
  simp [← hlookup]

/-- Names are added behind those that are there. -/
theorem extends_append (names more : Names) : names.Extends (names ++ more) := by
  refine ⟨by simp, fun id hid => ?_⟩
  unfold Names.lookup
  split
  · rfl
  · rw [Array.getElem?_append_left (by lia)]

/-- One name is. -/
theorem extends_push (names : Names) (name : String) : names.Extends (names.push name) := by
  rw [← Array.append_singleton]
  exact extends_append names #[name]

/-- The name that is added belongs to the first identity without one. -/
theorem lookup_push_size (names : Names) (name : String) :
    lookup (names.push name) (names.size : Int) = name := by
  unfold lookup
  rw [if_neg (by lia), Int.toNat_natCast, Array.getElem?_push_size, Option.getD_some]

/-! ### New entries -/

/-- What is filled up shows as what is not there. -/
theorem lookup_padTo (names : Names) (size : Nat) (id : Ident) :
    (names.padTo size).lookup id = names.lookup id := by
  unfold lookup padTo
  by_cases hneg : id < 0
  · rw [if_pos hneg, if_pos hneg]
  · rw [if_neg hneg, if_neg hneg]
    by_cases hin : id.toNat < names.size
    · rw [Array.getElem?_append_left hin]
    · have hout : names.size ≤ id.toNat := by omega
      rw [Array.getElem?_append_right hout, Array.getElem?_eq_none hout, Array.getElem?_replicate]
      split <;> rfl

/-- A table that is padded has the size asked for. -/
theorem size_padTo {size : Nat} (h : names.size ≤ size) : (names.padTo size).size = size := by
  simp only [padTo, Array.size_append, Array.size_replicate]
  omega

/-- A table that keeps names is filled up to the entry. -/
theorem enterLike_eq (h : 0 < names.size) (id model : Ident) :
    names.enterLike id model = (names.padTo id.toNat).push (names.lookup model) := by
  have hkept : ¬ names.isEmpty = true := by
    rw [Array.isEmpty_iff_size_eq_zero]
    omega
  unfold enterLike
  rw [if_neg hkept]
  show (names.padTo id.toNat).push ((names.padTo id.toNat).lookup model) = _
  rw [lookup_padTo]

/-- Entering a name keeps the names that are there. -/
theorem extends_enterLike (names : Names) (id model : Ident) :
    names.Extends (names.enterLike id model) := by
  unfold enterLike
  split
  · exact .refl names
  · exact (extends_append names _).trans (extends_push _ _)

/-- A table that keeps names has at least one more after an entry. -/
theorem size_lt_enterLike (h : 0 < names.size) (id model : Ident) :
    names.size < (names.enterLike id model).size := by
  rw [enterLike_eq h, Array.size_push]
  exact Nat.lt_succ_of_le (extends_append names _).size

/-- Where the entry comes next, nothing is filled up. -/
theorem enterLike_size (h : 0 < names.size) (model : Ident) :
    names.enterLike names.size model = names.push (names.lookup model) := by
  rw [enterLike_eq h, padTo, Int.toNat_natCast, Nat.sub_self]
  simp

section

variable {id : Ident} (hsize : names.size ≤ id)
include hsize

/-- An entry behind the end of the table is the last one. -/
theorem size_enterLike_le (model : Ident) :
    ((names.enterLike id model).size : Int) ≤ id + 1 := by
  rcases Nat.eq_zero_or_pos names.size with hnone | hkept
  · obtain rfl : names = #[] := Array.size_eq_zero_iff.mp hnone
    show ((0 : Nat) : Int) ≤ id + 1
    lia
  · rw [enterLike_eq hkept, Array.size_push, size_padTo (by lia)]
    lia

/-- The identity that was entered shows as its model. -/
theorem lookup_enterLike_self (model : Ident) :
    (names.enterLike id model).lookup id = names.lookup model := by
  rcases Nat.eq_zero_or_pos names.size with hnone | hkept
  · obtain rfl : names = #[] := Array.size_eq_zero_iff.mp hnone
    simp [enterLike, lookup]
  · have hend : ((names.padTo id.toNat).size : Int) = id := by
      rw [size_padTo (by lia)]
      lia
    have hpush := lookup_push_size (names.padTo id.toNat) (names.lookup model)
    rwa [hend, ← enterLike_eq hkept] at hpush

/-- All that is below the entry shows as before, whether it has an entry or not. -/
theorem lookup_enterLike_of_lt (model : Ident) {i : Ident} (hi : i < id) :
    (names.enterLike id model).lookup i = names.lookup i := by
  rcases Nat.eq_zero_or_pos names.size with hnone | hkept
  · obtain rfl : names = #[] := Array.size_eq_zero_iff.mp hnone
    rfl
  · have hpad : (names.padTo id.toNat).size = id.toNat := size_padTo (by lia)
    rw [enterLike_eq hkept, (extends_push (names.padTo id.toNat) _).lookup i (by lia), lookup_padTo]

end

end Names

/-! ### Later states -/

namespace Reducer

variable {r r' : Reducer} {models : List Ident}

/-- Names are kept, and the table has one entry for each identity below the counter. -/
def Tabled (r : Reducer) : Prop :=
  0 < r.names.size ∧ r.next = r.names.size

/-- Where every identity below the counter has a name, the next one gets its model's. -/
theorem Tabled.names_allot (h : r.Tabled) (model : Ident) :
    (r.allot model).2.names = r.names.push (r.names.lookup model) := by
  show r.names.enterLike r.next model = _
  rw [h.2, Names.enterLike_size h.1]

namespace Advances

/-- Entries stay as they are. -/
theorem names_extend (h : r.Advances models r') : r.names.Extends r'.names := by
  induction h with
  | of_eq _ _ hnames =>
    rw [hnames]
    exact .refl _
  | allot r model => exact Names.extends_enterLike r.names r.next model
  | trans _ _ ih₁ ih₂ => exact ih₁.trans ih₂

/-- Where names are kept, there is an entry for each identity handed out. -/
theorem size_le (h : r.Advances models r') (hkept : 0 < r.names.size) :
    r.names.size + models.length ≤ r'.names.size := by
  induction h with
  | of_eq _ _ hnames =>
    rw [hnames, List.length_nil]
    exact Nat.le_refl _
  | allot r model => exact Names.size_lt_enterLike hkept r.next model
  | trans h₁ h₂ ih₁ ih₂ =>
    have hlater := ih₂ (Nat.lt_of_lt_of_le hkept h₁.names_extend.size)
    have hearlier := ih₁ hkept
    rw [List.length_append]
    omega

/-- As long as the counter does not come around, it stays at the end of the table. -/
theorem tabled (h : r.Advances models r') (ht : r.Tabled) (hu : r.Unwrapped models) :
    r'.Tabled := by
  induction h with
  | of_eq _ hnext hnames => rwa [Tabled, hnext, hnames]
  | allot r model =>
    rw [Tabled, ht.names_allot, hu.next_allot, ht.2, Array.size_push]
    exact ⟨Nat.succ_pos _, rfl⟩
  | trans h₁ _ ih₁ ih₂ => exact ih₂ (ih₁ ht hu.left) (hu.right h₁)

end Advances

/-- The table has no entry for an identity that is not handed out yet. -/
def Sized (r : Reducer) : Prop :=
  (r.names.size : Int) ≤ r.next

/-- A table that has just the names up to the counter is not ahead of it. -/
theorem Tabled.sized (h : r.Tabled) : r.Sized :=
  le_of_eq h.2.symm

/-- As long as the counter does not come around, the table does not get ahead of it. -/
theorem Advances.sized (h : r.Advances models r') (hs : r.Sized) (hu : r.Unwrapped models) :
    r'.Sized := by
  induction h with
  | of_eq _ hnext hnames => rwa [Sized, hnext, hnames]
  | allot r model =>
    rw [Sized, hu.next_allot]
    exact Names.size_enterLike_le hs model
  | trans h₁ _ ih₁ ih₂ => exact ih₂ (ih₁ hs hu.left) (hu.right h₁)

/-- Identities below the counter go on to show as they do, those without an entry included. -/
theorem Advances.lookup_eq (h : r.Advances models r') (hs : r.Sized) (hu : r.Unwrapped models)
    {i : Ident} (hi : i < r.next) : r'.names.lookup i = r.names.lookup i := by
  induction h with
  | of_eq _ _ hnames => rw [hnames]
  | allot r model => exact Names.lookup_enterLike_of_lt hs model hi
  | trans h₁ _ ih₁ ih₂ =>
    rw [ih₂ (h₁.sized hs hu.left) (hu.right h₁) (lt_of_lt_of_le hi (hu.left.le h₁)),
      ih₁ hs hu.left hi]

/-- **Names.** An identity that is handed out shows as its model. -/
theorem Sized.pairs (hs : r.Sized) (h : r.Advances models r') (hu : r.Unwrapped models) :
    r.Pairs (fun j i => r'.names.lookup i = r'.names.lookup j) models := by
  induction h with
  | of_eq => exact fun _ _ hmem => absurd hmem List.not_mem_nil
  | allot r model =>
    intro i j hmem hlow
    obtain ⟨rfl, rfl⟩ := Prod.mk.inj (List.mem_singleton.mp hmem)
    show (r.names.enterLike r.next j).lookup r.next = (r.names.enterLike r.next j).lookup j
    rw [Names.lookup_enterLike_self hs, Names.lookup_enterLike_of_lt hs j hlow]
  | trans h₁ h₂ ih₁ ih₂ =>
    have hs₁ := h₁.sized hs hu.left
    refine Pairs.append (fun i j hmem hlow => ?_) h₁ (ih₂ hs₁ (hu.right h₁))
    -- What was handed out first is below the counter now, and shows as it did.
    have hi := ((hu.left.mem_handed h₁).mp (mem_handed_of_handings hmem)).2
    rw [h₂.lookup_eq hs₁ (hu.right h₁) hi, h₂.lookup_eq hs₁ (hu.right h₁) (lt_trans hlow hi)]
    exact ih₁ hs hu.left i j hmem hlow

end Reducer

/-! ### Signing with names -/

namespace Lambda.Rendering

/-- **Names.** An identity that is handed out has the name of its model, in the table that the
    reducer ends with and in every table that extends it. -/
theorem signed_follows {α : Type} {r r' : Reducer} {models : List Ident} {names : Names}
    (ht : r.Tabled) (h : r.Advances models r') (hu : r.Unwrapped models)
    (hnames : r'.names.Extends names) (sign : String → α) :
    (signed fun i => sign (names.lookup i) : Rendering Ident α).Follows r models := by
  intro i j hmem hlow
  -- The table is where the counter is, so all that is handed out has an entry.
  have hentry : i < r'.names.size := by
    rw [← (h.tabled ht hu).2]
    exact ((hu.mem_handed h).mp (Reducer.mem_handed_of_handings hmem)).2
  have hsame : names.lookup i = names.lookup j := by
    rw [hnames.lookup i hentry, hnames.lookup j (lt_trans hlow hentry)]
    exact ht.sized.pairs h hu i j hmem hlow
  show (fun b => pair (sign (names.lookup i)) (.lam b)) = _
  rw [hsame]
  rfl

end Lambda.Rendering

end DotLambda
