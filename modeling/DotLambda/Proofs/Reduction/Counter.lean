import DotLambda.Reduction.Reducer
import Mathlib.Algebra.Group.Int.Defs
import Mathlib.Data.List.Nodup
import Mathlib.Logic.Function.Iterate
import Mathlib.Logic.Relation

namespace DotLambda

/-!
# Reduction — the identity counter

Every operation of a reducer moves the counter of identities on and leaves the parameter budget
alone.  Each identity that is handed out has a model, the identity whose name it shares.  The
counter is a machine word; as long as it does not come around, the identities handed out are new.

* `Reducer.Advances` — a later state of one reducer, with the models on the way;
* `Reducer.handed` — the identities handed out for models;
* `Reducer.Unwrapped` — the counter does not come around on the way;
* `Reducer.Unwrapped.mem_handed`, `Reducer.Unwrapped.nodup_handed` — then the identities
  handed out are those from the one counter to the other, each once;
* `Reducer.handings`, `Reducer.Pairs` — identities with their models, and what relates them;
* `Reducer.Descends` — models of models.
-/

/-! ### Words -/

theorem Ident.le_next (id : Ident) : -2 ^ 63 ≤ Ident.next id := by
  have := @Int.le_bmod (id + 1) 0x10000000000000000 (by decide)
  unfold Ident.next
  lia

/-- Within the words, the next identity is one more. -/
theorem Ident.next_eq {id : Ident} (hlow : -2 ^ 63 ≤ id) (hhigh : id + 1 < 2 ^ 63) :
    Ident.next id = id + 1 := by
  unfold Ident.next
  exact Int.bmod_eq_of_le (by lia) (by lia)

/-- Below the greatest word, the next identity is greater. -/
theorem Ident.lt_next {id : Ident} (h : id + 1 < 2 ^ 63) : id < Ident.next id := by
  by_cases hlow : -2 ^ 63 ≤ id
  · rw [Ident.next_eq hlow h]
    lia
  · have := Ident.le_next id
    lia

theorem Ident.iterate_next {id : Ident} {k : Nat} (hlow : -2 ^ 63 ≤ id)
    (hhigh : id + k < 2 ^ 63) : Ident.next^[k] id = id + k := by
  induction k with
  | zero => simp
  | succ k ih =>
    have hk : Ident.next^[k] id = id + k := ih (by lia)
    rw [Function.iterate_succ_apply', hk, Ident.next_eq (by lia) (by lia)]
    lia

/-- `count` identities one after the other, from `id` on. -/
def Ident.run (id : Ident) : (count : Nat) → List Ident
  | 0 => []
  | count + 1 => id :: Ident.run id.next count

theorem Ident.run_add (id : Ident) (j k : Nat) :
    Ident.run id (j + k) = Ident.run id j ++ Ident.run (Ident.next^[j] id) k := by
  induction j generalizing id with
  | zero => simp [Ident.run]
  | succ j ih =>
    rw [Nat.succ_add, Ident.run, Ident.run, ih, Function.iterate_succ_apply, List.cons_append]

theorem Ident.length_run (id : Ident) (k : Nat) : (Ident.run id k).length = k := by
  induction k generalizing id with
  | zero => rfl
  | succ k ih => rw [Ident.run, List.length_cons, ih]

theorem Ident.mem_run {i id : Ident} {k : Nat} (hlow : -2 ^ 63 ≤ id)
    (hhigh : id + k < 2 ^ 63) : i ∈ Ident.run id k ↔ id ≤ i ∧ i < id + k := by
  induction k generalizing id with
  | zero =>
    simp only [Ident.run, List.not_mem_nil, false_iff]
    lia
  | succ k ih =>
    have hnext : id.next = id + 1 := Ident.next_eq hlow (by lia)
    rw [Ident.run, List.mem_cons, hnext, ih (by lia) (by lia)]
    lia

theorem Ident.nodup_run {id : Ident} {k : Nat} (hlow : -2 ^ 63 ≤ id)
    (hhigh : id + k < 2 ^ 63) : (Ident.run id k).Nodup := by
  induction k generalizing id with
  | zero => exact List.nodup_nil
  | succ k ih =>
    have hnext : id.next = id + 1 := Ident.next_eq hlow (by lia)
    rw [Ident.run, hnext, List.nodup_cons, Ident.mem_run (by lia) (by lia)]
    exact ⟨by lia, ih (by lia) (by lia)⟩

theorem Ident.run_eq_map {id : Ident} {k : Nat} (hlow : -2 ^ 63 ≤ id) (hhigh : id + k < 2 ^ 63) :
    Ident.run id k = (List.range k).map fun j : Nat => id + j := by
  induction k generalizing id with
  | zero => rfl
  | succ k ih =>
    have hnext : id.next = id + 1 := Ident.next_eq hlow (by lia)
    rw [Ident.run, hnext, ih (by lia) (by lia), List.range_succ_eq_map, List.map_cons,
      List.map_map]
    congr 1
    · simp
    · refine List.map_congr_left fun j _ => ?_
      simp only [Function.comp_apply]
      lia

/-! ### Later states -/

namespace Reducer

/-- `r'` is a later state of the reducer `r`: identities have been handed out for the `models`, one
    after the other, and all that has changed beside that is counted or traced. -/
inductive Advances : Reducer → (models : List Ident) → Reducer → Prop where
  | of_eq {r r' : Reducer} (hbudget : r'.budget = r.budget) (hnext : r'.next = r.next)
      (hnames : r'.names = r.names) : Advances r [] r'
  | allot (r : Reducer) (model : Ident) : Advances r [model] (r.allot model).2
  | trans {r r' r'' : Reducer} {models models' : List Ident} (h₁ : Advances r models r')
      (h₂ : Advances r' models' r'') : Advances r (models ++ models') r''

/-- The identities that `r` hands out for `models`. -/
def handed (r : Reducer) (models : List Ident) : List Ident :=
  Ident.run r.next models.length

/-- While `r` hands out identities for `models`, the counter stays within the words: it does not
    come around. -/
def Unwrapped (r : Reducer) (models : List Ident) : Prop :=
  -2 ^ 63 ≤ r.next ∧ r.next + models.length < 2 ^ 63

variable {r r' r'' : Reducer} {models models' : List Ident}

namespace Advances

/-- A reducer is a later state of itself. -/
theorem refl (r : Reducer) : Advances r [] r :=
  of_eq rfl rfl rfl

/-- Counting and tracing a rule leaves the counter alone. -/
theorem count (r : Reducer) (rule : Rule) (binder : Ident) : Advances r [] (r.count rule binder) :=
  of_eq rfl rfl rfl

/-- What hands out nothing may come first. -/
theorem head (h₁ : Advances r [] r') (h₂ : Advances r' models r'') : Advances r models r'' :=
  h₁.trans h₂

/-- What hands out nothing may come last. -/
theorem tail (h₁ : Advances r models r') (h₂ : Advances r' [] r'') : Advances r models r'' := by
  have h := h₁.trans h₂
  rwa [List.append_nil] at h

/-- The budget of a reducer is not changed by what it hands out. -/
theorem budget (h : Advances r models r') : r'.budget = r.budget := by
  induction h with
  | of_eq hbudget _ _ => exact hbudget
  | allot r model => rfl
  | trans _ _ ih₁ ih₂ => exact ih₂.trans ih₁

/-- The counter has been moved on once for each identity handed out. -/
theorem next (h : Advances r models r') : r'.next = Ident.next^[models.length] r.next := by
  induction h with
  | of_eq _ hnext _ => exact hnext
  | allot r model => rfl
  | trans h₁ h₂ ih₁ ih₂ =>
    rw [List.length_append, Nat.add_comm, Function.iterate_add_apply, ← ih₁, ← ih₂]

/-- What is handed out in two stretches is handed out in one. -/
theorem handed_append (h : Advances r models r') (models' : List Ident) :
    r.handed (models ++ models') = r.handed models ++ r'.handed models' := by
  rw [handed, handed, handed, List.length_append, Ident.run_add, ← h.next]

end Advances

@[simp] theorem handed_nil (r : Reducer) : r.handed [] = [] := rfl

@[simp] theorem handed_singleton (r : Reducer) (model : Ident) : r.handed [model] = [r.next] := rfl

/-- One identity is handed out for each model. -/
theorem length_handed (r : Reducer) (models : List Ident) :
    (r.handed models).length = models.length :=
  Ident.length_run r.next models.length

namespace Unwrapped

/-- Without a wrap, the counter moves on by the number of models. -/
theorem next_eq (hu : Unwrapped r models) (h : Advances r models r') :
    r'.next = r.next + models.length := by
  rw [h.next, Ident.iterate_next hu.1 hu.2]

/-- One identity moves it on by one. -/
theorem next_allot {model : Ident} (hu : Unwrapped r [model]) :
    (r.allot model).2.next = r.next + 1 :=
  hu.next_eq (.allot r model)

/-- Without a wrap, the counter does not go back. -/
theorem le (hu : Unwrapped r models) (h : Advances r models r') : r.next ≤ r'.next := by
  have := hu.next_eq h
  lia

/-- A stretch that does not wrap does not wrap in its first part. -/
theorem left (hu : Unwrapped r (models ++ models')) : Unwrapped r models := by
  obtain ⟨hlow, hhigh⟩ := hu
  rw [List.length_append] at hhigh
  exact ⟨hlow, by lia⟩

/-- A stretch that does not wrap does not wrap in its second part. -/
theorem right (hu : Unwrapped r (models ++ models')) (h : Advances r models r') :
    Unwrapped r' models' := by
  have hnext := hu.left.next_eq h
  obtain ⟨hlow, hhigh⟩ := hu
  rw [List.length_append] at hhigh
  exact ⟨by lia, by lia⟩

/-- Only how many identities are handed out matters. -/
theorem congr (hu : Unwrapped r models) (h : models'.length = models.length) :
    Unwrapped r models' := by
  rwa [Unwrapped, h]

/-- Without a wrap, the identities handed out are those between the two counters. -/
theorem mem_handed (hu : Unwrapped r models) (h : Advances r models r') {i : Ident} :
    i ∈ r.handed models ↔ r.next ≤ i ∧ i < r'.next := by
  rw [handed, Ident.mem_run hu.1 hu.2, hu.next_eq h]

/-- What is handed out is not below the counter. -/
theorem next_le (hu : Unwrapped r models) {i : Ident} (hi : i ∈ r.handed models) : r.next ≤ i :=
  ((Ident.mem_run hu.1 hu.2).mp hi).1

/-- Without a wrap, no identity is handed out twice. -/
theorem nodup_handed (hu : Unwrapped r models) : (r.handed models).Nodup :=
  Ident.nodup_run hu.1 hu.2

end Unwrapped

/-! ### Identities and their models -/

/-- The identities that `r` hands out for `models`, each with its model. -/
def handings (r : Reducer) (models : List Ident) : List (Ident × Ident) :=
  (r.handed models).zip models

/-- The models of two stretches get their identities one stretch after the other. -/
theorem Advances.handings_append (h : Advances r models r') (models' : List Ident) :
    r.handings (models ++ models') = r.handings models ++ r'.handings models' := by
  rw [handings, h.handed_append, List.zip_append (r.length_handed models), handings, handings]

/-- What is handed out in the first part of a stretch is handed out in all of it. -/
theorem handings_left {p : Ident × Ident} (h : p ∈ r.handings models) (models' : List Ident) :
    p ∈ r.handings (models ++ models') := by
  rw [handings, handed, List.length_append, Ident.run_add,
    List.zip_append (Ident.length_run r.next models.length)]
  exact List.mem_append_left _ h

/-- What has a model is handed out. -/
theorem mem_handed_of_handings {i j : Ident} (h : (i, j) ∈ r.handings models) :
    i ∈ r.handed models :=
  (List.of_mem_zip h).1

/-- What is handed out has a model. -/
theorem exists_handing {i : Ident} (h : i ∈ r.handed models) :
    ∃ j ∈ models, (i, j) ∈ r.handings models := by
  rw [← List.map_fst_zip (Nat.le_of_eq (r.length_handed models))] at h
  obtain ⟨⟨_, j⟩, hmem, rfl⟩ := List.mem_map.mp h
  exact ⟨j, (List.of_mem_zip hmem).2, hmem⟩

/-- Only the counter tells which identities are handed out. -/
theorem handings_congr (h : r'.next = r.next) (models : List Ident) :
    r'.handings models = r.handings models := by
  rw [handings, handed, h, handings, handed]

/-- Every model below the identity that is handed out for it is related to it by `B`. -/
def Pairs (B : Ident → Ident → Prop) (r : Reducer) (models : List Ident) : Prop :=
  ∀ i j, (i, j) ∈ r.handings models → j < i → B j i

namespace Pairs

variable {B : Ident → Ident → Prop}

theorem left (h : Pairs B r (models ++ models')) : Pairs B r models :=
  fun i j hmem => h i j (handings_left hmem models')

theorem right (h : Pairs B r (models ++ models')) (hadv : Advances r models r') :
    Pairs B r' models' := by
  intro i j hmem
  refine h i j ?_
  rw [hadv.handings_append]
  exact List.mem_append_right _ hmem

/-- Models are related to their identities in two stretches if they are in each. -/
theorem append (h : Pairs B r models) (hadv : Advances r models r') (h' : Pairs B r' models') :
    Pairs B r (models ++ models') := by
  intro i j hmem
  rw [hadv.handings_append, List.mem_append] at hmem
  exact hmem.elim (h i j) (h' i j)

/-- What holds of one identity that is handed out. -/
theorem singleton {model : Ident} (h : Pairs B r [model]) (hlow : model < r.next) :
    B model r.next :=
  h r.next model List.mem_cons_self hlow

end Pairs

/-- `i` is `b`, or `r` hands it out, while it does so for `models`, for an identity below it that
    descends from `b`. -/
def Descends (r : Reducer) (models : List Ident) : Ident → Ident → Prop :=
  Relation.ReflTransGen fun i j => (i, j) ∈ r.handings models ∧ j < i

namespace Descends

variable {i j b : Ident}

theorem left (h : r.Descends models i b) (models' : List Ident) :
    r.Descends (models ++ models') i b :=
  Relation.ReflTransGen.mono (fun _ _ h => ⟨handings_left h.1 models', h.2⟩) _ _ h

theorem right (h : r'.Descends models' i b) (hadv : Advances r models r') :
    r.Descends (models ++ models') i b := by
  refine Relation.ReflTransGen.mono (fun i j h => ⟨?_, h.2⟩) _ _ h
  rw [hadv.handings_append]
  exact List.mem_append_right _ h.1

/-- A descendant of a descendant, with the second stretch behind the first. -/
theorem trans (h₁ : r'.Descends models' i j) (hadv : Advances r models r')
    (h₂ : r.Descends models j b) : r.Descends (models ++ models') i b :=
  Relation.ReflTransGen.trans (h₁.right hadv) (h₂.left models')

/-- A descendant of an identity that is another one has been handed out. -/
theorem eq_or_mem_handed (h : r.Descends models i b) : i = b ∨ i ∈ r.handed models := by
  rcases Relation.ReflTransGen.cases_head h with rfl | ⟨j, hpair, -⟩
  · exact .inl rfl
  · exact .inr (mem_handed_of_handings hpair.1)

/-- What relates identities to their models relates descendants to what they descend from. -/
theorem pairs {B : Ident → Ident → Prop} (h : r.Descends models i b) (hB : Pairs B r models)
    (hrefl : ∀ i, B i i) (htrans : ∀ i j k, B i j → B j k → B i k) : B b i := by
  induction h using Relation.ReflTransGen.head_induction_on with
  | refl => exact hrefl b
  | head hpair _ ih => exact htrans _ _ _ ih (hB _ _ hpair.1 hpair.2)

end Descends

end Reducer

end DotLambda
