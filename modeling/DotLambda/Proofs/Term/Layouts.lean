import DotLambda.Proofs.Term.Alpha
import DotLambda.Text.Blank

namespace DotLambda

/-!
# Terms — two layouts

The layout over several lines differs from the one on one line in white space only.  The names
themselves may hold white space, and then both layouts hold it.

* `Term.removeBlanks_indentedAt` — without white space, the layouts are the same at every level;
* `Term.removeBlanks_flat` — on one line, all white space is in the names;
* `layouts_agree` — one layout from the other.
-/

namespace Term

variable {names : Names}

/-! ### White space of the layout -/

theorem removeBlanks_indent (level : Nat) : removeBlanks (indent level).toList = [] := by
  rw [indent, String.toList_ofList]
  refine List.filter_eq_nil_iff.mpr fun c hc => ?_
  rw [List.eq_of_mem_replicate hc]
  simp [isBlank]

theorem removeBlanks_lineBreak : removeBlanks "\n".toList = [] := by
  simp [removeBlanks, isBlank]

theorem removeBlanks_opening : removeBlanks "(\n".toList = removeBlanks "(".toList := by
  simp [removeBlanks, isBlank]

theorem removeBlanks_indentedArgs {args : List Term}
    (h : ∀ arg ∈ args, ∀ level,
      removeBlanks (arg.indentedAt names level).toList = removeBlanks (arg.flat names).toList)
    (level : Nat) :
    removeBlanks (indentedArgs names level args).toList
      = removeBlanks (flatArgs names args).toList := by
  induction args with
  | nil => rfl
  | cons arg args ih =>
    rw [List.forall_mem_cons] at h
    simp only [indentedArgs, flatArgs, String.toList_append, removeBlanks_append,
      removeBlanks_lineBreak, removeBlanks_indent, List.nil_append, h.1, ih h.2]

/-- **Layouts.** At every level of nesting the layouts differ in white space only. -/
theorem removeBlanks_indentedAt (names : Names) (t : Term) (level : Nat) :
    removeBlanks (t.indentedAt names level).toList = removeBlanks (t.flat names).toList := by
  induction t generalizing level with
  | absent => rfl
  | var id => rfl
  | abs id body param ihb ihp =>
    -- A missing parameter is left out, with its dot and its line break.
    cases hp : param.isPresent with
    | false =>
      rw [eq_absent_of_not_isPresent hp]
      simp only [indentedAt, flat, String.toList_append, removeBlanks_append,
        removeBlanks_opening, removeBlanks_lineBreak, removeBlanks_indent, List.nil_append, ihb]
    | true =>
      rw [indentedAt_abs_present hp, flat_abs_present hp]
      simp only [String.toList_append, removeBlanks_append, removeBlanks_opening,
        removeBlanks_lineBreak, removeBlanks_indent, List.nil_append, ihb, ihp]
  | app id args ih =>
    rw [indentedAt, flat, String.toList_append, String.toList_append, removeBlanks_append,
      removeBlanks_append, removeBlanks_indentedArgs ih]

/-! ### White space of the names -/

theorem removeBlanks_flatArgs {args : List Term}
    (h : ∀ arg ∈ args, removeBlanks (arg.flat names).toList = (arg.flat names).toList) :
    removeBlanks (flatArgs names args).toList = (flatArgs names args).toList := by
  induction args with
  | nil => rfl
  | cons arg args ih =>
    rw [List.forall_mem_cons] at h
    have hopen : removeBlanks ".(".toList = ".(".toList := by simp [removeBlanks, isBlank]
    have hclose : removeBlanks ")".toList = ")".toList := by simp [removeBlanks, isBlank]
    simp only [flatArgs, String.toList_append, removeBlanks_append, hopen, hclose, h.1, ih h.2]

/-- On one line there is no white space but that of the names. -/
theorem removeBlanks_flat {t : Term}
    (h : ∀ i ∈ t.idents, removeBlanks (names.lookup i).toList = (names.lookup i).toList) :
    removeBlanks (t.flat names).toList = (t.flat names).toList := by
  have hopen : removeBlanks "(".toList = "(".toList := by simp [removeBlanks, isBlank]
  have hclose : removeBlanks ")".toList = ")".toList := by simp [removeBlanks, isBlank]
  have hdot : removeBlanks ".".toList = ".".toList := by simp [removeBlanks, isBlank]
  induction t with
  | absent => simp [flat, missing, removeBlanks, isBlank]
  | var id => exact h id (by simp [idents])
  | abs id body param ihb ihp =>
    simp only [idents, List.forall_mem_cons, List.forall_mem_append] at h
    obtain ⟨hid, hbody, hparam⟩ := h
    cases hp : param.isPresent with
    | false =>
      rw [eq_absent_of_not_isPresent hp]
      simp only [flat, String.toList_append, removeBlanks_append, hid, hopen, hclose, ihb hbody]
    | true =>
      rw [flat_abs_present hp]
      simp only [String.toList_append, removeBlanks_append, hid, hopen, hclose, hdot, ihb hbody,
        ihp hparam]
  | app id args ih =>
    simp only [idents, argsIdents_eq, List.forall_mem_cons, List.mem_flatMap] at h
    have hargs := removeBlanks_flatArgs fun arg harg =>
      ih arg harg fun i hi => h.2 i ⟨arg, harg, hi⟩
    simp only [flat, String.toList_append, removeBlanks_append, h.1, hargs]

end Term

/-- An identity shows as the placeholder or as an entry of the table. -/
theorem Names.lookup_cases (names : Names) (i : Ident) :
    names.lookup i = placeholder ∨ names.lookup i ∈ names := by
  unfold lookup
  split
  · exact .inl rfl
  · cases hname : names[i.toNat]? with
    | none => exact .inl rfl
    | some name => exact .inr (Array.mem_of_getElem? hname)

/-- **Layouts.** Without their white space, the two layouts of a term are the same text, whatever
    parts are missing and whatever identities the table does not name.  If no name in the table
    holds white space, this text is the layout on one line. -/
theorem layouts_agree (names : Names) (t : Term) :
    removeBlanks (t.indented names).toList = removeBlanks (t.flat names).toList ∧
    ((∀ name ∈ names, ∀ c ∈ name.toList, isBlank c = false) →
      removeBlanks (t.indented names).toList = (t.flat names).toList) := by
  have hsame := t.removeBlanks_indentedAt names 0
  refine ⟨hsame, fun hnames => hsame.trans (Term.removeBlanks_flat fun i _ => ?_)⟩
  -- The placeholder is not in the table, but holds no white space either.
  rcases names.lookup_cases i with hname | hname
  · rw [hname]
    simp [Names.placeholder, removeBlanks, isBlank]
  · exact removeBlanks_eq_self (hnames _ hname)

/-- A redex and an application with parts that are missing and identities without a name. -/
theorem layouts_agree_unnamed :
    let names : Names := #["f", "x"]
    let t : Term := .abs 0 (.app 1 [.absent, .var 7]) (.abs 1 .absent (.var (-1)))
    (∀ name ∈ names, ∀ c ∈ name.toList, isBlank c = false) ∧
      t.flat names = "f(x.(<nil>).(<unbound>)).x(<nil>).<unbound>" ∧
      t.indented names ≠ t.flat names ∧
      removeBlanks (t.indented names).toList = (t.flat names).toList := by
  intro names t
  have hnames : ∀ name ∈ names, ∀ c ∈ name.toList, isBlank c = false := by
    simp [names, isBlank]
  exact ⟨hnames, by decide, by decide, (layouts_agree names t).2 hnames⟩

end DotLambda
