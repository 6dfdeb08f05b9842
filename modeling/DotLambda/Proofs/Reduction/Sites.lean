import DotLambda.Proofs.Reduction.Substitution

namespace DotLambda

/-!
# Reduction — what a substitution counts

How far a substitution moves the counters of a reducer is fixed by where the binder is used and by
how many binders the value has.

* `Stats.add`, `Stats.countAll` — counters that have grown;
* `Term.stats_copy`, `Term.stats_substitute` — a copy counts nothing, a substitution each use once;
* `Term.substitute_of_unused` — a binder without uses;
* `Term.substitute_accounts` — the counters, the identities handed out and the binders together.
-/

/-! ### Counters -/

namespace Stats

/-- The counters after they have grown by `d`. -/
def add (s d : Stats) : Stats where
  reductions := s.reductions + d.reductions
  fired := s.fired + d.fired
  parameterRuns := s.parameterRuns + d.parameterRuns
  parametersExhausted := s.parametersExhausted + d.parametersExhausted
  variableSites := s.variableSites + d.variableSites
  applicationSites := s.applicationSites + d.applicationSites

theorem add_assoc (s d d' : Stats) : (s.add d).add d' = s.add (d.add d') := by
  simp only [add, UInt64.add_assoc]

theorem add_zero (s : Stats) : s.add {} = s := by
  simp only [add, UInt64.add_zero]

/-- Counting a rule adds one application of it. -/
theorem count_eq_add (s : Stats) (rule : Rule) : s.count rule = s.add (count {} rule) := by
  cases rule <;> simp [count, add]

/-- So does counting a step. -/
theorem countStep_eq_add (s : Stats) : s.countStep = s.add (countStep {}) := by
  simp [countStep, add]

/-- And so does counting the run of a parameter. -/
theorem countParameterRun_eq_add (s : Stats) :
    s.countParameterRun = s.add (countParameterRun {}) := by
  simp [countParameterRun, add]

/-- The counters after some rules have been applied. -/
def countAll (s : Stats) (rules : List Rule) : Stats :=
  rules.foldl count s

/-- Rules are counted one after the other. -/
theorem countAll_append (s : Stats) (rules rules' : List Rule) :
    s.countAll (rules ++ rules') = (s.countAll rules).countAll rules' :=
  List.foldl_append

/-- Counting rules adds what they count from nothing. -/
theorem countAll_eq_add (s : Stats) (rules : List Rule) :
    s.countAll rules = s.add (countAll {} rules) := by
  induction rules generalizing s with
  | nil => exact (add_zero s).symm
  | cons rule rules ih =>
    show (s.count rule).countAll rules = s.add ((count {} rule).countAll rules)
    rw [ih (s.count rule), ih (count {} rule), count_eq_add s, add_assoc]

/-- Each counter has grown by how often its rule was applied. -/
theorem countAll_eq_counts (s : Stats) (rules : List Rule) :
    s.countAll rules = { s with
      fired := s.fired + .ofNat (rules.count .beta)
      parametersExhausted := s.parametersExhausted + .ofNat (rules.count .parameterExhausted)
      variableSites := s.variableSites + .ofNat (rules.count .substituteVar)
      applicationSites := s.applicationSites + .ofNat (rules.count .substituteApp) } := by
  induction rules generalizing s with
  | nil => simp [countAll]
  | cons rule rules ih =>
    have hone (a : UInt64) (n : Nat) : a + 1 + .ofNat n = a + .ofNat (n + 1) := by
      rw [UInt64.ofNat_add, UInt64.add_assoc, UInt64.add_comm 1]
      rfl
    show (s.count rule).countAll rules = _
    rw [ih]
    cases rule <;> simp [count, hone]

end Stats

/-! ### Copies and substitutions -/

/-- Copying counts nothing. -/
theorem Term.stats_copy {t t' : Term} {c c' : Copying} (h : t.copy c = (t', c')) :
    c'.reducer.stats = c.reducer.stats := by
  refine (copy_induct (P := fun _ c _ c' => c'.reducer.stats = c.reducer.stats)
    (Q := fun _ c _ c' => c'.reducer.stats = c.reducer.stats)
    ?absent ?var ?abs ?app ?nil ?cons).1 h
  case absent => exact fun _ => rfl
  case var => exact fun _ _ => rfl
  case abs =>
    intro id new body param body' param' c c₁ c₂ c₃ _ hn _ hparam hbody
    rw [hbody, Copying.reducer_eq_of_renew hn]
    exact hparam
  case app => exact fun h => h
  case nil => exact fun _ => rfl
  case cons => exact fun _ _ harg hargs => hargs.trans harg

/-- A use that is replaced counts its rule, and nothing else. -/
theorem Splice.stats_take {s s' : Splice} {rule : Rule} {binder : Ident} {w : Term}
    (h : (s.count rule binder).take = (w, s')) :
    s'.reducer.stats = s.reducer.stats.countAll [rule] := by
  rcases take_cases h with ⟨-, -, rfl⟩ | ⟨-, r', hdup, rfl⟩
  · rfl
  · obtain ⟨c', hc, rfl⟩ := Reducer.copy_of_duplicate hdup
    exact Term.stats_copy hc

/-- **Counts.** A substitution counts each use that it replaces. -/
theorem Term.stats_substitute {id : Ident} {t t' : Term} {s s' : Splice}
    (h : t.substitute id s = (t', s')) :
    s'.reducer.stats = s.reducer.stats.countAll (t.sites id) := by
  refine (substitutes_along
    (R := fun s uses s' => s'.reducer.stats = s.reducer.stats.countAll uses)
    (fun _ => rfl) (fun h₁ h₂ => ?_) Splice.stats_take).1 h
  rw [h₂, h₁, Stats.countAll_append]

/-! ### The account of a substitution -/

namespace Term

/-- The uses in arguments are those in each of them. -/
theorem argsSites_eq (id : Ident) (args : List Term) :
    argsSites id args = args.flatMap (sites id) := by
  induction args with
  | nil => rfl
  | cons arg args ih => rw [argsSites, ih, List.flatMap_cons]

/-- A use is replaced as a variable or as a head. -/
theorem mem_sites {id : Ident} {rule : Rule} {t : Term} (h : rule ∈ t.sites id) :
    rule = .substituteVar ∨ rule = .substituteApp := by
  induction t with
  | absent => exact absurd h List.not_mem_nil
  | var i =>
    rw [sites] at h
    split at h
    · exact .inl (List.mem_singleton.mp h)
    · exact absurd h List.not_mem_nil
  | abs i body param ihb ihp =>
    rw [sites, List.mem_append] at h
    rcases h with h | h
    · exact ihp h
    · split at h
      · exact absurd h List.not_mem_nil
      · exact ihb h
  | app i args ih =>
    rw [sites, argsSites_eq, List.mem_append, List.mem_flatMap] at h
    rcases h with h | ⟨arg, harg, h⟩
    · split at h
      · exact .inr (List.mem_singleton.mp h)
      · exact absurd h List.not_mem_nil
    · exact ih arg harg h

/-- Only the two rules for uses are counted at uses. -/
theorem count_sites_of_ne {id : Ident} {rule : Rule} (hvar : rule ≠ .substituteVar)
    (happ : rule ≠ .substituteApp) (t : Term) : (t.sites id).count rule = 0 :=
  List.count_eq_zero.mpr fun h => (mem_sites h).elim hvar happ

/-- Every use is a variable or a head. -/
theorem length_sites (id : Ident) (t : Term) :
    (t.sites id).length
      = (t.sites id).count .substituteVar + (t.sites id).count .substituteApp := by
  have hall : ∀ rule ∈ t.sites id, rule = .substituteVar ∨ rule = .substituteApp :=
    fun _ => mem_sites
  generalize t.sites id = rules at hall ⊢
  induction rules with
  | nil => rfl
  | cons rule rules ih =>
    rw [List.forall_mem_cons] at hall
    rw [List.length_cons, ih hall.2]
    rcases hall.1 with rfl | rfl
    · rw [List.count_cons_self, List.count_cons_of_ne (by decide)]
      omega
    · rw [List.count_cons_self, List.count_cons_of_ne (by decide)]
      omega

/-- Where the binder is not used, nothing is replaced and nothing is done. -/
theorem substitute_of_unused {id : Ident} {t t' : Term} {s s' : Splice}
    (h : t.substitute id s = (t', s')) (hnone : t.sites id = []) : t' = t ∧ s' = s := by
  refine (substitute_induct (P := fun t s uses t' s' => uses = [] → t' = t ∧ s' = s)
    (Q := fun args s uses args' s' => uses = [] → args' = args ∧ s' = s)
    ?absent ?site ?other ?rebound ?abs ?head ?app ?nil ?cons).1 h hnone
  case absent => exact fun _ _ => ⟨rfl, rfl⟩
  -- Where something is replaced there is a use.
  case site => exact fun _ hnone => absurd hnone (List.cons_ne_nil _ _)
  case other => exact fun _ _ => ⟨rfl, rfl⟩
  case rebound =>
    intro body param param' s s' hparam hnone
    obtain ⟨rfl, rfl⟩ := hparam hnone
    exact ⟨rfl, rfl⟩
  case abs =>
    intro i body param body' param' s s₁ s₂ _ _ _ hparam hbody hnone
    rw [List.append_eq_nil_iff] at hnone
    obtain ⟨rfl, rfl⟩ := hparam hnone.1
    obtain ⟨rfl, rfl⟩ := hbody hnone.2
    exact ⟨rfl, rfl⟩
  case head => exact fun _ _ _ hnone => absurd hnone (List.cons_ne_nil _ _)
  case app =>
    intro i args args' s s' _ hargs hnone
    obtain ⟨rfl, rfl⟩ := hargs hnone
    exact ⟨rfl, rfl⟩
  case nil => exact fun _ _ => ⟨rfl, rfl⟩
  case cons =>
    intro arg arg' args args' s s₁ s₂ _ _ harg hargs hnone
    rw [List.append_eq_nil_iff] at hnone
    obtain ⟨rfl, rfl⟩ := harg hnone.1
    obtain ⟨rfl, rfl⟩ := hargs hnone.2
    exact ⟨rfl, rfl⟩

/-- **The account.** Let a value without missing parts be put in for `id`, where `body` uses it
    `vars` times as a variable and `apps` times as a head.  The two counters grow by these numbers
    and no other does, and one identity is handed out for each binder of each copy, of which there
    is one for each use but the first.  The binders of the result are those of the body, those of
    the value once if there is a use, and the identities handed out.  Where there is no use, the
    body stays and so does the reducer. -/
theorem substitute_accounts {body value result : Term} {id : Ident} {r : Reducer} {splice : Splice}
    (h : body.substitute id { value, reducer := r } = (result, splice))
    (hvalue : value.isWhole = true) (hlow : -2 ^ 63 ≤ r.next)
    (hroom : r.next + (((body.sites id).length - 1) * value.binders.length : Nat) < 2 ^ 63) :
    let vars := (body.sites id).count .substituteVar
    let apps := (body.sites id).count .substituteApp
    let new := (vars + apps - 1) * value.binders.length
    splice.reducer.stats = { r.stats with
      variableSites := r.stats.variableSites + .ofNat vars
      applicationSites := r.stats.applicationSites + .ofNat apps } ∧
    splice.reducer.next = r.next + new ∧
    result.binders.Perm (body.binders ++ (if 1 ≤ vars + apps then value.binders else []) ++
      (List.range new).map fun k : Nat => r.next + k) ∧
    (vars + apps = 0 → result = body ∧ splice.reducer = r) := by
  intro vars apps new
  have hlength : (body.sites id).length = vars + apps := length_sites id body
  rw [hlength] at hroom
  have hadv := (advances_substitute h).reducer
  have hmodels : (({ value, reducer := r } : Splice).models (body.sites id)).length = new := by
    rw [Splice.models, length_copyModels, hlength]
    rfl
  have hu : r.Unwrapped (({ value, reducer := r } : Splice).models (body.sites id)) := by
    rw [Reducer.Unwrapped, hmodels]
    exact ⟨hlow, hroom⟩
  -- The counters, the counter of identities, the binders, and what is left without a use.
  refine ⟨?_, ?_, ?_, fun hnone => ?_⟩
  · rw [stats_substitute h, Stats.countAll_eq_counts, count_sites_of_ne (by decide) (by decide),
      count_sites_of_ne (by decide) (by decide)]
    simp [vars, apps]
  · rw [hu.next_eq hadv, hmodels]
  · have hused : (!(body.sites id).isEmpty) = decide (1 ≤ vars + apps) := by
      rw [← hlength]
      cases body.sites id <;> simp
    have hnew : r.handed (({ value, reducer := r } : Splice).models (body.sites id))
        = (List.range new).map fun k : Nat => r.next + k := by
      rw [Reducer.handed, hmodels, Ident.run_eq_map hlow hroom]
    have hperm := binders_substitute_perm h hvalue
    rw [Splice.given, hused, hnew, ← List.append_assoc] at hperm
    simpa using hperm
  · rw [← hlength, List.length_eq_zero_iff] at hnone
    obtain ⟨rfl, rfl⟩ := substitute_of_unused h hnone
    exact ⟨rfl, rfl⟩

/-- In `x.x.(x(x).x)` the inner `x` is a binder of its own, so its body is left alone.  Of the three
    uses, two get a copy of `y(z(y.z))`. -/
theorem substitute_accounts_shadowed :
    let body : Term := .app 0 [.var 0, .abs 0 (.var 0) (.var 0)]
    let value : Term := .abs 5 (.abs 6 (.app 5 [.var 6]) .absent) .absent
    let r : Reducer := { next := 10 }
    value.isWhole = true ∧ -2 ^ 63 ≤ r.next ∧
      body.sites 0 = [.substituteApp, .substituteVar, .substituteVar] ∧
      ∃ result splice, body.substitute 0 { value, reducer := r } = (result, splice) ∧
        splice.reducer.stats = { variableSites := 2, applicationSites := 1 } ∧
        splice.reducer.next = 14 ∧ result.binders.Perm [0, 5, 6, 10, 11, 12, 13] := by
  intro body value r
  have hlow : -2 ^ 63 ≤ r.next := by decide
  have hsub : body.substitute 0 { value, reducer := r } = (_, _) := rfl
  obtain ⟨hstats, hnext, hbinders, -⟩ := substitute_accounts hsub rfl hlow (by decide)
  exact ⟨rfl, hlow, rfl, _, _, hsub, hstats, hnext, hbinders⟩

end Term

end DotLambda
