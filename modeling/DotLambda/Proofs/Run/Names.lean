import DotLambda.Proofs.Run.Budgets

namespace DotLambda

/-!
# Runs — the names of a result

The table that a run ends with has all names that its result needs, and they are the right ones.

* `run_names_faithful` — the table of a result.
-/

/-- **The table of a result.** If a program comes to a result, the table of the program is the first
    part of the table of the result, and this one has an entry for each identity in the result.
    A binder of the result has the name of a binder of the program from which it descends by copies,
    and what is free in the result is free in the program under the same name.  In every state that
    the reducer passes through, the table ends where the counter is.  The table is no longer than
    machine words can count, as all tables are. -/
theorem run_names_faithful {source : List Char} {options : Options} {r : Result}
    (h : run source options = .ok r) (hsize : r.names.size < 2 ^ 63) :
    ∃ program t names journal ran, desugar source = .ok program ∧
      parse program.text = .ok (t, names) ∧
      let start := options.start names t
      let models := Firing.modelsAll
        (firingsAt options.nesting options.maxSteps.toNat t ⟨start, journal⟩)
      runAt options.nesting options.maxSteps.toNat t ⟨start, journal⟩ = some ran ∧
      r.term = ran.term ∧ r.names = ran.machine.names ∧
      names.toList <+: r.names.toList ∧
      (∀ i ∈ r.term.idents, 0 ≤ i ∧ i < r.names.size) ∧
      (∀ i ∈ r.term.binders, ∃ b ∈ t.binders,
        start.Descends models i b ∧ r.names.lookup i = names.lookup b) ∧
      (∀ i ∈ r.term.frees, i ∈ t.frees ∧ r.names.lookup i = names.lookup i) ∧
      ∀ first c, first <+: models → start.Advances first c → c.next = c.names.size := by
  obtain ⟨program, t, names, journal, ran, hdesugar, hparse, hran, -, hterm, hnames⟩ := run_cases h
  refine ⟨program, t, names, journal, ran, hdesugar, hparse, hran, hterm, hnames, ?_⟩
  rw [hterm, hnames]
  rw [hnames] at hsize
  obtain ⟨htabled, hu, hfits⟩ := options.start_sound hparse hran hsize
  obtain ⟨hadv, hreduct⟩ := runAt_reduct hran
  have hreduct := hreduct hfits hu
  have hextends : names.Extends ran.machine.names := hadv.names_extend
  have hends : ran.machine.next = ran.machine.names.size := (hadv.tabled htabled hu).2
  have hprogram : ∀ i ∈ t.idents, 0 ≤ i ∧ i < names.size := fun i hi =>
    (mem_idents_of_parse hparse i).mp hi
  have hold : ∀ i ∈ t.idents, ran.machine.names.lookup i = names.lookup i := fun i hi =>
    hextends.lookup i (hprogram i hi).2
  refine ⟨hextends.isPrefix, ?_, ?_, ?_, ?_⟩
  · intro i hi
    refine ⟨?_, hends ▸ (hreduct.fits hfits hadv hu).low i hi⟩
    rcases Term.mem_idents.mp hi with hb | hf
    · rcases hreduct.origin hb with hb | hnew
      · exact (hprogram i (Term.mem_idents.mpr (.inl hb))).1
      · exact le_trans (htabled.2 ▸ Int.natCast_nonneg _) (hu.next_le hnew)
    · exact (hprogram i (Term.mem_idents.mpr (.inr (hreduct.frees i hf)))).1
  · intro i hi
    obtain ⟨b, hb, hdescends⟩ := hreduct.binders i hi
    -- Every identity handed out got the name of its model.
    have hname := hdescends.pairs (htabled.sized.pairs hadv hu) (fun _ => rfl)
      fun _ _ _ h₁ h₂ => h₂.trans h₁
    exact ⟨b, hb, hdescends, hname.trans (hold b (Term.mem_idents.mpr (.inl hb)))⟩
  · intro i hi
    have hfree := hreduct.frees i hi
    exact ⟨hfree, hold i (Term.mem_idents.mpr (.inr hfree))⟩
  · rintro first c ⟨rest, hmodels⟩ hadv
    rw [← hmodels] at hu
    exact (hadv.tabled htabled hu.left).2

/-- In `f(x(f.x.x).(y(f.y.y).z(v)))` the parameter of `x` is copied before it is reduced, so that
    the last `z` of the result is a copy of a copy of the one in the program. -/
theorem run_names_faithful_copies :
    ∃ r, run "f(x(f.x.x).(y(f.y.y).z(v)))".toList { parameterSteps := 0 } = .ok r ∧
      r.names.size < 2 ^ 63 ∧
      r.term = .abs 0 (.app 0 [.app 0 [.abs 1 (.var 2) .absent, .abs 7 (.var 2) .absent],
        .app 0 [.abs 5 (.var 2) .absent, .abs 8 (.var 2) .absent]]) .absent ∧
      ∃ program t names, desugar "f(x(f.x.x).(y(f.y.y).z(v)))".toList = .ok program ∧
        parse program.text = .ok (t, names) ∧ names.toList <+: r.names.toList ∧
        (∀ i ∈ r.term.binders, ∃ b ∈ t.binders, r.names.lookup i = names.lookup b) ∧
        ∀ i ∈ r.term.frees, i ∈ t.frees ∧ r.names.lookup i = names.lookup i := by
  obtain ⟨r, hrun, hsize, hterm⟩ : ∃ r,
      run "f(x(f.x.x).(y(f.y.y).z(v)))".toList { parameterSteps := 0 } = .ok r ∧
      r.names.size < 2 ^ 63 ∧
      r.term = .abs 0 (.app 0 [.app 0 [.abs 1 (.var 2) .absent, .abs 7 (.var 2) .absent],
        .app 0 [.abs 5 (.var 2) .absent, .abs 8 (.var 2) .absent]]) .absent :=
    ⟨⟨_, #["f", "z", "v", "y", "x", "z", "y", "z", "z"], ⟨3, 3, 3, 1, 6, 0⟩⟩, by cbv, by decide,
      rfl⟩
  obtain ⟨program, t, names, _, ran, hdesugar, hparse, -, -, -, htable, -, hbinders, hfrees, -⟩ :=
    run_names_faithful hrun hsize
  refine ⟨r, hrun, hsize, hterm, program, t, names, hdesugar, hparse, htable, ?_, hfrees⟩
  intro i hi
  obtain ⟨b, hb, -, hname⟩ := hbinders i hi
  exact ⟨b, hb, hname⟩

end DotLambda
