import ScriptLowering.Compile

/-!
# Compiled files and lowered files

What a compiled file holds is what lowering it gave, and without checks every
lowered file is compiled.

    compileFile c f = .ok o with statements ss → Lower.file f 0 = ok ss       (compileFile_eq_ok)
    compileFile c f, by the reports of the checks and by Lower.file f 0          (compileFile_eq)
-/

namespace ScriptLowering.Lower

open Target (Stmt)

/-- The output of a file is what its checks report and, if none of that is an
error, what lowering it from the first id gave. -/
theorem compileFile_eq (c : Check.Checklist) (f : Source.File) :
    compileFile c f =
      if (c.run f).any (·.isError) then .ok ⟨f.path, none, #[], c.run f, .empty⟩
      else
        match Lower.file f 0 with
        | (.ok ss, e) =>
          .ok ⟨f.path, some ss, e.temps.toArray, c.run f ++ e.diagnostics, e.helpers⟩
        | (.error (.error err), e) =>
          .ok ⟨f.path, none, e.temps.toArray, c.run f ++ e.diagnostics ++ [err.toDiagnostic],
            e.helpers⟩
        | (.error (.fault fault), _) => .error fault := by
  unfold compileFile
  simp only [run_eq]
  generalize hu : UnitState.empty.extend { Effects.none with diagnostics := c.run f } = u
  have hd : u.diagnostics.toList = c.run f := by
    simp [← hu, UnitState.extend, UnitState.empty]
  have herrors : u.diagnostics.hasErrors = (c.run f).any (·.isError) := by
    rw [← hd, DiagnosticSink.hasErrors, ← Array.any_toList]
    rfl
  have hfirst : u.nextTemp = 0 := by rw [← hu]; rfl
  have htemps : u.temps = #[] := by rw [← hu]; rfl
  have hhelpers : u.helpers = .empty := by rw [← hu]; rfl
  rw [herrors, hfirst]
  split
  · simp only [FileOutput.ofUnit, hd, htemps, hhelpers]
  · rcases Lower.file f 0 with ⟨_ | _, e⟩
    next stop =>
      cases stop with
      | error err =>
        simp [FileOutput.ofUnit, UnitState.report, UnitState.extend, Effects.ofDiagnostic,
          Effects.none, hd, htemps, hhelpers, HelperSet.empty_union, HelperSet.union_empty]
      | fault fault => rfl
    next ss =>
      simp [FileOutput.ofUnit, UnitState.extend, hd, htemps, hhelpers, HelperSet.empty_union]

/-- What a lowered file holds besides its code. -/
theorem compileFile_output {c : Check.Checklist} {f : Source.File} {o : FileOutput}
    {ss : List Stmt} (h : compileFile c f = .ok o) (hs : o.stmts = some ss) :
    ∃ e, Lower.file f 0 = (.ok ss, e) ∧
      o = ⟨f.path, some ss, e.temps.toArray, c.run f ++ e.diagnostics, e.helpers⟩ := by
  rw [compileFile_eq] at h
  split at h
  · cases h
    cases hs
  · split at h <;> cases h <;> cases hs
    next e hf => exact ⟨e, hf, rfl⟩

theorem compileFile_eq_ok {c : Check.Checklist} {f : Source.File} {o : FileOutput}
    {ss : List Stmt} (h : compileFile c f = .ok o) (hs : o.stmts = some ss) :
    ∃ e, Lower.file f 0 = (.ok ss, e) ∧ o.temps = e.temps.toArray := by
  obtain ⟨e, hf, rfl⟩ := compileFile_output h hs
  exact ⟨e, hf, rfl⟩

/-- Without checks a file is compiled as it is lowered. -/
theorem compileFile_empty {f : Source.File} {ss : List Stmt} {e : Effects}
    (h : Lower.file f 0 = (.ok ss, e)) :
    compileFile .empty f = .ok (.ofUnit f.path (some ss) (UnitState.empty.extend e)) := by
  have hu : UnitState.empty.extend { Effects.none with diagnostics := [] } = .empty :=
    UnitState.ext_fields rfl rfl rfl
  have hd : UnitState.empty.diagnostics.hasErrors = false := by
    simp [DiagnosticSink.hasErrors, UnitState.empty, DiagnosticSink.empty]
  have hrun : (Lower.file f).run .empty = (.ok ss, UnitState.empty.extend e) := by
    rw [run_eq]
    exact Prod.ext (congrArg (·.1) h) (congrArg (fun r => UnitState.empty.extend r.2) h)
  unfold compileFile
  simp only [Check.Checklist.run_empty, hu, hd, hrun, Bool.false_eq_true, if_false]

end ScriptLowering.Lower
