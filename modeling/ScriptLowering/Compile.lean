import ScriptLowering.Check.Checklist
import ScriptLowering.Lowering.Statement

/-!
# Compilation of files

A file is checked first and lowered only if no check reported an error.  A hard
error of lowering ends it as one more diagnostic; what was gathered before it is
kept.  Files are compiled apart from each other.

    compileFile c f = .ok o → o.diagnostics begins with c.run f        (compileFile_diagnostics)
-/

namespace ScriptLowering

open Check (Checklist)

/-- The result of compiling one file. -/
structure FileOutput where
  path : String
  /-- Absent when the file was not lowered to its end. -/
  stmts : Option (List Target.Stmt)
  temps : Array Temp
  diagnostics : List Diagnostic
  helpers : HelperSet

namespace FileOutput

def isSuccess (o : FileOutput) : Bool := !o.diagnostics.any (·.isError)

def errorCount (o : FileOutput) : Nat := o.diagnostics.countP (·.isError)

/-- The output of a unit. -/
def ofUnit (path : String) (stmts : Option (List Target.Stmt)) (u : UnitState) : FileOutput where
  path
  stmts
  temps := u.temps
  diagnostics := u.diagnostics.toList
  helpers := u.helpers

end FileOutput

/-! ## Algorithm -/

/-- The statements of a file, lowered in order. -/
def Lower.statements (pool : TypePool) (trees : Source.Forest) :
    List (Source.Stmt ExprId) → Lower (List Target.Stmt)
  | [] => pure []
  | s :: rest => do
    let stmt ← ofFault (s.read trees)
    let stmts ← topLevel pool stmt
    return stmts ++ (← statements pool trees rest)

/-- The statements of a whole file. -/
def Lower.file (f : Source.File) : Lower (List Target.Stmt) :=
  statements f.types.pool (f.arena.trees f.types) f.stmts

/-- Checks a file and lowers it. -/
def compileFile (checklist : Checklist) (f : Source.File) : Except Fault FileOutput :=
  let unit := UnitState.empty.extend { Effects.none with diagnostics := checklist.run f }
  if unit.diagnostics.hasErrors then .ok (.ofUnit f.path none unit)
  else
    match (Lower.file f).run unit with
    | (.ok stmts, unit) => .ok (.ofUnit f.path (some stmts) unit)
    | (.error (.error e), unit) => .ok (.ofUnit f.path none (unit.report e.toDiagnostic))
    | (.error (.fault fault), _) => .error fault

/-- Compiles files in order; the first fault is the answer for all. -/
def compileFiles (checklist : Checklist) (files : List Source.File) :
    Except Fault (List FileOutput) :=
  files.mapM (compileFile checklist)

/-! ## Lemmas -/

theorem FileOutput.isSuccess_iff (o : FileOutput) : o.isSuccess ↔ o.errorCount = 0 := by
  simp [isSuccess, errorCount]

/-- The reports of the checks come first. -/
theorem compileFile_diagnostics {c : Checklist} {f : Source.File} {o : FileOutput}
    (h : compileFile c f = .ok o) : c.run f <+: o.diagnostics := by
  unfold compileFile at h
  simp only at h
  split at h
  · cases h
    simp [FileOutput.ofUnit, UnitState.extend, UnitState.empty]
  · have hd := Lower.diagnostics_run (Lower.file f)
      (UnitState.empty.extend { Effects.none with diagnostics := c.run f })
    split at h <;> cases h
    next heq =>
      rw [heq] at hd
      simp [FileOutput.ofUnit, hd, UnitState.extend, UnitState.empty]
    next heq =>
      rw [heq] at hd
      simp [FileOutput.ofUnit, UnitState.report, UnitState.extend, UnitState.empty] at hd ⊢
      simp [hd]

end ScriptLowering
