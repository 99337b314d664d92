import ScriptLowering.Diagnostic.Basic
import ScriptLowering.Source.File

/-!
# Module syntax

Every file has to be a module: it has an import or an export.
-/

namespace ScriptLowering.Check

/-- Reports a file that is no module, at its first statement. -/
def checkModule (f : Source.File) : List Diagnostic :=
  if f.hasModuleSyntax then []
  else
    [.error .nonModule ((f.stmts.head?.map (·.span)).getD .dummy)
      ("`" ++ f.fileName
        ++ "` is not a module: add an import or export, or move it out of the project")]

theorem checkModule_eq_nil_iff (f : Source.File) : checkModule f = [] ↔ f.hasModuleSyntax := by
  simp [checkModule]

end ScriptLowering.Check
