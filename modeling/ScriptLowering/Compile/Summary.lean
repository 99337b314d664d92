import ScriptLowering.Compile
import ScriptLowering.Text.Quoted

/-!
# Summaries of output

One line on a compiled file: its path in quotes, how many statements,
temporaries and diagnostics it has, and the helper namespaces it needs.
-/

namespace ScriptLowering

/-- The helpers of a set joined by bars; a set without any is written as zero. -/
def HelperSet.toText (s : HelperSet) : String :=
  let labels := s.toList.map (·.label)
  "HelperFlags(" ++ (if labels.isEmpty then "0x0" else String.intercalate " | " labels) ++ ")"

/-- How many statements there are, if the file was lowered. -/
def countText (stmts : Option (List Target.Stmt)) : String :=
  match stmts with
  | some ss => "Some(" ++ toString ss.length ++ ")"
  | none => "None"

def FileOutput.summary (o : FileOutput) : String :=
  "FileOutput \x7b path: " ++ Text.quote o.path
    ++ ", stmts: " ++ countText o.stmts
    ++ ", temps: " ++ toString o.temps.size
    ++ ", diagnostics: " ++ toString o.diagnostics.length
    ++ ", helpers: " ++ o.helpers.toText ++ " \x7d"

end ScriptLowering
