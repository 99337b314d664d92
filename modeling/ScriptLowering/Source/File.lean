import ScriptLowering.Source.Tree
import ScriptLowering.Text.Split

/-!
# Source files

A file is its path, its nodes, the types recorded for them, and its statements.
The file name is what follows the last separator of the path.

    baseName (dir ++ sep :: base) = base, for a base without separator     (baseName_append)
-/

namespace ScriptLowering.Source

structure File where
  path : String
  arena : Arena
  types : TypeTable
  stmts : List (Stmt ExprId)

/-- Either kind of slash separates the parts of a path. -/
def isSeparator (c : Char) : Bool := c == '/' || c == '\\'

/-- What follows the last separator, or the whole path. -/
def baseName (path : List Char) : List Char := (Text.afterLast? isSeparator path).getD path

namespace File

def fileName (f : File) : String := String.ofList (baseName f.path.toList)

/-- The file has an import or an export. -/
def hasModuleSyntax (f : File) : Bool := f.stmts.any (·.kind.isModuleSyntax)

end File

/-! ## Lemmas -/

theorem baseName_append (dir : List Char) {sep : Char} {base : List Char} (hs : isSeparator sep)
    (hb : ∀ c ∈ base, isSeparator c = false) : baseName (dir ++ sep :: base) = base := by
  rw [baseName, Text.afterLast?_append dir hs hb, Option.getD_some]

end ScriptLowering.Source
