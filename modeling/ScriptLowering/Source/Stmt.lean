import ScriptLowering.Source.Expr

/-!
# Source statements

The top-level statements of a file, over whatever stands for an expression: an
id of an arena, or a tree.
-/

namespace ScriptLowering.Source

inductive StmtKind (ε : Type) where
  | expr (e : ε)
  | letDecl (name : String) (init : Option ε)
  | importDecl (module : String)
  | exportDecl (name : String)
  deriving DecidableEq

structure Stmt (ε : Type) where
  kind : StmtKind ε
  span : Span
  deriving DecidableEq

/-- Imports and exports make a file a module. -/
def StmtKind.isModuleSyntax {ε : Type} : StmtKind ε → Bool
  | importDecl _ | exportDecl _ => true
  | expr _ | letDecl _ _ => false

end ScriptLowering.Source
