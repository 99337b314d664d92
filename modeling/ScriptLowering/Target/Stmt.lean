import ScriptLowering.Target.Expr

/-!
# Target statements

Statements as trees.  A conditional holds the statements of its only branch.
-/

namespace ScriptLowering.Target

/-- What a local statement binds. -/
inductive Binding where
  | name (name : String)
  | temp (id : Nat)
  | discard
  deriving DecidableEq

inductive Stmt where
  | call (call : Expr)
  | assign (target value : Expr)
  | compound (op : ArithmeticOp) (target value : Expr)
  | declare (binding : Binding) (value : Option Expr)
  | ifThen (condition : Expr) (body : List Stmt)

namespace Stmt

/-- Binds a temporary to a value. -/
def declareTemp (id : Nat) (value : Expr) : Stmt := declare (.temp id) (some value)

end Stmt

end ScriptLowering.Target
