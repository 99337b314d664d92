import ScriptLowering.Lowering.Expr
import ScriptLowering.Source.Stmt

/-!
# Lowering of statements

An expression statement is lowered for its effects: assignments and updates
become statements of their own, and any other value is dropped.
-/

namespace ScriptLowering.Lower

open Target (Expr Stmt)

/-! ## Algorithm -/

/-- The statement that evaluates an expression and drops its value, if it takes one. -/
def discard (e : Expr) : Option Stmt :=
  if e.isCall then some (.call e)
  else if e.isIdentifier then none
  else some (.declare .discard (some e))

/-- The last statement of an expression statement. -/
def statementBody (pool : TypePool) : Source.Expr → Lower (Option Stmt)
  | .binary info op left right =>
    if left.isPattern then discard <$> value pool (.binary info op left right)
    else
      match op with
      | .assign => some <$> assignStatement left.span (reference pool left) (value pool right)
      | .assignWith op =>
        some <$> compoundStatement pool op left.info right.ty (reference pool left)
          (value pool right)
      | op => discard <$> value pool (.binary info op left right)
  | .prefixed _ (.update op) operand => some <$> updateStatement op (reference pool operand)
  | .postfixed _ op operand => some <$> updateStatement op (reference pool operand)
  | .call info callee args => discard <$> call pool .statement (.call info callee args)
  | e => discard <$> value pool e

/-- The statements of an expression statement. -/
def expressionStatement (pool : TypePool) (e : Source.Expr) : Lower (List Stmt) := do
  let (last, stmts) ← (statementBody pool e).capture
  return stmts ++ last.toList

/-- The statements of a top-level statement.  Imports and exports have none. -/
def topLevel (pool : TypePool) (s : Source.Stmt Source.Expr) : Lower (List Stmt) :=
  match s.kind with
  | .expr e => expressionStatement pool e
  | .letDecl name none => pure [.declare (.name name) none]
  | .letDecl name (some init) => do
    let (v, stmts) ← expression pool init
    return stmts ++ [.declare (.name name) (some v)]
  | .importDecl _ | .exportDecl _ => pure []

/-! ## Lemmas -/

end ScriptLowering.Lower
