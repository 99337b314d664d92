import ScriptLowering.Lowering.Operator

/-!
# Truth

The source counts `0`, NaN and `""` as false, the target only nil and false.  A
condition on a value that may be a number or a string is spelled out as checks.
Short-circuit operators keep the right operand's statements in a block that
runs only when the left value asks for it.

    no checks needed → truthiness … v = pure v               (truthiness_of_no_checks)
-/

namespace ScriptLowering.Lower

open Target (Expr Stmt)

/-! ## Algorithm -/

/-- The checks that a value is no false number: it is not zero, and it equals itself. -/
def numberChecks (v : Expr) : List Expr :=
  [.binary .ne v (.number .zero), .binary .eq v v]

/-- The check that a value is no empty string. -/
def stringChecks (v : Expr) : List Expr := [.binary .ne v (.string "")]

/-- All checks and then the value, joined from the left. -/
def conjunction (checks : List Expr) (v : Expr) : Expr :=
  match checks with
  | [] => v
  | c :: cs => (cs ++ [v]).foldl (.binary .and) c

/-- Whether a value of the type needs checks: as a number, as a string. -/
def needsChecks (pool : TypePool) (ty : TypeId) : Bool × Bool :=
  (pool.isPossiblyA ty .number, pool.isPossiblyA ty .string)

/-- A condition that holds in the target exactly when the value is true in the source. -/
def truthiness (pool : TypePool) (ty : TypeId) (span : Span) (value : Expr) : Lower Expr :=
  match needsChecks pool ty with
  | (false, false) => pure value
  | (number, string) => do
    let v ← pushTempIfComplex "exp" span value
    return conjunction
      ((if number then numberChecks v else []) ++ (if string then stringChecks v else [])) v

/-- `if condition then stmts; target = value end` -/
def assignInBlock (condition target value : Expr) (stmts : List Stmt) : Lower Unit :=
  emit (.ifThen condition (stmts ++ [.assign target value]))

/-- A temporary for the left value that takes the right one when the check on it holds. -/
def shortCircuitBlock (span : Span) (left right : Expr) (stmts : List Stmt)
    (check : Expr → Lower Expr) : Lower Expr := do
  let result ← pushTemp "result" span left
  let condition ← check result
  assignInBlock condition result right stmts
  return result

/-- The target's own operator serves when the left value needs no checks and the
right operand has no statements. -/
def isNativeLogical (pool : TypePool) (leftTy : TypeId) (stmts : List Stmt) : Bool :=
  needsChecks pool leftTy == (false, false) && stmts.isEmpty

/-- `&&`, `||` and `??`. -/
def shortCircuit (pool : TypePool) (op : Source.LogicalOp) (span : Span) (leftTy : TypeId)
    (left right : Lower Expr) : Lower Expr := do
  let l ← left
  let (r, stmts) ← right.capture
  match op with
  | .coalesce => shortCircuitBlock span l r stmts fun result => pure (.binary .eq result .nil)
  | .and =>
    if isNativeLogical pool leftTy stmts then pure (.binary .and l r)
    else shortCircuitBlock span l r stmts (truthiness pool leftTy span)
  | .or =>
    if isNativeLogical pool leftTy stmts then pure (.binary .or l r)
    else shortCircuitBlock span l r stmts fun result => do
      return .unary .not (← truthiness pool leftTy span result)

/-! ## Lemmas -/

theorem conjunction_cons (c : Expr) (cs : List Expr) (v : Expr) :
    conjunction (c :: cs) v = .binary .and (cs.foldl (.binary .and) c) v := by
  simp [conjunction]

theorem truthiness_of_no_checks {pool : TypePool} {ty : TypeId}
    (h : needsChecks pool ty = (false, false)) (span : Span) (value : Expr) :
    truthiness pool ty span value = pure value := by
  simp [truthiness, h]

end ScriptLowering.Lower
