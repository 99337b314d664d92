import ScriptLowering.Lowering.Operator
import ScriptLowering.Lowering.Place
import ScriptLowering.Source.Expr

/-!
# Assignments

The target is addressed first, then the value is lowered.  When the value has
statements to run, they come between the two, so each part of the target that
could change is bound before them.  An assignment used as a value writes in an
earlier statement and stands as the location it wrote to.

    a native compound other than `..=` is the operator spelled out    (arithmetic_of_nativeCompound)
-/

namespace ScriptLowering.Lower

open Target (Expr Stmt)
open Source (NodeInfo)

/-! ## Algorithm -/

/-- How to pin a target whose value is known, if at all. -/
def pinFor (valueStmts : List Stmt) (readAfterWrite : Bool) : Option Pin :=
  if !valueStmts.isEmpty then some .reordered
  else if readAfterWrite then some .repeated
  else none

/-- The target and the value of an assignment, in this order. -/
def targetAndValue (span : Span) (target : Lower Reference) (value : Lower Expr)
    (readAfterWrite : Bool) : Lower (WritableTarget × Expr) := do
  let p ← asPlace target
  let (v, stmts) ← value.capture
  let p ←
    match pinFor stmts readAfterWrite with
    | some pin => pinPlace pin span p
    | none => pure p
  emitAll stmts
  return (.ofPlace p readAfterWrite, v)

/-- `target = value` as a value. -/
def assignValue (span : Span) (target : Lower Reference) (value : Lower Expr) : Lower Expr := do
  let (t, v) ← targetAndValue span target value true
  emit (.assign t.write v)
  return t.readable

/-- `target op= value` as a value. -/
def compoundValue (pool : TypePool) (op : Source.ArithmeticOp) (targetInfo : NodeInfo)
    (valueTy : TypeId) (target : Lower Reference) (value : Lower Expr) : Lower Expr := do
  let (t, v) ← targetAndValue targetInfo.span target value true
  emit (.assign t.write (arithmetic pool op ⟨t.readable, targetInfo.ty⟩ ⟨v, valueTy⟩))
  return t.readable

/-- `target = value` as a statement. -/
def assignStatement (span : Span) (target : Lower Reference) (value : Lower Expr) : Lower Stmt := do
  let (t, v) ← targetAndValue span target value false
  return .assign t.write v

/-- `target op= value` as a statement, in the target's own compound form where
that means the same. -/
def compoundStatement (pool : TypePool) (op : Source.ArithmeticOp) (targetInfo : NodeInfo)
    (valueTy : TypeId) (target : Lower Reference) (value : Lower Expr) : Lower Stmt :=
  match nativeCompound? pool op targetInfo.ty valueTy with
  | some native => do
    let (t, v) ← targetAndValue targetInfo.span target value false
    return .compound native t.write
      (if native = .concat then concatOperand pool ⟨v, valueTy⟩ else v)
  | none => do
    let (t, v) ← targetAndValue targetInfo.span target value true
    return .assign t.write (arithmetic pool op ⟨t.readable, targetInfo.ty⟩ ⟨v, valueTy⟩)

def updateOp : Source.UpdateOp → Target.ArithmeticOp
  | .increment => .add
  | .decrement => .sub

/-- `target += 1` or `target -= 1` -/
def updateBy (op : Source.UpdateOp) (target : Expr) : Stmt :=
  .compound (updateOp op) target (.number .one)

/-- An update as a statement. -/
def updateStatement (op : Source.UpdateOp) (target : Lower Reference) : Lower Stmt := do
  let p ← asPlace target
  return updateBy op p.toExpr

/-- `++x` as a value: the location after the update. -/
def updateBefore (op : Source.UpdateOp) (span : Span) (target : Lower Reference) : Lower Expr := do
  let p ← asPlace target
  let p ← pinPlace .repeated span p
  emit (updateBy op p.toExpr)
  return p.toExpr

/-- `x++` as a value: a copy made before the update. -/
def updateAfter (op : Source.UpdateOp) (span : Span) (target : Lower Reference) : Lower Expr := do
  let p ← asPlace target
  let p ← pinPlace .repeated span p
  let copy ← pushTemp "original" span p.toExpr
  emit (updateBy op p.toExpr)
  return copy

/-! ## Lemmas -/

theorem pinFor_eq_none_iff (stmts : List Stmt) (b : Bool) :
    pinFor stmts b = none ↔ stmts = [] ∧ b = false := by
  cases stmts <;> cases b <;> simp [pinFor]

theorem pinFor_of_ne_nil {stmts : List Stmt} (h : stmts ≠ []) (b : Bool) :
    pinFor stmts b = some .reordered := by
  cases stmts with
  | nil => exact absurd rfl h
  | cons s ss => rfl

/-- The native form combines the same operands as the spelled-out one. -/
theorem arithmetic_of_nativeCompound {pool : TypePool} {op : Source.ArithmeticOp}
    {native : Target.ArithmeticOp} {l r : TypedValue}
    (h : nativeCompound? pool op l.ty r.ty = some native) (hn : native ≠ .concat) :
    arithmetic pool op l r = .arithmetic native l.expr r.expr := by
  cases op <;> simp only [nativeCompound?, Option.some.injEq, reduceCtorEq] at h <;> subst h <;>
    simp_all [arithmetic]

end ScriptLowering.Lower
