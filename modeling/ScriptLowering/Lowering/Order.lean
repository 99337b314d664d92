import ScriptLowering.Lowering.Temporary

/-!
# Operands in order

Operands are lowered left to right, each with its own statements set apart.
They are then settled left to right: the statements of an operand are emitted,
and its value is bound to a temporary when an operand to its right still has
statements to run, unless nothing can change it.

    inOrder (x :: xs) = inOrderCons x xs, taken as one list               (inOrder_cons)
    settle c later reads c in place when nothing runs later               (settle_of_no_stmts)
-/

namespace ScriptLowering.Lower

open Target (Expr Stmt)

/-- An operand to be lowered, and the span for a temporary that holds it. -/
structure Operand where
  span : Span
  lower : Lower Expr

/-- A lowered operand with the statements to run before its value is read. -/
structure Captured where
  span : Span
  value : Expr
  stmts : List Stmt

/-! ## Algorithm -/

def Operand.capture (x : Operand) : Lower Captured := do
  let (value, stmts) ← x.lower.capture
  return ⟨x.span, value, stmts⟩

/-- Lowers operands left to right. -/
def captureAll : List Operand → Lower (List Captured)
  | [] => pure []
  | x :: xs => do
    let c ← x.capture
    return c :: (← captureAll xs)

/-- The value of an operand that stands before the others. -/
def settle (c : Captured) (later : List Captured) : Lower Expr := do
  emitAll c.stmts
  if later.any (!·.stmts.isEmpty) then pushTempIfUnstable "exp" c.span c.value
  else return c.value

def settleAll : List Captured → Lower (List Expr)
  | [] => pure []
  | c :: later => do
    let value ← settle c later
    return value :: (← settleAll later)

/-- The values of operands, their effects in source order. -/
def inOrder (xs : List Operand) : Lower (List Expr) := captureAll xs >>= settleAll

/-- A first operand and those after it. -/
def inOrderCons (x : Operand) (xs : List Operand) : Lower (Expr × List Expr) := do
  let c ← x.capture
  let later ← captureAll xs
  let value ← settle c later
  return (value, ← settleAll later)

/-- Two operands. -/
def inOrderPair (x y : Operand) : Lower (Expr × Expr) := do
  let c ← x.capture
  let d ← y.capture
  let first ← settle c [d]
  return (first, ← settle d [])

/-! ## Lemmas -/

theorem inOrder_cons (x : Operand) (xs : List Operand) :
    inOrder (x :: xs) = (fun p => p.1 :: p.2) <$> inOrderCons x xs := by
  simp only [inOrder, inOrderCons, captureAll, settleAll, map_eq_pure_bind, bind_assoc, pure_bind]

theorem inOrder_pair (x y : Operand) :
    inOrder [x, y] = (fun p => [p.1, p.2]) <$> inOrderPair x y := by
  simp only [inOrder, inOrderPair, captureAll, settleAll, map_eq_pure_bind, bind_assoc, pure_bind]

/-- With nothing to run later an operand is read in place. -/
theorem settle_of_no_stmts {c : Captured} {later : List Captured}
    (h : ∀ d ∈ later, d.stmts = []) : settle c later = (emitAll c.stmts >>= fun _ => pure c.value) := by
  have : later.any (!·.stmts.isEmpty) = false := by simpa using h
  simp [settle, this]

end ScriptLowering.Lower
