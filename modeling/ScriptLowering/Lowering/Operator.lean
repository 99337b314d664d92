import ScriptLowering.Lowering.Temporary
import ScriptLowering.Source.Operator
import ScriptLowering.Types.Query

/-!
# Operators on two values

The target form of each operator on two lowered values.  Addition concatenates
when either side is definitely a string; remainder and bit operators are calls
of the target's libraries; `in` is a comparison of an indexed value with nil.
-/

namespace ScriptLowering.Lower

open Target (Expr)

/-- A lowered value and its static type. -/
structure TypedValue where
  expr : Expr
  ty : TypeId

/-! ## Algorithm -/

/-- A member of a global library table. -/
def libraryMember (table member : String) : Expr := .property (.ident table) member

/-- `TS.namespace.member` -/
def helperMember (h : Helper) (member : String) : Expr :=
  .property (.property (.ident "TS") h.field) member

/-- Whether an addition of these types is a concatenation. -/
def isConcat (pool : TypePool) (left right : TypeId) : Bool :=
  pool.isDefinitelyA left .string || pool.isDefinitelyA right .string

/-- Strings and numbers are concatenated as they are, all else through `tostring`. -/
def concatOperand (pool : TypePool) (v : TypedValue) : Expr :=
  if pool.isDefinitelyA v.ty .string || pool.isDefinitelyA v.ty .number then v.expr
  else .call (.ident "tostring") [v.expr]

def bitOperation (member : String) (l r : TypedValue) : Expr :=
  .call (libraryMember "bit32" member) [l.expr, r.expr]

/-- An arithmetic operator on two values. -/
def arithmetic (pool : TypePool) (op : Source.ArithmeticOp) (l r : TypedValue) : Expr :=
  match op with
  | .add =>
    if isConcat pool l.ty r.ty then
      .arithmetic .concat (concatOperand pool l) (concatOperand pool r)
    else .arithmetic .add l.expr r.expr
  | .sub => .arithmetic .sub l.expr r.expr
  | .mul => .arithmetic .mul l.expr r.expr
  | .div => .arithmetic .div l.expr r.expr
  | .pow => .arithmetic .pow l.expr r.expr
  | .mod => .call (libraryMember "math" "fmod") [l.expr, r.expr]
  | .bitAnd => bitOperation "band" l r
  | .bitOr => bitOperation "bor" l r
  | .bitXor => bitOperation "bxor" l r
  | .shl => bitOperation "lshift" l r
  | .shr => bitOperation "arshift" l r
  | .ushr => bitOperation "rshift" l r

/-- The target's compound operator that means the same on these types, if any. -/
def nativeCompound? (pool : TypePool) (op : Source.ArithmeticOp) (target value : TypeId) :
    Option Target.ArithmeticOp :=
  match op with
  | .add => some (if isConcat pool target value then .concat else .add)
  | .sub => some .sub
  | .mul => some .mul
  | .div => some .div
  | .pow => some .pow
  | .mod | .bitAnd | .bitOr | .bitXor | .shl | .shr | .ushr => none

/-- `object[key] ~= nil`.  The target reads the object before the key, so the
key is bound first where the difference could be seen. -/
def membership (span : Span) (key object : Expr) : Lower Expr := do
  let key ←
    if (key.isSimple && object.isSimple) || object.isStable then pure key
    else pushTempIfUnstable "exp" span key
  return .binary .ne (.index object key) .nil

/-- A relational operator on two values. -/
def relation (op : Source.RelationOp) (span : Span) (l r : Expr) : Lower Expr :=
  match op with
  | .strictEq => pure (.binary .eq l r)
  | .strictNotEq => pure (.binary .ne l r)
  | .lt => pure (.binary .lt l r)
  | .le => pure (.binary .le l r)
  | .gt => pure (.binary .gt l r)
  | .ge => pure (.binary .ge l r)
  | .isIn => membership span l r
  | .instanceOf => do
    useHelper .runtime
    return .call (helperMember .runtime "instanceof") [l, r]

/-- Loose equality is reported and stands as a placeholder; its operands are not
looked at. -/
def looseEquality (op : Source.LooseOp) (span : Span) : Lower Expr := do
  match op with
  | .eq => report .looseEquals span "operator `==` is not supported, use `===` instead"
  | .notEq => report .looseNotEquals span "operator `!=` is not supported, use `!==` instead"
  return .placeholder

/-- The sum of an expression and a number, worked out for a literal. -/
def offset (e : Expr) (amount : Number) : Expr :=
  match e with
  | .number n => .number (n.add amount)
  | e => .arithmetic .add e (.number amount)

/-- The negation of an expression, worked out for a literal. -/
def negate : Expr → Expr
  | .number n => .number n.neg
  | e => .unary .neg e

/-- The index into a value of that type: arrays of the target start at one.  An
optional array counts as an array. -/
def shiftIndex (pool : TypePool) (object : TypeId) (index : Expr) : Expr :=
  if pool.isDefinitely object fun t => pool.has t .array || pool.has t .undefined then
    offset index .one
  else index

/-- The index of the element at a position counted from zero. -/
def oneBased (position : Nat) : Expr := .number ((Number.ofNat position).add .one)

/-! ## Lemmas -/

end ScriptLowering.Lower
