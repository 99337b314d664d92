/-!
# Source operators

Binary operators fall into classes that are lowered apart: loose equality,
which is refused, short-circuit operators, assignments, and operators on two
values.  A compound assignment is named by the value operator it applies.
-/

namespace ScriptLowering.Source

/-- Operators on two values that also have a compound assignment. -/
inductive ArithmeticOp where
  | add
  | sub
  | mul
  | div
  | mod
  | pow
  | bitAnd
  | bitOr
  | bitXor
  | shl
  | shr
  | ushr
  deriving DecidableEq

/-- The other operators on two values. -/
inductive RelationOp where
  | strictEq
  | strictNotEq
  | lt
  | le
  | gt
  | ge
  | isIn
  | instanceOf
  deriving DecidableEq

/-- Equality with conversions. -/
inductive LooseOp where
  | eq
  | notEq
  deriving DecidableEq

/-- Operators that may leave the right operand out. -/
inductive LogicalOp where
  | and
  | or
  | coalesce
  deriving DecidableEq

inductive BinaryOp where
  | arithmetic (op : ArithmeticOp)
  | relation (op : RelationOp)
  | loose (op : LooseOp)
  | logical (op : LogicalOp)
  | assign
  /-- Assigns the result of the operator on the old value. -/
  | assignWith (op : ArithmeticOp)
  deriving DecidableEq

inductive UpdateOp where
  | increment
  | decrement
  deriving DecidableEq

inductive PrefixOp where
  | not
  | neg
  | plus
  | bitNot
  | update (op : UpdateOp)
  deriving DecidableEq

def ArithmeticOp.symbol : ArithmeticOp → String
  | .add => "+"
  | .sub => "-"
  | .mul => "*"
  | .div => "/"
  | .mod => "%"
  | .pow => "**"
  | .bitAnd => "&"
  | .bitOr => "|"
  | .bitXor => "^"
  | .shl => "<<"
  | .shr => ">>"
  | .ushr => ">>>"

def RelationOp.symbol : RelationOp → String
  | .strictEq => "==="
  | .strictNotEq => "!=="
  | .lt => "<"
  | .le => "<="
  | .gt => ">"
  | .ge => ">="
  | .isIn => "in"
  | .instanceOf => "instanceof"

def LooseOp.symbol : LooseOp → String
  | .eq => "=="
  | .notEq => "!="

def LogicalOp.symbol : LogicalOp → String
  | .and => "&&"
  | .or => "||"
  | .coalesce => "??"

def UpdateOp.symbol : UpdateOp → String
  | .increment => "++"
  | .decrement => "--"

namespace BinaryOp

def symbol : BinaryOp → String
  | arithmetic op => op.symbol
  | relation op => op.symbol
  | loose op => op.symbol
  | logical op => op.symbol
  | assign => "="
  | assignWith op => op.symbol ++ "="

/-- The operator that a compound assignment applies. -/
def compoundBase? : BinaryOp → Option ArithmeticOp
  | assignWith op => some op
  | arithmetic _ | relation _ | loose _ | logical _ | assign => none

def isCompoundAssignment (op : BinaryOp) : Bool := op.compoundBase?.isSome

def isAssignment (op : BinaryOp) : Bool := op == assign || op.isCompoundAssignment

def isLogical : BinaryOp → Bool
  | logical _ => true
  | arithmetic _ | relation _ | loose _ | assign | assignWith _ => false

end BinaryOp

def PrefixOp.update? : PrefixOp → Option UpdateOp
  | .update op => some op
  | .not | .neg | .plus | .bitNot => none

def ArithmeticOp.all : List ArithmeticOp :=
  [.add, .sub, .mul, .div, .mod, .pow, .bitAnd, .bitOr, .bitXor, .shl, .shr, .ushr]

def RelationOp.all : List RelationOp :=
  [.strictEq, .strictNotEq, .lt, .le, .gt, .ge, .isIn, .instanceOf]

def BinaryOp.all : List BinaryOp :=
  ArithmeticOp.all.map .arithmetic ++ RelationOp.all.map .relation
    ++ [.loose .eq, .loose .notEq] ++ [.logical .and, .logical .or, .logical .coalesce]
    ++ .assign :: ArithmeticOp.all.map .assignWith

def PrefixOp.symbol : PrefixOp → String
  | .not => "!"
  | .neg => "-"
  | .plus => "+"
  | .bitNot => "~"
  | .update op => op.symbol

/-- The operator written so. -/
def BinaryOp.ofSymbol? (symbol : String) : Option BinaryOp :=
  BinaryOp.all.find? (·.symbol == symbol)

/-! ## Lemmas -/

theorem BinaryOp.mem_all (op : BinaryOp) : op ∈ BinaryOp.all := by
  cases op with
  | arithmetic op => cases op <;> decide
  | relation op => cases op <;> decide
  | loose op => cases op <;> decide
  | logical op => cases op <;> decide
  | assign => decide
  | assignWith op => cases op <;> decide

/-- No two operators are written alike. -/
theorem BinaryOp.symbol_pairwise : (BinaryOp.all.map BinaryOp.symbol).Nodup := by decide

theorem BinaryOp.isAssignment_iff (op : BinaryOp) :
    op.isAssignment ↔ op = .assign ∨ ∃ base, op = .assignWith base := by
  cases op <;> simp [isAssignment, isCompoundAssignment, compoundBase?]

end ScriptLowering.Source
