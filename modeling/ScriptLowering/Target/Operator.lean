/-!
# Target operators

The arithmetic operators of the target are those that it also has as compound
assignments.
-/

namespace ScriptLowering.Target

inductive ArithmeticOp where
  | add
  | sub
  | mul
  | div
  | mod
  | pow
  | concat
  deriving DecidableEq

inductive BinaryOp where
  | arithmetic (op : ArithmeticOp)
  | eq
  | ne
  | lt
  | le
  | gt
  | ge
  | and
  | or
  deriving DecidableEq

inductive UnaryOp where
  | not
  | neg
  | len
  deriving DecidableEq

def ArithmeticOp.symbol : ArithmeticOp → String
  | .add => "+"
  | .sub => "-"
  | .mul => "*"
  | .div => "/"
  | .mod => "%"
  | .pow => "^"
  | .concat => ".."

/-- The operator as a compound assignment. -/
def ArithmeticOp.assignSymbol (op : ArithmeticOp) : String := op.symbol ++ "="

def BinaryOp.symbol : BinaryOp → String
  | .arithmetic op => op.symbol
  | .eq => "=="
  | .ne => "~="
  | .lt => "<"
  | .le => "<="
  | .gt => ">"
  | .ge => ">="
  | .and => "and"
  | .or => "or"

/-- The operator to use in a compound assignment, if there is one. -/
def BinaryOp.compound? : BinaryOp → Option ArithmeticOp
  | .arithmetic op => some op
  | .eq | .ne | .lt | .le | .gt | .ge | .and | .or => none

/-- The word operator keeps the space that parts it from its operand. -/
def UnaryOp.symbol : UnaryOp → String
  | .not => "not "
  | .neg => "-"
  | .len => "#"

def ArithmeticOp.all : List ArithmeticOp := [.add, .sub, .mul, .div, .mod, .pow, .concat]

def BinaryOp.all : List BinaryOp :=
  ArithmeticOp.all.map .arithmetic ++ [.eq, .ne, .lt, .le, .gt, .ge, .and, .or]

def ArithmeticOp.ofAssignSymbol? (symbol : String) : Option ArithmeticOp :=
  ArithmeticOp.all.find? (·.assignSymbol == symbol)

def BinaryOp.ofSymbol? (symbol : String) : Option BinaryOp :=
  BinaryOp.all.find? (·.symbol == symbol)

end ScriptLowering.Target
