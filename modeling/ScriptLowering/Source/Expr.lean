import ScriptLowering.Number
import ScriptLowering.Source.Operator
import ScriptLowering.Span
import ScriptLowering.Types.TypeId

/-!
# Source expressions

Expressions as trees.  Each node carries its span and its recorded type, so that
lowering needs nothing but the tree and the type pool.
-/

namespace ScriptLowering.Source

/-- What every node carries. -/
structure NodeInfo where
  span : Span
  ty : TypeId
  deriving DecidableEq

inductive Expr where
  | ident (info : NodeInfo) (name : String)
  | this (info : NodeInfo)
  | super (info : NodeInfo)
  | number (info : NodeInfo) (value : Number)
  | string (info : NodeInfo) (value : String)
  | bool (info : NodeInfo) (value : Bool)
  | undefined (info : NodeInfo)
  /-- A place where no expression could be read. -/
  | error (info : NodeInfo)
  | paren (info : NodeInfo) (inner : Expr)
  | spread (info : NodeInfo) (inner : Expr)
  | property (info : NodeInfo) (object : Expr) (name : String)
  | element (info : NodeInfo) (object index : Expr)
  | call (info : NodeInfo) (callee : Expr) (args : List Expr)
  | binary (info : NodeInfo) (op : BinaryOp) (left right : Expr)
  | prefixed (info : NodeInfo) (op : PrefixOp) (operand : Expr)
  | postfixed (info : NodeInfo) (op : UpdateOp) (operand : Expr)
  | array (info : NodeInfo) (elements : List Expr)
  | object (info : NodeInfo) (properties : List (String × Expr))

namespace Expr

def info : Expr → NodeInfo
  | ident i _ | this i | super i | number i _ | string i _ | bool i _ | undefined i | error i
  | paren i _ | spread i _ | property i _ _ | element i _ _ | call i _ _ | binary i _ _ _
  | prefixed i _ _ | postfixed i _ _ | array i _ | object i _ => i

def span (e : Expr) : Span := e.info.span

def ty (e : Expr) : TypeId := e.info.ty

/-- An array or object literal; as an assignment target it is a pattern. -/
def isPattern : Expr → Bool
  | array _ _ | object _ _ => true
  | _ => false

/-- The direct parts, in order. -/
def children : Expr → List Expr
  | ident _ _ | this _ | super _ | number _ _ | string _ _ | bool _ _ | undefined _ | error _ => []
  | paren _ e | spread _ e | property _ e _ | prefixed _ _ e | postfixed _ _ e => [e]
  | element _ a b | binary _ _ a b => [a, b]
  | call _ f args => f :: args
  | array _ es => es
  | object _ ps => ps.map (·.2)

end Expr

end ScriptLowering.Source
