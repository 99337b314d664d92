import ScriptLowering.Number
import ScriptLowering.Target.Operator

/-!
# Target expressions

The expression trees that lowering builds, and what can be said of one without
running it: a *simple* expression may be written twice, a *stable* one reads
nothing that a statement could change.

    e.isStable → e is a parenthesised placeholder, temporary or literal      (isStable_iff_core)
    e.same e ↔ no number in e is a NaN                                       (same_self_iff)
-/

namespace ScriptLowering.Target

mutual

inductive Expr where
  /-- What stands in for an expression that could not be lowered. -/
  | placeholder
  | ident (name : String)
  | temp (id : Nat)
  | nil
  | bool (value : Bool)
  | number (value : Number)
  | string (value : String)
  | binary (op : BinaryOp) (left right : Expr)
  | unary (op : UnaryOp) (operand : Expr)
  | paren (inner : Expr)
  | property (object : Expr) (name : String)
  | index (object index : Expr)
  | call (callee : Expr) (args : List Expr)
  | method (receiver : Expr) (name : String) (args : List Expr)
  | table (fields : List Field)
  /-- All values of a call gathered into one table. -/
  | pack (call : Expr)

inductive Field where
  | positional (value : Expr)
  | named (name : String) (value : Expr)

end

namespace Expr

/-! ## Algorithm -/

def isIdentifier : Expr → Bool
  | ident _ | temp _ | placeholder => true
  | _ => false

/-- A literal. -/
def isPrimitive : Expr → Bool
  | nil | bool _ | number _ | string _ => true
  | _ => false

/-- Writing the expression twice is harmless. -/
def isSimple (e : Expr) : Bool := e.isIdentifier || e.isPrimitive

/-- No statement can change what the expression reads. -/
def isStable : Expr → Bool
  | paren inner => inner.isStable
  | temp _ | placeholder => true
  | e => e.isPrimitive

def isCall : Expr → Bool
  | call _ _ | method _ _ _ => true
  | _ => false

def isBinary : Expr → Bool
  | binary _ _ _ => true
  | _ => false

/-- An arithmetic operator on two expressions. -/
def arithmetic (op : ArithmeticOp) (left right : Expr) : Expr := binary (.arithmetic op) left right

mutual

/-- Equality of expressions, numbers compared as numbers. -/
def same : Expr → Expr → Bool
  | placeholder, placeholder => true
  | ident a, ident b => a == b
  | temp a, temp b => a == b
  | nil, nil => true
  | bool a, bool b => a == b
  | number a, number b => a.same b
  | string a, string b => a == b
  | binary o a b, binary o' a' b' => o == o' && same a a' && same b b'
  | unary o a, unary o' a' => o == o' && same a a'
  | paren a, paren a' => same a a'
  | property a n, property a' n' => same a a' && n == n'
  | index a b, index a' b' => same a a' && same b b'
  | call f xs, call f' xs' => same f f' && sameList xs xs'
  | method r n xs, method r' n' xs' => same r r' && n == n' && sameList xs xs'
  | table fs, table fs' => sameFields fs fs'
  | pack a, pack a' => same a a'
  | _, _ => false

def sameList : List Expr → List Expr → Bool
  | [], [] => true
  | a :: as, b :: bs => same a b && sameList as bs
  | _, _ => false

def sameField : Field → Field → Bool
  | .positional a, .positional b => same a b
  | .named n a, .named m b => n == m && same a b
  | _, _ => false

def sameFields : List Field → List Field → Bool
  | [], [] => true
  | a :: as, b :: bs => sameField a b && sameFields as bs
  | _, _ => false

end

mutual

/-- The numbers written in the expression. -/
def numbers : Expr → List Number
  | number n => [n]
  | placeholder | ident _ | temp _ | nil | bool _ | string _ => []
  | binary _ a b | index a b => numbers a ++ numbers b
  | unary _ a | paren a | property a _ | pack a => numbers a
  | call f xs => numbers f ++ numbersList xs
  | method r _ xs => numbers r ++ numbersList xs
  | table fs => numbersFields fs

def numbersList : List Expr → List Number
  | [] => []
  | e :: es => numbers e ++ numbersList es

def numbersField : Field → List Number
  | .positional e | .named _ e => numbers e

def numbersFields : List Field → List Number
  | [] => []
  | f :: fs => numbersField f ++ numbersFields fs

end

/-- The expression without the parentheses around it. -/
def core : Expr → Expr
  | paren inner => inner.core
  | e => e

/-! ## Lemmas -/

theorem isStable_iff_core (e : Expr) :
    e.isStable ↔ e.core = .placeholder ∨ (∃ n, e.core = .temp n) ∨ e.core.isPrimitive := by
  fun_induction isStable e <;> simp_all [core, isPrimitive]

mutual

theorem same_self_iff : ∀ e : Expr, e.same e ↔ ∀ n ∈ e.numbers, n.isNaN = false
  | placeholder | ident _ | temp _ | nil | bool _ | string _ | number _ => by simp [same, numbers]
  | binary _ a b | index a b => by
    simp [same, numbers, same_self_iff a, same_self_iff b, or_imp, forall_and]
  | unary _ a | paren a | property a _ | pack a => by
    simp [same, numbers, same_self_iff a]
  | call f xs => by
    simp [same, numbers, same_self_iff f, sameList_self_iff xs, or_imp, forall_and]
  | method r _ xs => by
    simp [same, numbers, same_self_iff r, sameList_self_iff xs, or_imp, forall_and]
  | table fs => by simp [same, numbers, sameFields_self_iff fs]

theorem sameList_self_iff : ∀ es : List Expr,
    sameList es es ↔ ∀ n ∈ numbersList es, n.isNaN = false
  | [] => by simp [sameList, numbersList]
  | e :: es => by
    simp [sameList, numbersList, same_self_iff e, sameList_self_iff es, or_imp, forall_and]

theorem sameField_self_iff : ∀ f : Field,
    sameField f f ↔ ∀ n ∈ numbersField f, n.isNaN = false
  | .positional e | .named _ e => by simp [sameField, numbersField, same_self_iff e]

theorem sameFields_self_iff : ∀ fs : List Field,
    sameFields fs fs ↔ ∀ n ∈ numbersFields fs, n.isNaN = false
  | [] => by simp [sameFields, numbersFields]
  | f :: fs => by
    simp [sameFields, numbersFields, sameField_self_iff f, sameFields_self_iff fs, or_imp,
      forall_and]

end

theorem isSimple_of_isIdentifier {e : Expr} (h : e.isIdentifier) : e.isSimple := by
  simp [isSimple, h]

end Expr

end ScriptLowering.Target
