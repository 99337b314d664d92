import ScriptLowering.Number
import ScriptLowering.Types.Query

/-!
# Runtime values

Values as both languages have them.  They agree on what a value is and when two
are strictly equal; they differ in which values count as true.

    n is true in the source ↔ n ~= 0 and n == n in the target       (truthy_number)
    v is true in the source ↔ it passes the target's checks            (truthy_eq)
-/

namespace ScriptLowering

/-- Tables, functions and other objects are references. -/
inductive Value (Ref : Type) where
  | nil
  | bool (b : Bool)
  | number (n : Number)
  | string (s : String)
  | ref (r : Ref)
  deriving DecidableEq

namespace Value

variable {Ref : Type}

/-! ## Algorithm -/

/-- Strict equality: numbers by their value, references by identity. -/
def same [DecidableEq Ref] : Value Ref → Value Ref → Bool
  | nil, nil => true
  | bool a, bool b => a == b
  | number a, number b => a.same b
  | string a, string b => a == b
  | ref a, ref b => decide (a = b)
  | _, _ => false

/-- What a condition of the target lets pass. -/
def holds : Value Ref → Bool
  | nil => false
  | bool b => b
  | number _ | string _ | ref _ => true

/-- What counts as true in the source. -/
def truthy : Value Ref → Bool
  | nil => false
  | bool b => b
  | number n => !n.isNaN && !n.isZero
  | string s => s != ""
  | ref _ => true

def isNil : Value Ref → Bool
  | nil => true
  | _ => false

/-- A number or a string occurs only where the type allows one. -/
def AdmittedBy (v : Value Ref) (pool : TypePool) (ty : TypeId) : Prop :=
  match v with
  | number _ => pool.isPossiblyA ty .number
  | string _ => pool.isPossiblyA ty .string
  | nil | bool _ | ref _ => True

/-! ## Lemmas -/

theorem same_nil [DecidableEq Ref] (v : Value Ref) : v.same nil = v.isNil := by
  cases v <;> rfl

/-- The checks on a number are those that the source makes on it. -/
theorem truthy_number [DecidableEq Ref] (n : Number) :
    (number n : Value Ref).truthy =
      (!(number n : Value Ref).same (number .zero) && (number n : Value Ref).same (number n)) := by
  simp only [truthy, same, Number.same_self]
  have hz : Number.zero.isNaN = false := by decide
  have hzero : Number.zero.isZero = true := by decide
  simp only [Number.same, hz, hzero, Bool.not_false, Bool.and_true]
  by_cases h : n = .zero
  · subst h
    decide
  · have : (n == Number.zero) = false := by simpa using h
    simp only [this, Bool.false_or]
    cases n.isNaN <;> simp

/-- Truth in the source, by checks that the target can make. -/
theorem truthy_eq [DecidableEq Ref] (v : Value Ref) :
    v.truthy = (!v.same (number .zero) && v.same v && !v.same (string "") && v.holds) := by
  cases v with
  | number n =>
    have h : (number n : Value Ref).truthy = _ := truthy_number n
    simpa [same, holds] using h
  | string s => simp [truthy, same, holds, bne]
  | _ => simp [truthy, same, holds]

/-- Where no number is admitted the checks for one pass. -/
theorem AdmittedBy.numberChecks [DecidableEq Ref] {v : Value Ref} {pool : TypePool} {ty : TypeId}
    (h : v.AdmittedBy pool ty) (hty : pool.isPossiblyA ty .number = false) :
    (!v.same (number .zero) && v.same v) = true := by
  cases v with
  | number n => exact absurd h (by simp [AdmittedBy, hty])
  | _ => simp [same]

theorem AdmittedBy.stringChecks [DecidableEq Ref] {v : Value Ref} {pool : TypePool} {ty : TypeId}
    (h : v.AdmittedBy pool ty) (hty : pool.isPossiblyA ty .string = false) :
    (!v.same (string "")) = true := by
  cases v with
  | string s => exact absurd h (by simp [AdmittedBy, hty])
  | _ => rfl

end Value

end ScriptLowering
