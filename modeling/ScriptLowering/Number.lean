/-!
# Numbers

A number is an IEEE 754 double held by its 64 bits.  Equality of the type tells
all bit patterns apart; `Number.same` is the equality of the numbers
themselves, where a NaN differs from itself and the two zeros agree.

    n.same n = !n.isNaN        (same_self)
    n.neg.neg = n              (neg_neg)
-/

namespace ScriptLowering

structure Number where
  bits : UInt64
  deriving DecidableEq

namespace Number

def ofFloat (x : Float) : Number := ⟨x.toBits⟩

def toFloat (n : Number) : Float := Float.ofBits n.bits

/-- The double nearest to a natural number. -/
def ofNat (n : Nat) : Number := ofFloat (Float.ofNat n)

def zero : Number := ⟨0⟩

def one : Number := ⟨0x3ff0000000000000⟩

/-- The sum rounded to the nearest double. -/
def add (a b : Number) : Number := ofFloat (a.toFloat + b.toFloat)

/-- The number with its sign bit flipped. -/
def neg (n : Number) : Number := ⟨n.bits ^^^ 0x8000000000000000⟩

/-- The bits without the sign. -/
def magnitude (n : Number) : UInt64 := n.bits &&& 0x7fffffffffffffff

def isNaN (n : Number) : Bool := 0x7ff0000000000000 < n.magnitude

def isZero (n : Number) : Bool := n.magnitude == 0

/-- Equality of numbers, not of bit patterns. -/
def same (a b : Number) : Bool :=
  !a.isNaN && !b.isNaN && (a == b || (a.isZero && b.isZero))

/-! ## Lemmas -/

@[simp] theorem same_self (n : Number) : n.same n = !n.isNaN := by simp [same]

theorem neg_neg (n : Number) : n.neg.neg = n := by
  unfold neg
  rw [UInt64.xor_assoc, UInt64.xor_self, UInt64.xor_zero]

end Number

end ScriptLowering
