/-!
# Kinds of diagnostic

Each kind has a code and belongs to one phase: the checks before lowering, the
recoverable findings of lowering, or the hard errors that end it.  Kinds are
ordered as they are declared, which is the order of their codes.
-/

namespace ScriptLowering

inductive DiagnosticKind where
  | nonModule
  | badFileName
  | looseEquals
  | looseNotEquals
  | anyValue
  | mixedCall
  | mathStatement
  | notPropertyCall
  | unresolvedCallee
  | misplacedSpread
  deriving DecidableEq

/-- When a diagnostic arises. -/
inductive Phase where
  | check
  | recoverable
  | hard
  deriving DecidableEq

namespace DiagnosticKind

def code : DiagnosticKind → String
  | nonModule => "E0001"
  | badFileName => "E0002"
  | looseEquals => "E1001"
  | looseNotEquals => "E1002"
  | anyValue => "E1003"
  | mixedCall => "E2001"
  | mathStatement => "E2002"
  | notPropertyCall => "E2003"
  | unresolvedCallee => "E2004"
  | misplacedSpread => "E2005"

def phase : DiagnosticKind → Phase
  | nonModule | badFileName => .check
  | looseEquals | looseNotEquals | anyValue => .recoverable
  | mixedCall | mathStatement | notPropertyCall
  | unresolvedCallee | misplacedSpread => .hard

/-- Reported by the checks that run before lowering. -/
def isPreEmit (k : DiagnosticKind) : Bool := k.phase == .check

/-- Reported when lowering is abandoned. -/
def isHard (k : DiagnosticKind) : Bool := k.phase == .hard

/-- The kinds in order of declaration, equal kinds side by side. -/
def sort (ks : List DiagnosticKind) : List DiagnosticKind :=
  ks.mergeSort fun a b => a.ctorIdx ≤ b.ctorIdx

/-! ## Lemmas -/

theorem code_injective (a b : DiagnosticKind) (h : a.code = b.code) : a = b := by
  revert h
  cases a <;> cases b <;> decide

theorem sort_perm (ks : List DiagnosticKind) : (sort ks).Perm ks := List.mergeSort_perm ks _

end DiagnosticKind

end ScriptLowering
