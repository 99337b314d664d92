import ScriptLowering.Diagnostic.Basic

/-!
# Hard errors

A hard error ends the lowering of a file.  It becomes an error diagnostic of a
hard kind at its span.
-/

namespace ScriptLowering

inductive LowerError where
  /-- The signatures of a callee disagree on how to pass the receiver. -/
  | mixedCall (span : Span)
  /-- A call that lowers to an operator stands as a statement. -/
  | mathStatement (span : Span) (className member : String)
  | notPropertyCall (span : Span)
  | unresolvedCallee (span : Span) (callee : String)
  | misplacedSpread (span : Span)
  deriving DecidableEq

namespace LowerError

def span : LowerError → Span
  | mixedCall s | mathStatement s _ _ | notPropertyCall s | unresolvedCallee s _
  | misplacedSpread s => s

def kind : LowerError → DiagnosticKind
  | mixedCall _ => .mixedCall
  | mathStatement _ _ _ => .mathStatement
  | notPropertyCall _ => .notPropertyCall
  | unresolvedCallee _ _ => .unresolvedCallee
  | misplacedSpread _ => .misplacedSpread

def message : LowerError → String
  | mixedCall _ =>
    "attempted to call a function with mixed types, "
      ++ "all definitions must either be a method or a callback"
  | mathStatement _ className member =>
    "`" ++ className ++ "." ++ member ++ "()` cannot be an expression statement"
  | notPropertyCall _ => "expected a property access expression as the callee"
  | unresolvedCallee _ callee =>
    "cannot resolve how to call `" ++ callee ++ "`: no lowering rule and no call signatures"
  | misplacedSpread _ => "spread is only supported as the final call argument"

def toDiagnostic (e : LowerError) : Diagnostic := .error e.kind e.span e.message

/-! ## Lemmas -/

theorem isHard_kind (e : LowerError) : e.kind.isHard := by cases e <;> rfl

@[simp] theorem isError_toDiagnostic (e : LowerError) : e.toDiagnostic.isError := rfl

end LowerError

end ScriptLowering
