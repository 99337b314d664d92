import ScriptLowering.Lowering.Monad

/-!
# Temporaries

Binding a value to a fresh temporary, always or only when the value asks for it.

    pushTemp hint span v n = ok (temp n), with the one statement local temp n = v    (pushTemp_apply)
-/

namespace ScriptLowering.Lower

open Target (Expr Stmt)

/-- Binds the value to a fresh temporary. -/
def pushTemp (hint : String) (span : Span) (value : Expr) : Lower Expr := do
  let id ← freshTemp ⟨hint, span⟩
  emit (.declareTemp id value)
  return .temp id

/-- Binds the value unless it may be written twice. -/
def pushTempIfComplex (hint : String) (span : Span) (value : Expr) : Lower Expr :=
  if value.isSimple then pure value else pushTemp hint span value

/-- Binds the value unless no statement can change what it reads. -/
def pushTempIfUnstable (hint : String) (span : Span) (value : Expr) : Lower Expr :=
  if value.isStable then pure value else pushTemp hint span value

/-! ## Lemmas -/

theorem pushTemp_apply (hint : String) (span : Span) (value : Expr) (n : Nat) :
    pushTemp hint span value n =
      (.ok (.temp n), ⟨[.declareTemp n value], [], [⟨hint, span⟩], .empty⟩) := rfl

theorem pushTempIfComplex_of_isSimple {value : Expr} (h : value.isSimple) (hint : String)
    (span : Span) : pushTempIfComplex hint span value = pure value := if_pos h

theorem pushTempIfUnstable_of_isStable {value : Expr} (h : value.isStable) (hint : String)
    (span : Span) : pushTempIfUnstable hint span value = pure value := if_pos h

end ScriptLowering.Lower
