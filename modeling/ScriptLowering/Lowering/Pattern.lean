import ScriptLowering.Lowering.Operator
import ScriptLowering.Source.Expr
import ScriptLowering.Types.SubType

/-!
# Patterns

Array and object literals as assignment targets.  The assigned value is bound
once; each part of the pattern is then assigned from its slot.  A part that is
itself a pattern has its slot bound first and goes on with the sub-type found
there.
-/

namespace ScriptLowering.Lower

open Target (Expr Stmt)

/-- The source of an array pattern can be indexed as it is. -/
def isIndexable (pool : TypePool) : SubType → Bool
  | .sequence _ => true
  | .single ty => pool.isDefinitely ty fun t => pool.has t .array || pool.has t .tupleReturn

/-- The source of an array pattern as an array; what is no array is converted. -/
def indexableSource (pool : TypePool) (span : Span) (ty : SubType) (source : Expr) : Lower Expr :=
  if isIndexable pool ty then pure source
  else do
    useHelper .array
    pushTemp "value" span (.call (helperMember .array "from") [source])

/-- Assigns one part of a pattern from its slot.  An `undefined` in the pattern
stands for a part left out.  `nested` destructures the part, `target` lowers it. -/
def assignPart (pool : TypePool) (part : Source.Expr) (nested : Expr → SubType → Lower Unit)
    (target : Lower Expr) (slot : Expr) (ty : SubType) (index : SubIndex) : Lower Unit :=
  if part.isPattern then do
    let partTy ← ofFault (pool.subType ty index)
    let source ← pushTemp "value" part.span slot
    nested source partTy
  else
    match part with
    | .undefined _ => pure ()
    | _ => do
      let t ← target
      emit (.assign t slot)

/-- `pattern = value` as a value: the temporary that holds the value. -/
def destructuring (span : Span) (valueTy : TypeId) (value : Lower Expr)
    (assign : Expr → SubType → Lower Unit) : Lower Expr := do
  let v ← value
  let source ← pushTemp "value" span v
  assign source (.single valueTy)
  return source

end ScriptLowering.Lower
