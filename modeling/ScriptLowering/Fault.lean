import ScriptLowering.Types.TypeId

/-!
# Faults

A fault is the breach of a promise that callers of the library make: an index
outside its store, a list longer than its range can say, or a sub-type asked for
at a place that the type does not have.  A fault is no diagnostic; it ends the
whole answer.
-/

namespace ScriptLowering

/-- The two kinds of list that an arena keeps. -/
inductive ListKind where
  | expressions
  | properties
  deriving DecidableEq

inductive Fault where
  | outOfBounds
  | listTooLong (kind : ListKind)
  | positionOutOfRange (position length : Nat)
  | nameInSequence
  | noProperty (ty : TypeId)
  | noElementType (ty : TypeId)
  | noTypeArguments (ty : TypeId)
  | noSubType (ty : TypeId) (position : Nat)
  deriving DecidableEq

def ListKind.noun : ListKind → String
  | .expressions => "expression list"
  | .properties => "property list"

/-- The text of a fault.  A missing property is not named. -/
def Fault.message : Fault → String
  | .outOfBounds => "out of bounds"
  | .listTooLong kind => kind.noun ++ " too long (exceeds u16::MAX)"
  | .positionOutOfRange position length =>
    "position " ++ toString position ++ " out of range for a " ++ toString length
      ++ "-element sequence"
  | .nameInSequence => "named sub-type requested from a type sequence"
  | .noProperty ty => "no declared property <name> on " ++ ty.toText
  | .noElementType ty => "array type " ++ ty.toText ++ " has no element type"
  | .noTypeArguments ty => ty.toText ++ " has no type arguments"
  | .noSubType ty position =>
    "no sub-type of " ++ ty.toText ++ " at position " ++ toString position

/-- Whether the fault comes from a question about a sub-type. -/
def Fault.isSubType : Fault → Bool
  | .outOfBounds | .listTooLong _ => false
  | .positionOutOfRange _ _ | .nameInSequence | .noProperty _ | .noElementType _
  | .noTypeArguments _ | .noSubType _ _ => true

end ScriptLowering
