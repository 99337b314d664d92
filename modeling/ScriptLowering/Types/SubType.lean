import ScriptLowering.Fault
import ScriptLowering.Types.Query

/-!
# Sub-types

The type found at one step into a destructured value.  An object step asks for
a declared property; an array step asks, through any multi-value returns, for an
element.  A step that no rule covers is a fault.
-/

namespace ScriptLowering

/-- One type, or the types of the elements of a sequence. -/
inductive SubType where
  | single (ty : TypeId)
  | sequence (elements : List TypeId)
  deriving DecidableEq

/-- One step into a value; positions count from zero. -/
inductive SubIndex where
  | name (name : String)
  | position (i : Nat)
  deriving DecidableEq

namespace TypePool

/-- The type under at most `depth` multi-value returns. -/
def stripReturns (p : TypePool) : Nat → TypeId → TypeId
  | 0, t => t
  | depth + 1, t =>
    match p.returnInner? t with
    | some inner => p.stripReturns depth inner
    | none => t

/-- The type that a multi-value return finally wraps: each wrapper has a greater
id than what it wraps, so there are no more of them than the id says. -/
def returned (p : TypePool) (t : TypeId) : TypeId := p.stripReturns t.index t

/-- The element of a sequence. -/
def elementAt (elements : List TypeId) (i : Nat) : Except Fault SubType :=
  match elements[i]? with
  | some t => .ok (.single t)
  | none => .error (.positionOutOfRange i elements.length)

def firstArgument (p : TypePool) (t : TypeId) : Except Fault SubType :=
  match p.typeArguments t with
  | arg :: _ => .ok (.single arg)
  | [] => .error (.noTypeArguments t)

/-- The element at a position of a type that is no multi-value return. -/
def positionType (p : TypePool) (t : TypeId) (i : Nat) : Except Fault SubType :=
  if p.isDefinitelyA t .array then
    if p.has t .tuple then elementAt (p.typeArguments t) i
    else
      match p.elementType? t with
      | some element => .ok (.single element)
      | none => .error (.noElementType t)
  else if p.isDefinitelyA t .string then .ok (.single t)
  else if p.isDefinitelyA t .set then p.firstArgument t
  else if p.isDefinitelyA t .map then .ok (.sequence (p.typeArguments t))
  else if p.isDefinitelyA t .generator then p.firstArgument t
  else .error (.noSubType t i)

/-- The sub-type one step into the type. -/
def subType (p : TypePool) : SubType → SubIndex → Except Fault SubType
  | .sequence elements, .position i => elementAt elements i
  | .sequence _, .name _ => .error .nameInSequence
  | .single t, .name name =>
    match p.propertyType? t name with
    | some property => .ok (.single property)
    | none => .error (.noProperty t)
  | .single t, .position i => p.positionType (p.returned t) i

/-! ## Lemmas -/

theorem elementAt_isSubType {elements : List TypeId} {i : Nat} {f : Fault}
    (h : elementAt elements i = .error f) : f.isSubType := by
  unfold elementAt at h
  split at h <;> cases h
  rfl

theorem firstArgument_isSubType {p : TypePool} {t : TypeId} {f : Fault}
    (h : p.firstArgument t = .error f) : f.isSubType := by
  unfold firstArgument at h
  split at h <;> cases h
  rfl

theorem positionType_isSubType {p : TypePool} {t : TypeId} {i : Nat} {f : Fault}
    (h : p.positionType t i = .error f) : f.isSubType := by
  unfold positionType at h
  split at h
  · split at h
    · exact elementAt_isSubType h
    · split at h <;> cases h
      rfl
  · split at h
    · cases h
    · split at h
      · exact firstArgument_isSubType h
      · split at h
        · cases h
        · split at h
          · exact firstArgument_isSubType h
          · cases h
            rfl

/-- The faults of sub-type extraction are all its own. -/
theorem subType_isSubType {p : TypePool} {ty : SubType} {index : SubIndex} {f : Fault}
    (h : p.subType ty index = .error f) : f.isSubType := by
  cases ty <;> cases index <;> simp only [subType] at h
  · split at h <;> cases h
    rfl
  · exact positionType_isSubType h
  · cases h
    rfl
  · exact elementAt_isSubType h

end TypePool

end ScriptLowering
