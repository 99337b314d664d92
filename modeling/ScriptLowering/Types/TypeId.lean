/-!
# Type ids

A type is named by its place in the type pool.  The first seven places are
those of the primitive types.
-/

namespace ScriptLowering

structure TypeId where
  index : Nat
  deriving DecidableEq

namespace TypeId

def any : TypeId := ⟨0⟩
def unknown : TypeId := ⟨1⟩
def never : TypeId := ⟨2⟩
def undefined : TypeId := ⟨3⟩
def boolean : TypeId := ⟨4⟩
def number : TypeId := ⟨5⟩
def string : TypeId := ⟨6⟩

/-- How many ids the primitive types take. -/
def primitiveCount : Nat := 7

def isPrimitive (t : TypeId) : Bool := t.index < primitiveCount

/-- A primitive id is written by name, any other by its place. -/
def toText (t : TypeId) : String :=
  match t.index with
  | 0 => "TypeId::ANY"
  | 1 => "TypeId::UNKNOWN"
  | 2 => "TypeId::NEVER"
  | 3 => "TypeId::UNDEFINED"
  | 4 => "TypeId::BOOLEAN"
  | 5 => "TypeId::NUMBER"
  | 6 => "TypeId::STRING"
  | n => "TypeId(" ++ toString n ++ ")"

end TypeId

end ScriptLowering
