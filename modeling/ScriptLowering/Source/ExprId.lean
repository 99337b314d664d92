/-!
# Expression ids

The place of a node in its arena.  One id is kept apart for no node at all.
-/

namespace ScriptLowering

structure ExprId where
  index : Nat
  deriving DecidableEq

namespace ExprId

/-- The id of no node. -/
def invalid : ExprId := ⟨0xffffffff⟩

def isValid (e : ExprId) : Bool := e != invalid

/-- A valid id is written by its place. -/
def toText (e : ExprId) : String :=
  if e.isValid then "e" ++ toString e.index else "e<none>"

end ExprId

end ScriptLowering
