import ScriptLowering.Lowering.Temporary

/-!
# Places

Every lowered expression is first a *reference*: a value, or a member access
whose parts are still apart, possibly in parentheses.  Read as a value it keeps
its parentheses; read as a *place* to write to it loses them.  A place that is
mentioned twice, or is mentioned after other statements ran, has its parts bound
to temporaries.

    (paren r).place = r.place                               (place_paren)
    r.place.toExpr.core = r.value.core                      (toExpr_place)
-/

namespace ScriptLowering.Lower

open Target (Expr Stmt)

/-- A location to write to, with its parts apart. -/
inductive Place where
  /-- An identifier, or what is no member access. -/
  | whole (e : Expr)
  | property (object : Expr) (name : String)
  | index (object index : Expr)

/-- A lowered expression that may still become a place. -/
inductive Reference where
  | plain (p : Place)
  | paren (inner : Reference)

/-- Why the parts of a place are bound. -/
inductive Pin where
  /-- The place is mentioned twice with nothing between. -/
  | repeated
  /-- Other statements run before the place is written. -/
  | reordered
  deriving DecidableEq

/-- How to write a location and, when it is read afterwards, how to read it. -/
structure WritableTarget where
  write : Expr
  read : Option Expr

/-! ## Algorithm -/

/-- The place as an expression. -/
def Place.toExpr : Place → Expr
  | .whole e => e
  | .property object name => .property object name
  | .index object i => .index object i

namespace Reference

def ofExpr (e : Expr) : Reference := plain (.whole e)

/-- The reference as a value. -/
def value : Reference → Expr
  | plain p => p.toExpr
  | paren inner => .paren inner.value

/-- The reference as a place. -/
def place : Reference → Place
  | plain p => p
  | paren inner => inner.place

end Reference

/-- The action's result as a value. -/
def asValue (x : Lower Reference) : Lower Expr := Reference.value <$> x

/-- The action's result as a place. -/
def asPlace (x : Lower Reference) : Lower Place := Reference.place <$> x

/-- The action's result as a place, written as an expression. -/
def asPlaceExpr (x : Lower Reference) : Lower Expr := (·.place.toExpr) <$> x

/-- A whole value as a reference. -/
def asReference (x : Lower Expr) : Lower Reference := Reference.ofExpr <$> x

/-- Binds one part of a place. -/
def pinPart (pin : Pin) (hint : String) (span : Span) (part : Expr) : Lower Expr :=
  match pin with
  | .repeated => pushTempIfComplex hint span part
  | .reordered => pushTempIfUnstable hint span part

/-- Binds the parts of a place, the object first. -/
def pinPlace (pin : Pin) (span : Span) : Place → Lower Place
  | .whole e => pure (.whole e)
  | .property object name => do
    let object ← pinPart pin "object" span object
    return .property object name
  | .index object index => do
    let object ← pinPart pin "object" span object
    let index ← pinPart pin "index" span index
    return .index object index

namespace WritableTarget

def ofPlace (p : Place) (readAfterWrite : Bool) : WritableTarget :=
  ⟨p.toExpr, if readAfterWrite then some p.toExpr else none⟩

/-- How to read the location. -/
def readable (t : WritableTarget) : Expr := t.read.getD t.write

end WritableTarget

/-- A place to write to; its parts are bound when it is read afterwards. -/
def writable (span : Span) (target : Lower Reference) (readAfterWrite : Bool) :
    Lower WritableTarget := do
  let p ← asPlace target
  let p ← if readAfterWrite then pinPlace .repeated span p else pure p
  return .ofPlace p readAfterWrite

/-! ## Lemmas -/

@[simp] theorem Reference.value_ofExpr (e : Expr) : (ofExpr e).value = e := rfl

@[simp] theorem Reference.place_paren (r : Reference) : (paren r).place = r.place := rfl

theorem Reference.toExpr_place (r : Reference) : r.place.toExpr.core = r.value.core := by
  induction r with
  | plain p => rfl
  | paren inner ih => simpa [value, Expr.core] using ih

theorem asValue_asReference (x : Lower Expr) : asValue (asReference x) = x := by
  simp [asValue, asReference]

/-- The two readings of a writable target are one expression. -/
theorem WritableTarget.readable_ofPlace (p : Place) (b : Bool) :
    (ofPlace p b).readable = (ofPlace p b).write := by
  cases b <;> rfl

end ScriptLowering.Lower
