import ScriptLowering.Lowering.Assignment
import ScriptLowering.Lowering.Call.Form
import ScriptLowering.Lowering.Pattern
import ScriptLowering.Lowering.Truth

/-!
# Lowering of expressions

One recursion over the source tree.  Each node is lowered to a reference, from
which its value or its place is read; patterns and lists of operands are walked
beside it.  What a node does with its lowered parts is said by the operations
of the other modules.

    value (f(args)) = call .value (f(args))                    (value_call)
    operands es = es.map (span and value)                      (operands_eq_map)
-/

namespace ScriptLowering.Lower

open Target (Expr Stmt)

/-! ## Algorithm -/

mutual

/-- The lowered node, its parts still apart. -/
def reference (pool : TypePool) : Source.Expr → Lower Reference
  | .ident _ name => pure (.ofExpr (.ident name))
  | .this _ => pure (.ofExpr (.ident "self"))
  | .super info => asReference (.ident <$> ofError (superClass pool info.ty info.span))
  | .number _ n => pure (.ofExpr (.number n))
  | .string _ s => pure (.ofExpr (.string s))
  | .bool _ b => pure (.ofExpr (.bool b))
  | .undefined _ => pure (.ofExpr .nil)
  | .error _ => pure (.ofExpr .placeholder)
  | .paren _ inner => Reference.paren <$> reference pool inner
  | .spread info _ => fail (.misplacedSpread info.span)
  | .property _ object name => do
    let o ← asValue (reference pool object)
    return .plain (.property o name)
  | .element _ object index => do
    let (o, i) ← inOrderPair ⟨object.span, asValue (reference pool object)⟩
      ⟨index.span, asValue (reference pool index)⟩
    return .plain (.index o (shiftIndex pool object.ty i))
  | .call info callee args =>
    asReference <|
      match callee with
      | .property calleeInfo object member =>
        propertyCall pool .value info calleeInfo object member (asValue (reference pool object))
          (arguments pool args)
      | .super calleeInfo => superCall pool .value info calleeInfo (arguments pool args)
      | callee =>
        plainCall pool .value info callee.info (asValue (reference pool callee))
          (arguments pool args)
  | .binary info op left right =>
    asReference <|
      match op with
      | .loose op => looseEquality op info.span
      | .logical op =>
        shortCircuit pool op info.span left.ty (asValue (reference pool left))
          (asValue (reference pool right))
      | .assign =>
        if left.isPattern then
          destructuring info.span right.ty (asValue (reference pool right))
            fun source ty => destructure pool left source ty
        else assignValue left.span (reference pool left) (asValue (reference pool right))
      | .assignWith op =>
        if left.isPattern then
          destructuring info.span right.ty (asValue (reference pool right))
            fun source ty => destructure pool left source ty
        else
          compoundValue pool op left.info right.ty (reference pool left)
            (asValue (reference pool right))
      | .arithmetic op => do
        let (l, r) ← inOrderPair ⟨left.span, asValue (reference pool left)⟩
          ⟨right.span, asValue (reference pool right)⟩
        return arithmetic pool op ⟨l, left.ty⟩ ⟨r, right.ty⟩
      | .relation op => do
        let (l, r) ← inOrderPair ⟨left.span, asValue (reference pool left)⟩
          ⟨right.span, asValue (reference pool right)⟩
        relation op info.span l r
  | .prefixed info op operand =>
    asReference <|
      match op with
      | .not => do
        let v ← asValue (reference pool operand)
        return .unary .not (← truthiness pool operand.ty info.span v)
      | .neg => negate <$> asValue (reference pool operand)
      | .plus => do
        let v ← asValue (reference pool operand)
        return .call (.ident "tonumber") [v]
      | .bitNot => do
        let v ← asValue (reference pool operand)
        return .call (libraryMember "bit32" "bnot") [v]
      | .update op => updateBefore op info.span (reference pool operand)
  | .postfixed info op operand => asReference (updateAfter op info.span (reference pool operand))
  | .array _ elements => do
    let values ← inOrder (operands pool elements)
    return .ofExpr (.table (values.map .positional))
  | .object _ properties => do
    let values ← inOrder (propertyOperands pool properties)
    return .ofExpr (.table (List.zipWith .named (properties.map (·.1)) values))
termination_by structural e => e

/-- Assigns the parts of a pattern from the source; what is no pattern has none. -/
def destructure (pool : TypePool) : Source.Expr → Expr → SubType → Lower Unit
  | .array info elements, source, ty => do
    let source ← indexableSource pool info.span ty source
    assignElements pool elements 0 source ty
  | .object _ properties, source, ty => assignProperties pool properties source ty
  | _, _, _ => pure ()
termination_by structural e => e

/-- Assigns the elements of an array pattern from the position on. -/
def assignElements (pool : TypePool) : List Source.Expr → Nat → Expr → SubType → Lower Unit
  | [], _, _, _ => pure ()
  | e :: rest, position, source, ty => do
    assignPart pool e (fun source ty => destructure pool e source ty)
      (asPlaceExpr (reference pool e)) (.index source (oneBased position)) ty (.position position)
    assignElements pool rest (position + 1) source ty
termination_by structural es => es

/-- Assigns the properties of an object pattern. -/
def assignProperties (pool : TypePool) :
    List (String × Source.Expr) → Expr → SubType → Lower Unit
  | [], _, _ => pure ()
  | (name, e) :: rest, source, ty => do
    assignPart pool e (fun source ty => destructure pool e source ty)
      (asPlaceExpr (reference pool e)) (.property source name) ty (.name name)
    assignProperties pool rest source ty
termination_by structural ps => ps

/-- Expressions as operands. -/
def operands (pool : TypePool) : List Source.Expr → List Operand
  | [] => []
  | e :: rest => ⟨e.span, asValue (reference pool e)⟩ :: operands pool rest
termination_by structural es => es

/-- The values of properties as operands. -/
def propertyOperands (pool : TypePool) : List (String × Source.Expr) → List Operand
  | [] => []
  | (_, e) :: rest => ⟨e.span, asValue (reference pool e)⟩ :: propertyOperands pool rest
termination_by structural ps => ps

/-- The arguments of a call as operands. -/
def arguments (pool : TypePool) : List Source.Expr → List Operand
  | [] => []
  | .spread info inner :: rest =>
    spreadArgument info rest.isEmpty (asValue (reference pool inner)) :: arguments pool rest
  | e :: rest => argument pool e.info (asValue (reference pool e)) :: arguments pool rest
termination_by structural es => es

end

/-- The value of an expression; its statements are in the effects. -/
def value (pool : TypePool) (e : Source.Expr) : Lower Expr := asValue (reference pool e)

/-- A call in a context; what is no call is lowered as a value. -/
def call (pool : TypePool) (ctx : CallContext) : Source.Expr → Lower Expr
  | .call info (.property calleeInfo object member) args =>
    propertyCall pool ctx info calleeInfo object member (value pool object) (arguments pool args)
  | .call info (.super calleeInfo) args => superCall pool ctx info calleeInfo (arguments pool args)
  | .call info callee args =>
    plainCall pool ctx info callee.info (value pool callee) (arguments pool args)
  | e => value pool e

/-- A call of a property in a context; anything else is a hard error. -/
def propertyCallOnly (pool : TypePool) (ctx : CallContext) : Source.Expr → Lower Expr
  | .call info (.property calleeInfo object member) args =>
    propertyCall pool ctx info calleeInfo object member (value pool object) (arguments pool args)
  | .call _ callee _ => fail (.notPropertyCall callee.span)
  | e => fail (.notPropertyCall e.span)

/-- The value of an expression with the statements to run before it. -/
def expression (pool : TypePool) (e : Source.Expr) : Lower (Expr × List Stmt) :=
  (value pool e).capture

/-- A writable location with the statements to run before it is used. -/
def writableTarget (pool : TypePool) (e : Source.Expr) (readAfterWrite : Bool) :
    Lower (WritableTarget × List Stmt) :=
  (writable e.span (reference pool e) readAfterWrite).capture

/-! ## Lemmas -/

theorem length_arguments (pool : TypePool) (es : List Source.Expr) :
    (arguments pool es).length = es.length := by
  induction es with
  | nil => rfl
  | cons e rest ih => cases e <;> simp [arguments, ih]

theorem operands_eq_map (pool : TypePool) (es : List Source.Expr) :
    operands pool es = es.map fun e => ⟨e.span, value pool e⟩ := by
  induction es with
  | nil => rfl
  | cons e rest ih => simp [operands, ih, value]

theorem propertyOperands_eq_map (pool : TypePool) (ps : List (String × Source.Expr)) :
    propertyOperands pool ps = ps.map fun p => ⟨p.2.span, value pool p.2⟩ := by
  induction ps with
  | nil => rfl
  | cons p rest ih => simp [propertyOperands, ih, value]

/-- As a value a call is lowered in the value context. -/
theorem value_call (pool : TypePool) (info : Source.NodeInfo) (callee : Source.Expr)
    (args : List Source.Expr) :
    value pool (.call info callee args) = call pool .value (.call info callee args) := by
  cases callee <;> simp [value, reference, call, asValue_asReference]

end ScriptLowering.Lower
