import ScriptLowering.Proofs.Source.Reads
import ScriptLowering.Proofs.Walk.Operations

/-!
# Walks over nodes

Lowering as it goes over the arena, without the trees: the kind of a node is
looked up where it matters, and the parts of a node are walked one level down.

    walker f (depth + 1) = step f (walker f depth)
-/

namespace ScriptLowering.Walk

open Lower (CallContext Place)
open Source (BinaryOp ListRange Node NodeInfo PropertyNode)
open Target (Expr)

/-- The walks over a node. -/
structure Walker where
  value : ExprId → Walk Expr
  place : ExprId → Walk Place
  /-- Assigns the parts of a pattern from the source. -/
  pattern : ExprId → Expr → SubType → Walk Unit

/-! ## Algorithm -/

section Algorithm

variable (f : NamedFile)

def infoOf (e : ExprId) (n : Node) : NodeInfo := ⟨n.span, f.types.typeOf e⟩

variable (w : Walker)

/-! ### Calls -/

/-- An operand of a call by its position: the arguments start at `first`, and the
operand at `last` may be spread. -/
def callOperand (first last k : Nat) (e : ExprId) : Walk Expr := do
  if k < first then w.value e
  else
    let n ← node f e
    match n.kind with
    | .spread inner =>
      if k = last then return .call (.ident "unpack") [← w.value inner]
      else fail (.misplacedSpread n.span)
    | _ =>
      checkNotAny f.types.pool (infoOf f e n)
      w.value e

/-- The receiver, if there is one, and the arguments. -/
def callOperands (receiver : Option ExprId) (args : List ExprId) : Walk (List Expr) :=
  let first := receiver.toList.length
  let ids := receiver.toList ++ args
  inOrder f (callOperand f w first (ids.length - 1)) ids

/-- A call that becomes an operator must not be a statement. -/
def checkOperator (ctx : CallContext) (rule : CallRule) (span : Span) (member : String) :
    Walk Unit :=
  match rule with
  | .operator _ className =>
    if ctx.discarded then fail (.mathStatement span className member) else pure ()
  | _ => pure ()

/-- How a property call passes its receiver, where its rule leaves that open. -/
def callStyle (rule : CallRule) (calleeTy : TypeId) (member : String) (span : Span) :
    Walk (Option Bool) :=
  match rule with
  | .generic => some <$> isMethodCall f.types.pool calleeTy member span
  | _ => pure none

/-- The code of a property call by its rule. -/
def writeCall (rule : CallRule) (isMethod : Option Bool) (span : Span) (object : ExprId)
    (member : String) (receiver : Expr) (args : List Expr) : Walk Expr := do
  match rule with
  | .helper h =>
    useHelper h
    let args ← if h = .object then pure args else insertAt 0 receiver args
    return .call (Lower.helperMember h member) args
  | .nativeString =>
    return .call (Lower.libraryMember "string" member) (← insertAt 0 receiver args)
  | .renamedMethod name => return .method receiver name args
  | .renamedField name => return .call (.property receiver name) args
  | .operator op _ => return .paren (.arithmetic op receiver (Lower.enclosed (args.getLastD .nil)))
  | .generic =>
    if isMethod = some true then
      let n ← node f object
      match n.kind with
      | .super =>
        let className ← superClass f.types.pool (f.types.typeOf object) span
        return .call (.property (.property (.ident className) "__index") member)
          (← insertAt 0 (.ident "self") args)
      | _ => return .method receiver member args
    else return .call (.property receiver member) args

/-- `object.member(args)` -/
def propertyCall (ctx : CallContext) (span : Span) (calleeTy : TypeId) (object : ExprId)
    (member : String) (args : List ExprId) : Walk Expr := do
  let family ← check (receiverFamily f.types.pool (f.types.typeOf object))
  readName f member
  let rule := CallRule.find family member args.length
  checkOperator ctx rule span member
  let isMethod ← callStyle f rule calleeTy member span
  let operands ← callOperands f w (some object) args
  let (receiver, args) ← removeAt 0 operands
  writeCall f rule isMethod span object member receiver args

/-- `super(args)` -/
def superCall (span : Span) (calleeTy : TypeId) (args : List ExprId) : Walk Expr := do
  let className ← superClass f.types.pool calleeTy span
  let args ← callOperands f w none args
  return .call (.property (.ident className) "constructor") (← insertAt 0 (.ident "self") args)

def plainCall (callee : ExprId) (args : List ExprId) : Walk Expr := do
  let operands ← callOperands f w (some callee) args
  let (callee, args) ← removeAt 0 operands
  return .call callee args

/-- A call in a context. -/
def call (ctx : CallContext) (info : NodeInfo) (callee : ExprId) (args : ListRange) :
    Walk Expr := do
  let n ← node f callee
  checkNotAny f.types.pool (infoOf f callee n)
  let args ← exprs f args
  let code ←
    match n.kind with
    | .property object member =>
      propertyCall f w ctx info.span (f.types.typeOf callee) object member args
    | .super => superCall f w info.span (f.types.typeOf callee) args
    | _ => plainCall f w callee args
  packReturn f.types.pool ctx info.ty code

/-! ### Operators -/

/-- Two nodes in order. -/
def pair (a b : ExprId) : Walk (Expr × Expr) := do
  pairOf (← inOrder f (fun _ => w.value) [a, b])

/-- An element access, its parts still apart. -/
def element (object index : ExprId) : Walk (Expr × Expr) := do
  let (o, i) ← pair f w object index
  return (o, ← check (shiftIndex f.types.pool (f.types.typeOf object) i))

def assignment (op : BinaryOp) (info : NodeInfo) (left right : ExprId) : Walk Expr := do
  let n ← node f left
  let rightTy := f.types.typeOf right
  if n.kind.isPattern then
    let value ← w.value right
    let source ← pushTemp "value" info.span value
    w.pattern left source (.single rightTy)
    return source
  else if op.isCompoundAssignment then
    compoundValue f op info.span (infoOf f left n) rightTy (w.place left) (w.value right)
  else assignValue n.span (w.place left) (w.value right)

def binary (info : NodeInfo) (op : BinaryOp) (left right : ExprId) : Walk Expr :=
  match op with
  | .loose op => looseEquality op info.span
  | .logical op =>
    shortCircuit f.types.pool op info.span (f.types.typeOf left) (w.value left) (w.value right)
  | op =>
    if op.isAssignment then assignment f w op info left right
    else do
      let (l, r) ← pair f w left right
      onValues f op info.span ⟨l, f.types.typeOf left⟩ ⟨r, f.types.typeOf right⟩

/-- An update as a value, read before or after it. -/
def update (op : Source.UpdateOp) (span : Span) (operand : ExprId) (isPrefix : Bool) :
    Walk Expr := do
  let place ← w.place operand
  let place ← pinPlace .repeated span place
  let result ←
    if isPrefix then pure place.toExpr else pushTemp "original" span place.toExpr
  emit (Lower.updateBy op place.toExpr)
  return result

def prefixed (info : NodeInfo) (op : Source.PrefixOp) (operand : ExprId) : Walk Expr := do
  match op with
  | .not =>
    let v ← w.value operand
    return .unary .not (← truthiness f.types.pool (f.types.typeOf operand) info.span v)
  | .neg => return Lower.negate (← w.value operand)
  | .plus => return .call (.ident "tonumber") [← w.value operand]
  | .bitNot =>
    let v ← w.value operand
    enterName f "bnot"
    return .call (Lower.libraryMember "bit32" "bnot") [v]
  | .update op => update w op info.span operand true

/-! ### Nodes -/

def valueOf (e : ExprId) (n : Node) : Walk Expr := do
  match n.kind with
  | .ident name => return .ident name
  | .this => return .ident "self"
  | .super => return .ident (← superClass f.types.pool (f.types.typeOf e) n.span)
  | .number n => return .number n
  | .string s => return .string s
  | .bool b => return .bool b
  | .undefined => return .nil
  | .error => return .placeholder
  | .paren inner => return .paren (← w.value inner)
  | .spread _ => fail (.misplacedSpread n.span)
  | .property object name => return .property (← w.value object) name
  | .element object index =>
    let (o, i) ← element f w object index
    return .index o i
  | .call callee args => call f w .value (infoOf f e n) callee args
  | .binary op left right => binary f w (infoOf f e n) op left right
  | .prefixed op operand => prefixed f w (infoOf f e n) op operand
  | .postfixed op operand => update w op n.span operand false
  | .array elements =>
    let ids ← exprs f elements
    let values ← inOrder f (fun _ => w.value) ids
    return .table (values.map .positional)
  | .object range =>
    let ps ← properties f range
    let values ← inOrder f (fun _ => w.value) (ps.map (·.value))
    return .table (List.zipWith .named (ps.map (·.name)) values)

def placeOf (e : ExprId) (n : Node) : Walk Place := do
  match n.kind with
  | .paren inner => w.place inner
  | .property object name => return .property (← w.value object) name
  | .element object index =>
    let (o, i) ← element f w object index
    return .index o i
  | _ => return .whole (← valueOf f w e n)

def assignPart (e : ExprId) (slot : Expr) (ty : SubType) (index : SubIndex) : Walk Unit := do
  let n ← node f e
  if n.kind.isPattern then
    let partTy ← ofFault (← check (subType f.types.pool ty index))
    let source ← pushTemp "value" n.span slot
    w.pattern e source partTy
  else if n.kind = .undefined then return ()
  else
    let place ← w.place e
    emit (.assign place.toExpr slot)

def assignElements : List ExprId → Nat → Expr → SubType → Walk Unit
  | [], _, _, _ => pure ()
  | e :: rest, position, source, ty => do
    assignPart f w e (.index source (Lower.oneBased position)) ty (.position position)
    assignElements rest (position + 1) source ty

def assignProperties : List PropertyNode → Expr → SubType → Walk Unit
  | [], _, _ => pure ()
  | p :: rest, source, ty => do
    assignPart f w p.value (.property source p.name) ty (.name p.name)
    assignProperties rest source ty

def patternOf (e : ExprId) (n : Node) (source : Expr) (ty : SubType) : Walk Unit := do
  match n.kind with
  | .array range =>
    let source ← indexableSource f.types.pool n.span ty source
    let ids ← exprs f range
    assignElements f w ids 0 source ty
  | .object range =>
    let ps ← properties f range
    assignProperties f w ps source ty
  | _ =>
    let place ← placeOf f w e n
    emit (.assign place.toExpr source)

/-- Walks a node whose parts are walked by `w`. -/
def step : Walker where
  value e := do valueOf f w e (← node f e)
  place e := do placeOf f w e (← node f e)
  pattern e source ty := do patternOf f w e (← node f e) source ty

/-- Walks nodes that are nested at most so deep. -/
def walker : Nat → Walker
  | 0 => ⟨fun _ => panic .depth, fun _ => panic .depth, fun _ _ _ => panic .depth⟩
  | depth + 1 => step f (walker depth)

end Algorithm

end ScriptLowering.Walk
