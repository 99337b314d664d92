import ScriptLowering.Lowering.Assignment
import ScriptLowering.Lowering.Call.Form
import ScriptLowering.Lowering.Pattern
import ScriptLowering.Lowering.Truth
import ScriptLowering.Proofs.Walk.Names
import ScriptLowering.Proofs.Walk.Questions

/-!
# Operations of a walk

What a walk does with the parts that it has walked.  Operands come as one list:
an operator wants two values of it, a call takes its receiver off the front and
may put it back there, and any operator can be asked for its form on two values.
On parts that do not panic, in a well-formed pool, each operation is the one of
lowering.

    ids lowered as xs → inOrder ids = lift (inOrder xs)       (inOrder_eq)
    an operator that has a form → onValues = its form           (onValues_arithmetic, onValues_relation)
    shortCircuit (lift l) (lift r) = lift (shortCircuit l r)    (shortCircuit_eq)
-/

namespace ScriptLowering.Walk

open Lower (CallContext Captured Operand Pin Place Reference TypedValue WritableTarget)
open Source (ArithmeticOp BinaryOp NodeInfo)
open Target (Expr Stmt)

/-! ## Algorithm -/

/-! ### Lists -/

/-- What an arena answers; it has no other fault than a bad index. -/
def indexed {α : Type} : Except Fault α → Walk α
  | .ok a => pure a
  | .error _ => panic .index

/-- The two values of an operator. -/
def pairOf : List Expr → Walk (Expr × Expr)
  | a :: b :: _ => pure (a, b)
  | _ => panic .operands

/-- Takes the element at the position out of the list. -/
def removeAt (i : Nat) (xs : List Expr) : Walk (Expr × List Expr) :=
  match xs[i]? with
  | some x => pure (x, xs.eraseIdx i)
  | none => panic .receiver

/-- Puts the element at the position, moving up those from there on. -/
def insertAt (i : Nat) (x : Expr) (xs : List Expr) : Walk (List Expr) :=
  if i ≤ xs.length then pure (xs.insertIdx i x) else panic .receiver

/-! ### Temporaries -/

/-- Binds the value to a fresh temporary. -/
def pushTemp (hint : String) (span : Span) (value : Expr) : Walk Expr := do
  let id ← freshTemp ⟨hint, span⟩
  emit (.declareTemp id value)
  return .temp id

def pushTempIfComplex (hint : String) (span : Span) (value : Expr) : Walk Expr :=
  if value.isSimple then pure value else pushTemp hint span value

def pushTempIfUnstable (hint : String) (span : Span) (value : Expr) : Walk Expr :=
  if value.isStable then pure value else pushTemp hint span value

def pinPart (pin : Pin) (hint : String) (span : Span) (part : Expr) : Walk Expr :=
  match pin with
  | .repeated => pushTempIfComplex hint span part
  | .reordered => pushTempIfUnstable hint span part

/-- Binds the parts of a place, the object first. -/
def pinPlace (pin : Pin) (span : Span) : Place → Walk Place
  | .whole e => pure (.whole e)
  | .property object name => do
    let object ← pinPart pin "object" span object
    return .property object name
  | .index object index => do
    let object ← pinPart pin "object" span object
    let index ← pinPart pin "index" span index
    return .index object index

/-! ### Operands -/

/-- The value of an operand that stands before the others. -/
def settle (c : Captured) (later : List Captured) : Walk Expr := do
  emitAll c.stmts
  if later.any (!·.stmts.isEmpty) then pushTempIfUnstable "exp" c.span c.value
  else return c.value

def settleAll : List Captured → Walk (List Expr)
  | [] => pure []
  | c :: later => do
    let value ← settle c later
    return value :: (← settleAll later)

section Operands

variable (f : NamedFile)

def node (e : ExprId) : Walk Source.Node := indexed (f.arena.get e)

def exprs (r : Source.ListRange) : Walk (List ExprId) := indexed (f.arena.exprs r)

def properties (r : Source.ListRange) : Walk (List Source.PropertyNode) :=
  indexed (f.arena.properties r)

/-- Walks nodes left to right; each is told its position, from `k` on. -/
def capturedFrom (walk : Nat → ExprId → Walk Expr) : Nat → List ExprId → Walk (List Captured)
  | _, [] => pure []
  | k, e :: es => do
    let (value, stmts) ← capture (walk k e)
    let n ← node f e
    return ⟨n.span, value, stmts⟩ :: (← capturedFrom walk (k + 1) es)

/-- The values of nodes, their effects in source order. -/
def inOrder (walk : Nat → ExprId → Walk Expr) (ids : List ExprId) : Walk (List Expr) := do
  let cs ← capturedFrom f walk 0 ids
  settleAll cs

end Operands

/-! ### Operators -/

/-- `object[key] ~= nil` -/
def membership (span : Span) (key object : Expr) : Walk Expr := do
  let key ←
    if (key.isSimple && object.isSimple) || object.isStable then pure key
    else pushTempIfUnstable "exp" span key
  return .binary .ne (.index object key) .nil

def relation (op : Source.RelationOp) (span : Span) (l r : Expr) : Walk Expr :=
  match op with
  | .strictEq => pure (.binary .eq l r)
  | .strictNotEq => pure (.binary .ne l r)
  | .lt => pure (.binary .lt l r)
  | .le => pure (.binary .le l r)
  | .gt => pure (.binary .gt l r)
  | .ge => pure (.binary .ge l r)
  | .isIn => membership span l r
  | .instanceOf => do
    useHelper .runtime
    return .call (Lower.helperMember .runtime "instanceof") [l, r]

def looseEquality (op : Source.LooseOp) (span : Span) : Walk Expr := do
  match op with
  | .eq => report .looseEquals span "operator `==` is not supported, use `===` instead"
  | .notEq => report .looseNotEquals span "operator `!=` is not supported, use `!==` instead"
  return .placeholder

/-- Enters the name of the library member that a bit operator becomes. -/
def enterMember (f : NamedFile) (op : ArithmeticOp) : Walk Unit :=
  match bitMember? op with
  | some member => enterName f member
  | none => pure ()

section Types

variable (p : TypePool)

/-- Whether the type itself has one flag or the other. -/
def hasEither (f g : TypeFlag) (t : TypeId) : Except Panic Bool := do
  if ← reading p t (p.has t f) then return true else reading p t (p.has t g)

def isConcat (left right : TypeId) : Except Panic Bool := do
  if ← definitelyA p left .string then return true else definitelyA p right .string

def concatOperand (v : TypedValue) : Except Panic Expr := do
  if ← definitelyA p v.ty .string then return v.expr
  else if ← definitelyA p v.ty .number then return v.expr
  else return .call (.ident "tostring") [v.expr]

/-- An arithmetic operator on two values; only addition asks for their types. -/
def arithmetic (op : ArithmeticOp) (l r : TypedValue) : Except Panic Expr :=
  match op with
  | .add => do
    if ← isConcat p l.ty r.ty then
      return .arithmetic .concat (← concatOperand p l) (← concatOperand p r)
    else return .arithmetic .add l.expr r.expr
  | op => return Lower.arithmetic p op l r

/-- The operator that a compound assignment applies; any other operator stands for itself. -/
def baseOf (op : BinaryOp) : BinaryOp := (op.compoundBase?.map .arithmetic).getD op

def nativeCompound (op : BinaryOp) (target value : TypeId) :
    Except Panic (Option Target.ArithmeticOp) :=
  match op with
  | .arithmetic .add => return some (if ← isConcat p target value then .concat else .add)
  | .arithmetic op => return Lower.nativeCompound? p op target value
  | _ => return none

def shiftIndex (object : TypeId) (index : Expr) : Except Panic Expr := do
  if ← definitely p object (hasEither p .array .undefined) then return Lower.offset index .one
  else return index

/-! ### Truth -/

def needsChecks (ty : TypeId) : Except Panic (Bool × Bool) := do
  let number ← possiblyA p ty .number
  let string ← possiblyA p ty .string
  return (number, string)

def truthiness (ty : TypeId) (span : Span) (value : Expr) : Walk Expr := do
  match ← check (needsChecks p ty) with
  | (false, false) => return value
  | (number, string) =>
    let v ← pushTempIfComplex "exp" span value
    return Lower.conjunction
      ((if number then Lower.numberChecks v else []) ++
        (if string then Lower.stringChecks v else [])) v

/-- `if condition then stmts; target = value end` -/
def assignInBlock (condition target value : Expr) (stmts : List Stmt) : Walk Unit :=
  emit (.ifThen condition (stmts ++ [.assign target value]))

/-- A block that the truth of the left value decides on. -/
def truthBlock (ty : TypeId) (span : Span) (condition : Expr → Expr) (l r : Expr)
    (stmts : List Stmt) : Walk Expr := do
  let result ← pushTemp "result" span l
  let truth ← truthiness p ty span result
  assignInBlock (condition truth) result r stmts
  return result

def shortCircuit (op : Source.LogicalOp) (span : Span) (leftTy : TypeId) (left right : Walk Expr) :
    Walk Expr := do
  let l ← left
  let (r, stmts) ← capture right
  match op with
  | .coalesce =>
    let result ← pushTemp "result" span l
    assignInBlock (.binary .eq result .nil) result r stmts
    return result
  | .and =>
    let checks ← check (needsChecks p leftTy)
    if checks == (false, false) && stmts.isEmpty then return .binary .and l r
    else truthBlock p leftTy span id l r stmts
  | .or =>
    let checks ← check (needsChecks p leftTy)
    if checks == (false, false) && stmts.isEmpty then return .binary .or l r
    else truthBlock p leftTy span (.unary .not) l r stmts

/-! ### Assignments -/

def targetAndValue (span : Span) (target : Walk Place) (value : Walk Expr)
    (readAfterWrite : Bool) : Walk (WritableTarget × Expr) := do
  let place ← target
  let (v, stmts) ← capture value
  let place ←
    match Lower.pinFor stmts readAfterWrite with
    | some pin => pinPlace pin span place
    | none => pure place
  emitAll stmts
  return (.ofPlace place readAfterWrite, v)

def assignValue (span : Span) (target : Walk Place) (value : Walk Expr) : Walk Expr := do
  let (t, v) ← targetAndValue span target value true
  emit (.assign t.write v)
  return t.readable

def assignStatement (span : Span) (target : Walk Place) (value : Walk Expr) : Walk Stmt := do
  let (t, v) ← targetAndValue span target value false
  return .assign t.write v

def isIndexable : SubType → Except Panic Bool
  | .sequence _ => return true
  | .single ty => definitely p ty (hasEither p .array .tupleReturn)

def indexableSource (span : Span) (ty : SubType) (source : Expr) : Walk Expr := do
  if ← check (isIndexable p ty) then return source
  else
    useHelper .array
    pushTemp "value" span (.call (Lower.helperMember .array "from") [source])

/-! ### Calls -/

def checkNotAny (info : NodeInfo) : Walk Unit := do
  if ← check (reading p info.ty (p.has info.ty .any)) then
    report .anyValue info.span "using values of type `any` is not supported, use `unknown` instead"
  else return ()

def superClass (ty : TypeId) (span : Span) : Walk String := do
  match ← check (reading p ty (p.symbolName? ty)) with
  | some name => return name
  | none => fail (.unresolvedCallee span "super")

def isMethodCall (calleeTy : TypeId) (member : String) (span : Span) : Walk Bool := do
  let signatures ← check (callSignatures p calleeTy)
  if signatures.isEmpty then fail (.unresolvedCallee span member)
  else
    match signatures.all (·.isMethodStyle), signatures.all (·.isCallbackStyle) with
    | true, false => return true
    | false, true => return false
    | _, _ => fail (.mixedCall span)

def receiverFamily (ty : TypeId) : Except Panic ReceiverFamily := do
  if ← definitelyA p ty .array then return .array
  else if ← definitelyA p ty .string then return .string
  else if ← definitelyA p ty .map then return .map
  else if ← definitelyA p ty .set then return .set
  else
    match ← reading p ty (p.symbolName? ty) with
    | some name => return .ofSymbol name
    | none => return .other

def packReturn (ctx : CallContext) (ty : TypeId) (call : Expr) : Walk Expr := do
  if ctx.packReturn && call.isCall then
    if ← check (reading p ty (p.has ty .tupleReturn)) then return .pack call else return call
  else return call

end Types

/-! ### Forms on two values -/

section Values

variable (f : NamedFile)

/-- The form of any operator on two values. -/
def onValues (op : BinaryOp) (span : Span) (l r : TypedValue) : Walk Expr :=
  match op with
  | .arithmetic op => do
    enterMember f op
    check (arithmetic f.types.pool op l r)
  | .relation op => relation op span l.expr r.expr
  | .loose _ | .logical _ | .assign | .assignWith _ => panic .operator

/-- Any assignment but a plain one, as a value. -/
def compoundValue (op : BinaryOp) (span : Span) (targetInfo : NodeInfo) (valueTy : TypeId)
    (target : Walk Place) (value : Walk Expr) : Walk Expr := do
  let (t, v) ← targetAndValue targetInfo.span target value true
  let combined ← onValues f (baseOf op) span ⟨t.readable, targetInfo.ty⟩ ⟨v, valueTy⟩
  emit (.assign t.write combined)
  return t.readable

/-- Any assignment but a plain one, as a statement. -/
def compoundStatement (op : BinaryOp) (span : Span) (targetInfo : NodeInfo) (valueTy : TypeId)
    (target : Walk Place) (value : Walk Expr) : Walk Stmt := do
  match ← check (nativeCompound f.types.pool (baseOf op) targetInfo.ty valueTy) with
  | some native =>
    let (t, v) ← targetAndValue targetInfo.span target value false
    if native = .concat then
      return .compound native t.write (← check (concatOperand f.types.pool ⟨v, valueTy⟩))
    else return .compound native t.write v
  | none =>
    let (t, v) ← targetAndValue targetInfo.span target value true
    return .assign t.write
      (← onValues f (baseOf op) span ⟨t.readable, targetInfo.ty⟩ ⟨v, valueTy⟩)

end Values

/-! ## Lemmas -/

/-! ### Lists -/

variable {α β : Type}

theorem indexed_bind_ok {x : Except Fault α} {a : α} (h : x = .ok a) (g : α → Walk β) :
    indexed x >>= g = g a := by
  rw [h]
  exact pure_bind a g

theorem insertAt_zero (x : Expr) (xs : List Expr) : insertAt 0 x xs = pure (x :: xs) :=
  if_pos (Nat.zero_le _)

theorem pairOf_inOrder (x y : Operand) :
    lift (Lower.inOrder [x, y]) >>= pairOf = lift (Lower.inOrderPair x y) := by
  rw [Lower.inOrder_pair, lift_map, bind_map_left]
  exact bind_pure _

/-- The first operand is there to be taken. -/
theorem removeAt_inOrder (x : Operand) (xs : List Operand) :
    lift (Lower.inOrder (x :: xs)) >>= removeAt 0 = lift (Lower.inOrderCons x xs) := by
  rw [Lower.inOrder_cons, lift_map, bind_map_left]
  exact bind_pure _

/-! ### Temporaries -/

section Temporaries

variable (hint : String) (span : Span)

theorem pushTemp_eq (value : Expr) :
    pushTemp hint span value = lift (Lower.pushTemp hint span value) := by
  simp only [pushTemp, Lower.pushTemp, freshTemp_eq, emit_eq, lift_bind, lift_pure]

theorem pushTempIfComplex_eq (value : Expr) :
    pushTempIfComplex hint span value = lift (Lower.pushTempIfComplex hint span value) := by
  unfold pushTempIfComplex Lower.pushTempIfComplex
  split
  · exact (lift_pure _).symm
  · exact pushTemp_eq hint span value

theorem pushTempIfUnstable_eq (value : Expr) :
    pushTempIfUnstable hint span value = lift (Lower.pushTempIfUnstable hint span value) := by
  unfold pushTempIfUnstable Lower.pushTempIfUnstable
  split
  · exact (lift_pure _).symm
  · exact pushTemp_eq hint span value

theorem pinPart_eq (pin : Pin) (part : Expr) :
    pinPart pin hint span part = lift (Lower.pinPart pin hint span part) := by
  cases pin with
  | repeated => exact pushTempIfComplex_eq hint span part
  | reordered => exact pushTempIfUnstable_eq hint span part

theorem pinPlace_eq (pin : Pin) (place : Place) :
    pinPlace pin span place = lift (Lower.pinPlace pin span place) := by
  cases place <;>
    simp only [pinPlace, Lower.pinPlace, pinPart_eq, lift_bind, lift_pure]

end Temporaries

/-! ### Operands -/

theorem settle_eq (c : Captured) (later : List Captured) :
    settle c later = lift (Lower.settle c later) := by
  unfold settle Lower.settle
  rw [lift_bind, emitAll_eq]
  refine bind_congr fun _ => ?_
  split
  · exact pushTempIfUnstable_eq "exp" c.span c.value
  · exact (lift_pure _).symm

theorem settleAll_eq (cs : List Captured) : settleAll cs = lift (Lower.settleAll cs) := by
  induction cs with
  | nil => exact (lift_pure _).symm
  | cons c later ih => simp only [settleAll, Lower.settleAll, settle_eq, ih, lift_bind, lift_pure]

/-- The nodes, from position `k` on, are walked as the operands are lowered. -/
inductive Lowers (f : NamedFile) (walk : Nat → ExprId → Walk Expr) :
    Nat → List ExprId → List Operand → Prop
  | nil {k : Nat} : Lowers f walk k [] []
  | cons {k : Nat} {e : ExprId} {es : List ExprId} {x : Operand} {xs : List Operand}
      {n : Source.Node} (hn : f.arena.node? e = some n) (hs : n.span = x.span)
      (h : walk k e = lift x.lower) (rest : Lowers f walk (k + 1) es xs) :
      Lowers f walk k (e :: es) (x :: xs)

variable {f : NamedFile}

theorem node_bind {e : ExprId} {n : Source.Node} (hn : f.arena.node? e = some n)
    (g : Source.Node → Walk β) : node f e >>= g = g n :=
  indexed_bind_ok (by simp [Source.Arena.get, hn]) g

theorem capturedFrom_eq {walk : Nat → ExprId → Walk Expr} {k : Nat} {es : List ExprId}
    {xs : List Operand} (h : Lowers f walk k es xs) :
    capturedFrom f walk k es = lift (Lower.captureAll xs) := by
  induction h with
  | nil => exact (lift_pure _).symm
  | @cons k e es x xs n hn hs h _ ih =>
    simp only [capturedFrom, Lower.captureAll, Operand.capture, h, capture_lift, node_bind hn, hs,
      ih, lift_bind, lift_pure, bind_assoc, pure_bind]

/-- Operands settle as they do in lowering. -/
theorem inOrder_eq {walk : Nat → ExprId → Walk Expr} {es : List ExprId} {xs : List Operand}
    (h : Lowers f walk 0 es xs) : inOrder f walk es = lift (Lower.inOrder xs) := by
  simp only [inOrder, capturedFrom_eq h, settleAll_eq, Lower.inOrder, lift_bind]

/-! ### Operators -/

theorem membership_eq (span : Span) (key object : Expr) :
    membership span key object = lift (Lower.membership span key object) := by
  unfold membership Lower.membership
  split <;> simp only [pushTempIfUnstable_eq, lift_bind, lift_pure]

theorem relation_eq (op : Source.RelationOp) (span : Span) (l r : Expr) :
    relation op span l r = lift (Lower.relation op span l r) := by
  cases op with
  | isIn => exact membership_eq span l r
  | instanceOf => simp only [relation, Lower.relation, useHelper_eq, lift_bind, lift_pure]
  | _ => exact (lift_pure _).symm

theorem looseEquality_eq (op : Source.LooseOp) (span : Span) :
    looseEquality op span = lift (Lower.looseEquality op span) := by
  cases op <;> simp only [looseEquality, Lower.looseEquality, report_eq, lift_bind, lift_pure]

theorem assignInBlock_eq (condition target value : Expr) (stmts : List Stmt) :
    assignInBlock condition target value stmts =
      lift (Lower.assignInBlock condition target value stmts) := emit_eq _

/-! ### Parts that do not panic -/

variable {x : Lower Reference} {v : Lower Expr} {span : Span}

theorem targetAndValue_eq (b : Bool) :
    targetAndValue span (lift (Lower.asPlace x)) (lift v) b =
      lift (Lower.targetAndValue span x v b) := by
  simp only [targetAndValue, Lower.targetAndValue, capture_lift, lift_bind]
  refine bind_congr fun place => bind_congr fun q => ?_
  cases Lower.pinFor q.2 b <;> simp only [pinPlace_eq, emitAll_eq, lift_bind, lift_pure]

theorem assignValue_eq :
    assignValue span (lift (Lower.asPlace x)) (lift v) = lift (Lower.assignValue span x v) := by
  simp only [assignValue, Lower.assignValue, targetAndValue_eq, emit_eq, lift_bind, lift_pure]

theorem assignStatement_eq :
    assignStatement span (lift (Lower.asPlace x)) (lift v) =
      lift (Lower.assignStatement span x v) := by
  simp only [assignStatement, Lower.assignStatement, targetAndValue_eq, lift_bind, lift_pure]

/-! ### Types that the pool holds -/

section WellFormed

variable {p : TypePool} (hp : p.WellFormed)

theorem hasEither_eq {t : TypeId} (ht : p.Holds t) (f g : TypeFlag) :
    hasEither p f g t = .ok (p.has t f || p.has t g) := by
  simp only [hasEither, reading_eq ht, bind, Except.bind]
  cases p.has t f <;> rfl

theorem checkNotAny_eq {info : NodeInfo} (hi : p.Holds info.ty) :
    checkNotAny p info = lift (Lower.checkNotAny p info) := by
  rw [checkNotAny, check_bind_ok (reading_eq hi _), Lower.checkNotAny]
  split
  · exact report_eq _ _ _
  · exact (lift_pure _).symm

theorem superClass_eq {t : TypeId} (ht : p.Holds t) (span : Span) :
    superClass p t span = lift (Lower.ofError (Lower.superClass p t span)) := by
  rw [superClass, check_bind_ok (reading_eq ht _), Lower.superClass]
  cases p.symbolName? t with
  | some name => exact (lift_pure _).symm
  | none => exact fail_eq _

theorem packReturn_eq {t : TypeId} (ht : p.Holds t) (ctx : CallContext) (call : Expr) :
    packReturn p ctx t call = pure (Lower.packReturn p ctx t call) := by
  simp only [packReturn, Lower.packReturn, check_bind_ok (reading_eq ht (p.has t .tupleReturn))]
  cases ctx.packReturn && call.isCall <;> cases p.has t .tupleReturn <;> rfl

include hp

theorem isConcat_eq {s t : TypeId} (hs : p.Holds s) (ht : p.Holds t) :
    isConcat p s t = .ok (Lower.isConcat p s t) := by
  simp only [isConcat, definitelyA_eq hp hs, definitelyA_eq hp ht, bind, Except.bind,
    Lower.isConcat]
  cases p.isDefinitelyA s .string <;> rfl

theorem concatOperand_eq {v : TypedValue} (hv : p.Holds v.ty) :
    concatOperand p v = .ok (Lower.concatOperand p v) := by
  simp only [concatOperand, definitelyA_eq hp hv, bind, Except.bind, Lower.concatOperand]
  cases p.isDefinitelyA v.ty .string <;> cases p.isDefinitelyA v.ty .number <;> rfl

theorem arithmetic_eq {l r : TypedValue} (hl : p.Holds l.ty) (hr : p.Holds r.ty)
    (op : ArithmeticOp) : arithmetic p op l r = .ok (Lower.arithmetic p op l r) := by
  cases op with
  | add =>
    simp only [arithmetic, isConcat_eq hp hl hr, concatOperand_eq hp hl, concatOperand_eq hp hr,
      bind, Except.bind, Lower.arithmetic]
    cases Lower.isConcat p l.ty r.ty <;> rfl
  | _ => rfl

theorem nativeCompound_eq {s t : TypeId} (hs : p.Holds s) (ht : p.Holds t) (op : ArithmeticOp) :
    nativeCompound p (.arithmetic op) s t = .ok (Lower.nativeCompound? p op s t) := by
  cases op with
  | add =>
    simp only [nativeCompound, isConcat_eq hp hs ht, bind, Except.bind]
    rfl
  | _ => rfl

theorem shiftIndex_eq {t : TypeId} (ht : p.Holds t) (index : Expr) :
    shiftIndex p t index = .ok (Lower.shiftIndex p t index) := by
  have hd := definitely_eq hp ht fun m hm => hasEither_eq (p := p) hm .array .undefined
  simp only [shiftIndex, hd, bind, Except.bind, Lower.shiftIndex]
  split <;> rfl

theorem needsChecks_eq {t : TypeId} (ht : p.Holds t) :
    needsChecks p t = .ok (Lower.needsChecks p t) := by
  simp only [needsChecks, possiblyA_eq hp ht, bind, Except.bind]
  rfl

theorem truthiness_eq {t : TypeId} (ht : p.Holds t) (span : Span) (value : Expr) :
    truthiness p t span value = lift (Lower.truthiness p t span value) := by
  rw [truthiness, check_bind_ok (needsChecks_eq hp ht), Lower.truthiness]
  rcases Lower.needsChecks p t with ⟨_ | _, _ | _⟩
  case false.false => exact (lift_pure _).symm
  all_goals simp only [pushTempIfComplex_eq, lift_bind, lift_pure]

theorem truthBlock_eq {t : TypeId} (ht : p.Holds t) (condition : Expr → Expr) (l r : Expr)
    (stmts : List Stmt) :
    truthBlock p t span condition l r stmts =
      lift (Lower.shortCircuitBlock span l r stmts fun result =>
        condition <$> Lower.truthiness p t span result) := by
  simp only [truthBlock, Lower.shortCircuitBlock, pushTemp_eq, truthiness_eq hp ht,
    assignInBlock_eq, lift_bind, lift_pure, bind_map_left]

theorem shortCircuit_eq {t : TypeId} (ht : p.Holds t) (op : Source.LogicalOp) (l r : Lower Expr) :
    shortCircuit p op span t (lift l) (lift r) = lift (Lower.shortCircuit p op span t l r) := by
  simp only [shortCircuit, Lower.shortCircuit, capture_lift, lift_bind]
  refine bind_congr fun a => bind_congr fun q => ?_
  cases op with
  | coalesce =>
    simp only [Lower.shortCircuitBlock, pushTemp_eq, assignInBlock_eq, lift_bind, lift_pure,
      pure_bind]
  | and =>
    simp only [check_bind_ok (needsChecks_eq hp ht), truthBlock_eq hp ht, id_map]
    exact (ite_congr rfl (fun _ => (lift_pure _).symm) fun _ => rfl).trans (apply_ite lift ..).symm
  | or =>
    simp only [check_bind_ok (needsChecks_eq hp ht), truthBlock_eq hp ht, map_eq_pure_bind]
    exact (ite_congr rfl (fun _ => (lift_pure _).symm) fun _ => rfl).trans (apply_ite lift ..).symm

theorem isIndexable_eq {ty : SubType} (hty : p.HoldsSubType ty) :
    isIndexable p ty = .ok (Lower.isIndexable p ty) := by
  cases ty with
  | sequence elements => rfl
  | single t => exact definitely_eq hp hty fun m hm => hasEither_eq hm .array .tupleReturn

theorem indexableSource_eq {ty : SubType} (hty : p.HoldsSubType ty) (source : Expr) :
    indexableSource p span ty source = lift (Lower.indexableSource p span ty source) := by
  rw [indexableSource, check_bind_ok (isIndexable_eq hp hty), Lower.indexableSource]
  split
  · exact (lift_pure _).symm
  · rw [lift_bind, useHelper_eq, pushTemp_eq]

/-- No signature passes the receiver and passes it not. -/
theorem isMethodCall_eq {t : TypeId} (ht : p.Holds t) (member : String) (span : Span) :
    isMethodCall p t member span = lift (Lower.ofError (Lower.isMethodCall p t member span)) := by
  rw [isMethodCall, check_bind_ok (callSignatures_eq hp ht), Lower.isMethodCall]
  cases p.callSignatures t with
  | nil => exact fail_eq _
  | cons s rest =>
    have hs := s.not_both
    simp only [List.isEmpty_cons, Bool.false_eq_true, if_false]
    cases hm : (s :: rest).all (·.isMethodStyle) <;> cases hc : (s :: rest).all (·.isCallbackStyle)
    case true.true =>
      simp only [List.all_cons, Bool.and_eq_true] at hm hc
      exact absurd ⟨hm.1, hc.1⟩ hs
    case false.false => exact fail_eq _
    all_goals exact (lift_pure _).symm

theorem receiverFamily_eq {t : TypeId} (ht : p.Holds t) :
    receiverFamily p t = .ok (.ofType p t) := by
  cases hs : p.symbolName? t <;>
    simp only [receiverFamily, definitelyA_eq hp ht, reading_eq ht, bind, Except.bind,
      ReceiverFamily.ofType, hs] <;>
    repeat' split
  all_goals rfl

end WellFormed

/-! ### Forms on two values -/

section Values

variable (hready : f.Ready)

include hready in
theorem enterMember_eq (op : ArithmeticOp) : enterMember f op = pure () := by
  unfold enterMember
  split
  next member hm => exact enterName_eq (hready.operators member (mem_bitMembers hm))
  next => rfl

variable (hp : f.types.pool.WellFormed)

include hready hp

theorem onValues_arithmetic {l r : TypedValue} (hl : f.types.pool.Holds l.ty)
    (hr : f.types.pool.Holds r.ty) (op : ArithmeticOp) (span : Span) :
    onValues f (.arithmetic op) span l r = pure (Lower.arithmetic f.types.pool op l r) := by
  rw [onValues, enterMember_eq hready, arithmetic_eq hp hl hr]
  rfl

variable {info : NodeInfo} {ty : TypeId} (hi : f.types.pool.Holds info.ty)
  (hty : f.types.pool.Holds ty)

include hi hty

/-- A compound assignment always has a form on two values: that of its base. -/
theorem compoundValue_eq (op : ArithmeticOp) :
    compoundValue f (.assignWith op) span info ty (lift (Lower.asPlace x)) (lift v) =
      lift (Lower.compoundValue f.types.pool op info ty x v) := by
  simp only [compoundValue, Lower.compoundValue, targetAndValue_eq, emit_eq, lift_bind, lift_pure]
  refine bind_congr fun q => ?_
  rw [show baseOf (.assignWith op) = .arithmetic op from rfl,
    onValues_arithmetic hready hp hi hty, pure_bind]

theorem compoundStatement_eq (op : ArithmeticOp) :
    compoundStatement f (.assignWith op) span info ty (lift (Lower.asPlace x)) (lift v) =
      lift (Lower.compoundStatement f.types.pool op info ty x v) := by
  rw [compoundStatement, show baseOf (.assignWith op) = .arithmetic op from rfl,
    check_bind_ok (nativeCompound_eq hp hi hty op), Lower.compoundStatement]
  cases Lower.nativeCompound? f.types.pool op info.ty ty with
  | some native =>
    simp only [targetAndValue_eq, lift_bind, lift_pure]
    refine bind_congr fun q => ?_
    split
    · rw [check_bind_ok (concatOperand_eq hp hty)]
    · rfl
  | none =>
    simp only [targetAndValue_eq, lift_bind, lift_pure]
    refine bind_congr fun q => ?_
    rw [onValues_arithmetic hready hp hi hty, pure_bind]

end Values

end ScriptLowering.Walk
