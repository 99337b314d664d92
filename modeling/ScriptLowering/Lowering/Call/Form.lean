import ScriptLowering.Lowering.Call.Rule
import ScriptLowering.Lowering.Operator
import ScriptLowering.Lowering.Order
import ScriptLowering.Source.Expr

/-!
# Call forms

The form of a property call is settled before any operand is lowered, so a call
that cannot be lowered fails without touching its arguments.  The receiver and
the arguments are then lowered in order and put into the form.  A call whose
type is a multi-value return is packed into one table where its value is used.
-/

namespace ScriptLowering.Lower

open Target (Expr Stmt)
open Source (NodeInfo)

/-- Where the value of a call goes. -/
structure CallContext where
  /-- The call is a statement of its own. -/
  discarded : Bool
  /-- Several returned values are wanted as one table. -/
  packReturn : Bool
  deriving DecidableEq

/-- How a property call is written in the target. -/
inductive CallForm where
  | helper (h : Helper)
  | nativeString
  | method (name : String)
  | field (name : String)
  /-- A method of the parent class, called on the instance. -/
  | superMethod (className : String)
  | operator (op : Target.ArithmeticOp)
  deriving DecidableEq

namespace CallContext

def value : CallContext := ⟨false, true⟩

def statement : CallContext := ⟨true, false⟩

end CallContext

/-! ## Algorithm -/

/-- The name of the parent class that a `super` of the type stands for. -/
def superClass (pool : TypePool) (ty : TypeId) (span : Span) : Except LowerError String :=
  match pool.symbolName? ty with
  | some name => .ok name
  | none => .error (.unresolvedCallee span "super")

/-- Whether all signatures pass the receiver, or none does. -/
def isMethodCall (pool : TypePool) (calleeTy : TypeId) (member : String) (span : Span) :
    Except LowerError Bool :=
  let signatures := pool.callSignatures calleeTy
  if signatures.isEmpty then .error (.unresolvedCallee span member)
  else if signatures.all (·.isMethodStyle) then .ok true
  else if signatures.all (·.isCallbackStyle) then .ok false
  else .error (.mixedCall span)

/-- The form of a call that goes by the callee's signatures. -/
def genericForm (pool : TypePool) (span : Span) (calleeTy : TypeId) (object : Source.Expr)
    (member : String) : Except LowerError CallForm := do
  match ← isMethodCall pool calleeTy member span, object with
  | true, .super info => return .superMethod (← superClass pool info.ty info.span)
  | true, _ => return .method member
  | false, _ => return .field member

/-- The form of the call `object.member(…)`. -/
def CallForm.resolve (pool : TypePool) (ctx : CallContext) (span : Span) (calleeTy : TypeId)
    (object : Source.Expr) (member : String) (argCount : Nat) : Except LowerError CallForm :=
  match CallRule.find (.ofType pool object.ty) member argCount with
  | .helper h => .ok (.helper h)
  | .nativeString => .ok .nativeString
  | .renamedMethod name => .ok (.method name)
  | .renamedField name => .ok (.field name)
  | .operator op className =>
    if ctx.discarded then .error (.mathStatement span className member) else .ok (.operator op)
  | .generic => genericForm pool span calleeTy object member

/-- The helper namespace that a form refers to. -/
def CallForm.helper? : CallForm → Option Helper
  | .helper h => some h
  | .nativeString | .method _ | .field _ | .superMethod _ | .operator _ => none

/-- An operand of an operator, kept together by parentheses. -/
def enclosed (e : Expr) : Expr := if e.isBinary then .paren e else e

/-- The call in its form. -/
def CallForm.build (form : CallForm) (member : String) (receiver : Expr) (args : List Expr) :
    Expr :=
  match form with
  | .helper .object => .call (helperMember .object member) args
  | .helper h => .call (helperMember h member) (receiver :: args)
  | .nativeString => .call (libraryMember "string" member) (receiver :: args)
  | .method name => .method receiver name args
  | .field name => .call (.property receiver name) args
  | .superMethod className =>
    .call (.property (.property (.ident className) "__index") member) (.ident "self" :: args)
  | .operator op => .paren (.arithmetic op receiver (enclosed (args.getLastD .nil)))

/-- Reports a value of the type any: such a type says nothing that lowering could go by. -/
def checkNotAny (pool : TypePool) (info : NodeInfo) : Lower Unit :=
  if pool.has info.ty .any then
    report .anyValue info.span "using values of type `any` is not supported, use `unknown` instead"
  else pure ()

/-- Packs a call that returns several values. -/
def packReturn (pool : TypePool) (ctx : CallContext) (ty : TypeId) (call : Expr) : Expr :=
  if ctx.packReturn && call.isCall && pool.has ty .tupleReturn then .pack call else call

/-- An argument that is no spread. -/
def argument (pool : TypePool) (info : NodeInfo) (value : Lower Expr) : Operand :=
  ⟨info.span, checkNotAny pool info >>= fun _ => value⟩

/-- A spread argument, which must be the last one. -/
def spreadArgument (info : NodeInfo) (isLast : Bool) (value : Lower Expr) : Operand where
  span := info.span
  lower :=
    if isLast then do
      let v ← value
      return .call (.ident "unpack") [v]
    else fail (.misplacedSpread info.span)

/-- A call whose callee is no property access and not `super`. -/
def plainCall (pool : TypePool) (ctx : CallContext) (info calleeInfo : NodeInfo)
    (callee : Lower Expr) (args : List Operand) : Lower Expr := do
  checkNotAny pool calleeInfo
  let (f, args) ← inOrderCons ⟨calleeInfo.span, callee⟩ args
  return packReturn pool ctx info.ty (.call f args)

/-- `super(args)`: the parent's constructor, called on the instance. -/
def superCall (pool : TypePool) (ctx : CallContext) (info calleeInfo : NodeInfo)
    (args : List Operand) : Lower Expr := do
  checkNotAny pool calleeInfo
  let className ← ofError (superClass pool calleeInfo.ty info.span)
  let args ← inOrder args
  return packReturn pool ctx info.ty
    (.call (.property (.ident className) "constructor") (.ident "self" :: args))

/-- `object.member(args)` -/
def propertyCall (pool : TypePool) (ctx : CallContext) (info calleeInfo : NodeInfo)
    (object : Source.Expr) (member : String) (receiver : Lower Expr) (args : List Operand) :
    Lower Expr := do
  checkNotAny pool calleeInfo
  let form ←
    ofError (CallForm.resolve pool ctx info.span calleeInfo.ty object member args.length)
  let (r, args) ← inOrderCons ⟨object.span, receiver⟩ args
  if let some h := form.helper? then useHelper h
  return packReturn pool ctx info.ty (form.build member r args)

/-! ## Lemmas -/

section

variable {pool : TypePool} {span : Span} {calleeTy : TypeId} {object : Source.Expr} {member : String}

/-! ### Calls by the signatures -/

theorem genericForm_of_error {e : LowerError}
    (h : isMethodCall pool calleeTy member span = .error e) :
    genericForm pool span calleeTy object member = .error e := by
  rw [genericForm, h]
  rfl

theorem genericForm_field (h : isMethodCall pool calleeTy member span = .ok false) :
    genericForm pool span calleeTy object member = .ok (.field member) := by
  rw [genericForm, h]
  rfl

theorem genericForm_super (h : isMethodCall pool calleeTy member span = .ok true)
    (info : NodeInfo) :
    genericForm pool span calleeTy (.super info) member =
      .superMethod <$> superClass pool info.ty info.span := by
  rw [genericForm, h]
  exact (map_eq_pure_bind CallForm.superMethod (superClass pool info.ty info.span)).symm

theorem genericForm_method (h : isMethodCall pool calleeTy member span = .ok true)
    (ho : ∀ info, object ≠ .super info) :
    genericForm pool span calleeTy object member = .ok (.method member) := by
  rw [genericForm, h]
  cases object with
  | super info => exact absurd rfl (ho info)
  | _ => rfl

/-- A call by the signatures is a field or a method, or a method of the parent class. -/
theorem genericForm_eq_ok {form : CallForm}
    (h : genericForm pool span calleeTy object member = .ok form) :
    (∃ passesSelf, isMethodCall pool calleeTy member span = .ok passesSelf ∧
        form = if passesSelf then .method member else .field member) ∨
      ∃ info name, object = .super info ∧ superClass pool info.ty info.span = .ok name ∧
        form = .superMethod name := by
  cases hm : isMethodCall pool calleeTy member span with
  | error e => cases (genericForm_of_error hm).symm.trans h
  | ok passesSelf =>
    cases passesSelf with
    | false =>
      cases (genericForm_field hm).symm.trans h
      exact .inl ⟨false, rfl, rfl⟩
    | true =>
      by_cases ho : ∃ info, object = .super info
      · obtain ⟨info, rfl⟩ := ho
        rw [genericForm_super hm] at h
        cases hname : superClass pool info.ty info.span with
        | error e =>
          rw [hname] at h
          cases h
        | ok name =>
          rw [hname] at h
          cases h
          exact .inr ⟨info, name, rfl, hname, rfl⟩
      · cases (genericForm_method hm fun info heq => ho ⟨info, heq⟩).symm.trans h
        exact .inl ⟨true, rfl, rfl⟩

end

/-- A packed call is a call. -/
theorem packReturn_of_not_isCall {pool : TypePool} {ctx : CallContext} {ty : TypeId} {e : Expr}
    (h : e.isCall = false) : packReturn pool ctx ty e = e := by
  simp [packReturn, h]

end ScriptLowering.Lower
