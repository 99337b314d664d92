import ScriptLowering.Types.TypeId

/-!
# Type data

The shape of a type, given over the ids of its parts, and the flags read off
that shape.  Flags say what a type itself is; a union has only the union flag.
-/

namespace ScriptLowering

inductive Primitive where
  | any
  | unknown
  | never
  | undefined
  | boolean
  | number
  | string
  deriving DecidableEq

/-- The library classes that lowering knows, and all others. -/
inductive InstanceKind where
  | map
  | set
  | generator
  | plain
  deriving DecidableEq

/-- A call signature, told by how it binds its receiver. -/
inductive Signature where
  | explicitVoid
  | explicitThis
  | methodDeclaration
  | functionValue
  | unknown
  deriving DecidableEq

inductive TypeFlag where
  | any
  | undefined
  | boolean
  | number
  | string
  | array
  | tuple
  | map
  | set
  | generator
  | tupleReturn
  | union
  | callable
  | object
  deriving DecidableEq

inductive TypeData where
  | primitive (p : Primitive)
  | array (element : TypeId)
  | tuple (elements : List TypeId)
  | instanceOf (kind : InstanceKind) (name : String) (args : List TypeId)
  | object (name : Option String) (properties : List (String × TypeId))
  | function (signatures : List Signature)
  /-- A multi-value return; the id is that of the tuple of values. -/
  | tupleReturn (inner : TypeId)
  | union (members : List TypeId)
  deriving DecidableEq

/-- The receiver is passed as `self`. -/
def Signature.isMethodStyle : Signature → Bool
  | .explicitThis | .methodDeclaration => true
  | .explicitVoid | .functionValue | .unknown => false

/-- No receiver is passed. -/
def Signature.isCallbackStyle : Signature → Bool
  | .explicitVoid | .functionValue => true
  | .explicitThis | .methodDeclaration | .unknown => false

/-- The primitive types in the order of their ids. -/
def Primitive.all : List Primitive :=
  [.any, .unknown, .never, .undefined, .boolean, .number, .string]

/-- The flags in the order in which they are listed. -/
def TypeFlag.all : List TypeFlag :=
  [.any, .undefined, .boolean, .number, .string, .array, .tuple, .map, .set, .generator,
    .tupleReturn, .union, .callable, .object]

/-- A tuple is an array too; an unknown or a never has no flag. -/
def TypeData.has : TypeData → TypeFlag → Bool
  | .primitive .any, f => f == .any
  | .primitive .unknown, _ => false
  | .primitive .never, _ => false
  | .primitive .undefined, f => f == .undefined
  | .primitive .boolean, f => f == .boolean
  | .primitive .number, f => f == .number
  | .primitive .string, f => f == .string
  | .array _, f => f == .array
  | .tuple _, f => f == .array || f == .tuple
  | .instanceOf .map _ _, f => f == .map
  | .instanceOf .set _ _, f => f == .set
  | .instanceOf .generator _ _, f => f == .generator
  | .instanceOf .plain _ _, f => f == .object
  | .object _ _, f => f == .object
  | .function _, f => f == .callable
  | .tupleReturn _, f => f == .tupleReturn
  | .union _, f => f == .union

def TypeData.flags (d : TypeData) : List TypeFlag := TypeFlag.all.filter d.has

/-- The ids that the data mentions. -/
def TypeData.parts : TypeData → List TypeId
  | .primitive _ | .function _ => []
  | .array t | .tupleReturn t => [t]
  | .tuple ts | .instanceOf _ _ ts | .union ts => ts
  | .object _ properties => properties.map (·.2)

/-! ## Lemmas -/

theorem TypeFlag.mem_all (f : TypeFlag) : f ∈ TypeFlag.all := by cases f <;> decide

theorem TypeData.mem_flags (d : TypeData) (f : TypeFlag) : f ∈ d.flags ↔ d.has f := by
  simp [flags, TypeFlag.mem_all]

theorem Signature.not_both (s : Signature) : ¬(s.isMethodStyle ∧ s.isCallbackStyle) := by
  cases s <;> decide

end ScriptLowering
