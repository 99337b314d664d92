import ScriptLowering.Helper
import ScriptLowering.Target.Operator
import ScriptLowering.Types.Query

/-!
# Rules for property calls

The receiver's type puts a property call into a family; the family and the
member choose a rule.  Members that a family does not know fall to the generic
rule, which goes by the declared signatures.
-/

namespace ScriptLowering

inductive ReceiverFamily where
  | array
  | string
  | map
  | set
  | objectConstructor
  | promise
  | symbolConstructor
  /-- A spatial value class, whose arithmetic members are operators. -/
  | math (className : String)
  | other
  deriving DecidableEq

inductive CallRule where
  /-- A member of a helper namespace. -/
  | helper (h : Helper)
  /-- A member of the target's string library. -/
  | nativeString
  /-- A method of another name. -/
  | renamedMethod (name : String)
  /-- A plain function of another name. -/
  | renamedField (name : String)
  | operator (op : Target.ArithmeticOp) (className : String)
  | generic
  deriving DecidableEq

/-- String members that the target's library has too. -/
def nativeStringMembers : List String :=
  ["byte", "find", "format", "gmatch", "gsub", "len", "lower", "match", "rep", "reverse", "sub",
    "upper"]

/-- The members of each helper namespace. -/
def Helper.members : Helper → List String
  | .array =>
    ["concat", "copy", "deepCopy", "deepEquals", "entries", "every", "filter", "find", "findIndex",
      "forEach", "includes", "indexOf", "insert", "isEmpty", "join", "lastIndexOf", "length", "map",
      "pop", "push", "reduce", "reduceRight", "remove", "reverse", "shift", "size", "slice", "some",
      "sort", "splice", "unorderedRemove", "unshift"]
  | .string =>
    ["endsWith", "includes", "indexOf", "padEnd", "padStart", "size", "slice", "split",
      "startsWith", "toLowerCase", "toUpperCase", "trim", "trimEnd", "trimStart"]
  | .map =>
    ["clear", "delete", "entries", "forEach", "get", "getOrSet", "has", "isEmpty", "keys", "set",
      "size", "values"]
  | .set =>
    ["add", "clear", "delete", "difference", "entries", "forEach", "has", "intersect",
      "isDisjointWith", "isEmpty", "isSubsetOf", "size", "union", "values"]
  | .object =>
    ["assign", "copy", "deepCopy", "deepEquals", "entries", "fromEntries", "isEmpty", "keys",
      "values"]
  | .runtime => []

/-- The classes whose arithmetic members are operators. -/
def mathClasses : List String :=
  ["CFrame", "UDim", "UDim2", "Vector2", "Vector2int16", "Vector3", "Vector3int16"]

/-- The operator that an arithmetic member stands for. -/
def mathMember? (member : String) : Option Target.ArithmeticOp :=
  match member with
  | "add" => some .add
  | "sub" => some .sub
  | "mul" => some .mul
  | "div" => some .div
  | _ => none

namespace ReceiverFamily

def ofSymbol (name : String) : ReceiverFamily :=
  if name = "ObjectConstructor" then objectConstructor
  else if name = "Promise" then promise
  else if name = "SymbolConstructor" then symbolConstructor
  else if name ∈ mathClasses then math name
  else other

/-- Containers and strings by what the type definitely is, all else by its name. -/
def ofType (pool : TypePool) (ty : TypeId) : ReceiverFamily :=
  if pool.isDefinitelyA ty .array then array
  else if pool.isDefinitelyA ty .string then string
  else if pool.isDefinitelyA ty .map then map
  else if pool.isDefinitelyA ty .set then set
  else
    match pool.symbolName? ty with
    | some name => ofSymbol name
    | none => other

end ReceiverFamily

namespace CallRule

/-- The helper rule for a member of the namespace. -/
def ofNamespace (h : Helper) (member : String) : CallRule :=
  if member ∈ h.members then helper h else generic

/-- The rule for a call of the member with so many arguments. -/
def find (family : ReceiverFamily) (member : String) (argCount : Nat) : CallRule :=
  match family with
  | .array => ofNamespace .array member
  | .string =>
    if member ∈ nativeStringMembers then nativeString else ofNamespace .string member
  | .map => ofNamespace .map member
  | .set => ofNamespace .set member
  | .objectConstructor => ofNamespace .object member
  | .promise => if member = "then" then renamedMethod "andThen" else generic
  | .symbolConstructor => if member = "for" then renamedField "getFor" else generic
  | .math className =>
    match argCount, mathMember? member with
    | 1, some op => operator op className
    | _, _ => generic
  | .other => generic

/-! ## Lemmas -/

/-- Only a one-argument call becomes an operator. -/
theorem argCount_of_operator {family : ReceiverFamily} {member : String} {argCount : Nat}
    {op : Target.ArithmeticOp} {className : String}
    (h : find family member argCount = operator op className) :
    argCount = 1 ∧ family = .math className := by
  cases family <;> simp only [find, ofNamespace] at h
  case math =>
    split at h <;> cases h
    exact ⟨rfl, rfl⟩
  all_goals repeat' split at h
  all_goals cases h

end CallRule

end ScriptLowering
