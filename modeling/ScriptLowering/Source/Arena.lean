import ScriptLowering.Fault
import ScriptLowering.Source.ExprId
import ScriptLowering.Source.Expr

/-!
# Node arena

An arena keeps the nodes of a file in the order of their allocation; a node
names its parts by id.  Lists of parts lie one after another in two further
stores and are named by a range.

    (a.alloc n).2.node? (a.alloc n).1 = some n                         (node?_alloc)
    a.allocExprs ids = .ok (r, a') → a'.exprs r = .ok ids              (exprs_allocExprs)
    a.allocProperties ps = .ok (r, a') → a'.properties r = .ok ps      (properties_allocProperties)
-/

namespace ScriptLowering.Source

/-- A run of consecutive list entries. -/
structure ListRange where
  start : Nat
  length : Nat
  deriving DecidableEq

namespace ListRange

/-- The range of every empty list. -/
def empty : ListRange := ⟨0, 0⟩

def isEmpty (r : ListRange) : Bool := r.length == 0

end ListRange

inductive NodeKind where
  | ident (name : String)
  | this
  | super
  | number (value : Number)
  | string (value : String)
  | bool (value : Bool)
  | undefined
  | error
  | paren (inner : ExprId)
  | spread (inner : ExprId)
  | property (object : ExprId) (name : String)
  | element (object index : ExprId)
  | call (callee : ExprId) (args : ListRange)
  | binary (op : BinaryOp) (left right : ExprId)
  | prefixed (op : PrefixOp) (operand : ExprId)
  | postfixed (op : UpdateOp) (operand : ExprId)
  | array (elements : ListRange)
  | object (properties : ListRange)
  deriving DecidableEq

structure Node where
  kind : NodeKind
  span : Span
  deriving DecidableEq

/-- A property of an object literal. -/
structure PropertyNode where
  name : String
  value : ExprId
  span : Span
  deriving DecidableEq

structure Arena where
  nodes : Array Node
  exprLists : Array ExprId
  propertyLists : Array PropertyNode
  deriving DecidableEq

/-- The greatest number of entries that a range can hold. -/
def maxListLength : Nat := 65535

/-! ## Algorithm -/

/-- The entries of a range, if they all lie in the store; of an empty range none. -/
def ListRange.read {α : Type} (store : Array α) (r : ListRange) : Except Fault (List α) :=
  if r.isEmpty then .ok []
  else if r.start + r.length ≤ store.size then
    .ok (store.extract r.start (r.start + r.length)).toList
  else .error .outOfBounds

/-- Appends a list to a store. -/
def ListRange.write {α : Type} (kind : ListKind) (store : Array α) (xs : List α) :
    Except Fault (ListRange × Array α) :=
  if xs.isEmpty then .ok (.empty, store)
  else if xs.length ≤ maxListLength then .ok (⟨store.size, xs.length⟩, store ++ xs.toArray)
  else .error (.listTooLong kind)

namespace Arena

def empty : Arena := ⟨#[], #[], #[]⟩

def size (a : Arena) : Nat := a.nodes.size

def isEmpty (a : Arena) : Bool := a.nodes.isEmpty

def alloc (a : Arena) (n : Node) : ExprId × Arena :=
  (⟨a.size⟩, { a with nodes := a.nodes.push n })

def node? (a : Arena) (e : ExprId) : Option Node := a.nodes[e.index]?

def get (a : Arena) (e : ExprId) : Except Fault Node :=
  match a.node? e with
  | some n => .ok n
  | none => .error .outOfBounds

def allocExprs (a : Arena) (ids : List ExprId) : Except Fault (ListRange × Arena) := do
  let (range, store) ← ListRange.write .expressions a.exprLists ids
  return (range, { a with exprLists := store })

def allocProperties (a : Arena) (ps : List PropertyNode) : Except Fault (ListRange × Arena) := do
  let (range, store) ← ListRange.write .properties a.propertyLists ps
  return (range, { a with propertyLists := store })

def exprs (a : Arena) (r : ListRange) : Except Fault (List ExprId) := r.read a.exprLists

def properties (a : Arena) (r : ListRange) : Except Fault (List PropertyNode) :=
  r.read a.propertyLists

end Arena

/-! ## Lemmas -/

/-- What was written under a range reads back, also after more was appended. -/
theorem ListRange.read_write {α : Type} {kind : ListKind} {store store' : Array α} {xs : List α}
    {r : ListRange} (h : ListRange.write kind store xs = .ok (r, store')) (more : Array α) :
    r.read (store' ++ more) = .ok xs := by
  unfold write at h
  split at h
  next hx =>
    cases h
    simp_all [read, isEmpty, empty]
  next hx =>
    split at h <;> cases h
    have hlen : xs.length ≠ 0 := by simpa [List.isEmpty_iff] using hx
    simp [read, isEmpty, hlen, Array.extract_append]

namespace Arena

@[simp] theorem node?_alloc (a : Arena) (n : Node) :
    (a.alloc n).2.node? (a.alloc n).1 = some n := by
  simp [node?, alloc, size]

theorem exprs_allocExprs {a a' : Arena} {ids : List ExprId} {r : ListRange}
    (h : a.allocExprs ids = .ok (r, a')) : a'.exprs r = .ok ids := by
  simp only [allocExprs, bind, Except.bind] at h
  split at h
  · cases h
  next v hv =>
    cases h
    simpa [exprs] using ListRange.read_write hv #[]

theorem properties_allocProperties {a a' : Arena} {ps : List PropertyNode} {r : ListRange}
    (h : a.allocProperties ps = .ok (r, a')) : a'.properties r = .ok ps := by
  simp only [allocProperties, bind, Except.bind] at h
  split at h
  · cases h
  next v hv =>
    cases h
    simpa [properties] using ListRange.read_write hv #[]

end Arena

end ScriptLowering.Source
