import ScriptLowering.Source.Arena
import ScriptLowering.Source.Stmt
import ScriptLowering.Types.Table

/-!
# Trees of an arena

Reads the nodes of an arena as expression trees, each node with its recorded
type.  Nodes are read in the order of their allocation, so every part of a node
is found among the trees read before it; a part that is not there is a fault.

This is a restriction to arenas built bottom up.  A node that names a later one
has no tree, though nothing else stands in the way of lowering it; nor has one
with a missing part that lowering does not visit, the operand of a loose
comparison.  `Arena.WellFormed` rules both out; walks look nodes up on demand.

    (a.trees t).size = a.size        (size_trees)
-/

namespace ScriptLowering.Source

/-- Trees of nodes, or the fault met in building one. -/
abbrev Forest := Array (Except Fault Expr)

/-! ## Algorithm -/

/-- The tree of a node that was read before; a later node counts as missing. -/
def Forest.get (f : Forest) (e : ExprId) : Except Fault Expr :=
  match f[e.index]? with
  | some tree => tree
  | none => .error .outOfBounds

namespace Arena

/-- The tree of one node over the trees before it, all its parts included. -/
def grow (a : Arena) (info : NodeInfo) (f : Forest) : NodeKind → Except Fault Expr
  | .ident name => .ok (.ident info name)
  | .this => .ok (.this info)
  | .super => .ok (.super info)
  | .number value => .ok (.number info value)
  | .string value => .ok (.string info value)
  | .bool value => .ok (.bool info value)
  | .undefined => .ok (.undefined info)
  | .error => .ok (.error info)
  | .paren inner => return .paren info (← f.get inner)
  | .spread inner => return .spread info (← f.get inner)
  | .property object name => return .property info (← f.get object) name
  | .element object index => return .element info (← f.get object) (← f.get index)
  | .call callee args => return .call info (← f.get callee) (← (← a.exprs args).mapM f.get)
  | .binary op left right => return .binary info op (← f.get left) (← f.get right)
  | .prefixed op operand => return .prefixed info op (← f.get operand)
  | .postfixed op operand => return .postfixed info op (← f.get operand)
  | .array elements => return .array info (← (← a.exprs elements).mapM f.get)
  | .object properties =>
    return .object info (← (← a.properties properties).mapM fun p => return (p.name, ← f.get p.value))

/-- The trees of the nodes, added one after another to those before them. -/
def growAll (a : Arena) (types : TypeTable) : List Node → Forest → Forest
  | [], f => f
  | n :: rest, f =>
    a.growAll types rest (f.push (a.grow ⟨n.span, types.typeOf ⟨f.size⟩⟩ f n.kind))

/-- The trees of all nodes. -/
def trees (a : Arena) (types : TypeTable) : Forest := a.growAll types a.nodes.toList #[]

end Arena

/-- The statement with its expression read as a tree. -/
def Stmt.read (f : Forest) (s : Stmt ExprId) : Except Fault (Stmt Expr) :=
  match s.kind with
  | .expr e => return ⟨.expr (← f.get e), s.span⟩
  | .letDecl name none => .ok ⟨.letDecl name none, s.span⟩
  | .letDecl name (some e) => return ⟨.letDecl name (some (← f.get e)), s.span⟩
  | .importDecl module => .ok ⟨.importDecl module, s.span⟩
  | .exportDecl name => .ok ⟨.exportDecl name, s.span⟩

/-! ## Lemmas -/

theorem Arena.size_growAll (a : Arena) (types : TypeTable) (ns : List Node) (f : Forest) :
    (a.growAll types ns f).size = f.size + ns.length := by
  induction ns generalizing f with
  | nil => rfl
  | cons n rest ih =>
    rw [growAll, ih]
    simp only [Array.size_push, List.length_cons]
    omega

theorem Arena.size_trees (a : Arena) (types : TypeTable) : (a.trees types).size = a.size := by
  simp [trees, size_growAll, size]

/-- Reading more nodes leaves the trees read before as they are. -/
theorem Arena.growAll_getElem? (a : Arena) (types : TypeTable) (ns : List Node) (f : Forest)
    {i : Nat} (h : i < f.size) : (a.growAll types ns f)[i]? = f[i]? := by
  induction ns generalizing f with
  | nil => rfl
  | cons n rest ih =>
    rw [growAll, ih _ (by simp only [Array.size_push]; omega), Array.getElem?_push_lt h,
      Array.getElem?_eq_getElem h]

end ScriptLowering.Source
