import ScriptLowering.Lowering.Assignment
import ScriptLowering.Proofs.Semantics.World
import ScriptLowering.Proofs.Source.Everywhere

/-!
# Runs of source expressions

What the constructs that read, call, compute and assign variables do in the
source.  Operators are those of the target that mean the same; conditions go by
what the source counts as true.  Other constructs are stuck.

    e.Everywhere (Plain pool) → e is made of these constructs
    Typed pool e s → each value met in the run of e from s is admitted by its node's type
-/

namespace ScriptLowering.Source

open Run (After)

variable {w : World}

/-! ## Algorithm -/

/-- The operator of the target that computes the same from two values. -/
def BinaryOp.plain? : BinaryOp → Option Target.BinaryOp
  | arithmetic .sub => some (.arithmetic .sub)
  | arithmetic .mul => some (.arithmetic .mul)
  | arithmetic .div => some (.arithmetic .div)
  | arithmetic .pow => some (.arithmetic .pow)
  | relation .strictEq => some .eq
  | relation .strictNotEq => some .ne
  | relation .lt => some .lt
  | relation .le => some .le
  | relation .gt => some .gt
  | relation .ge => some .ge
  | _ => none

/-- The left operand is the result. -/
def LogicalOp.settledBy {Ref : Type} (op : LogicalOp) (v : Value Ref) : Bool :=
  match op with
  | .and => !v.truthy
  | .or => v.truthy
  | .coalesce => !v.isNil

/-- The variable that is written to, in any parentheses. -/
def Expr.variable? : Expr → Option String
  | ident _ name => some name
  | paren _ inner => inner.variable?
  | _ => none

/-- Counts a variable up or down; answers the value before and after. -/
def update (op : UpdateOp) (name : String) : w.Run (w.Val × w.Val) := do
  let old ← Run.readVar name
  let new ← Run.binary (.arithmetic (Lower.updateOp op)) old (.number .one)
  Run.writeVar name new
  return (old, new)

def updateOf (op : UpdateOp) (target : Expr) : w.Run (w.Val × w.Val) :=
  match target.variable? with
  | some name => update op name
  | none => Run.raise w.stuck

/-- Assigns the value to a variable. -/
def assignTo (target : Expr) (value : w.Run w.Val) : w.Run w.Val :=
  match target.variable? with
  | some name => do
    let v ← value
    Run.writeVar name v
    return v
  | none => Run.raise w.stuck

/-- An operator on two values. -/
def compute (op : BinaryOp) (l r : w.Run w.Val) : w.Run w.Val :=
  match op.plain? with
  | some op => do
    let x ← l
    let y ← r
    Run.binary op x y
  | none => Run.raise w.stuck

mutual

def eval : Expr → w.Run w.Val
  | .ident _ name => Run.readVar name
  | .number _ n => pure (.number n)
  | .string _ s => pure (.string s)
  | .bool _ b => pure (.bool b)
  | .undefined _ => pure .nil
  | .paren _ inner => eval inner
  | .property _ object name => eval object >>= fun x => Run.readMember x (.string name)
  | .call _ callee args => do
    let f ← eval callee
    let xs ← evalList args
    Run.callValue f xs
  | .binary _ (.logical op) l r => eval l >>= fun x => if op.settledBy x then pure x else eval r
  | .binary _ .assign l r => assignTo l (eval r)
  | .binary _ op l r => compute op (eval l) (eval r)
  | .prefixed _ .not e => eval e >>= fun v => pure (.bool (!v.truthy))
  | .prefixed _ .neg e => eval e >>= Run.negate
  | .prefixed _ (.update op) e => (·.2) <$> updateOf op e
  | .postfixed _ op e => (·.1) <$> updateOf op e
  | _ => Run.raise w.stuck
termination_by structural e => e

def evalList : List Expr → w.Run (List w.Val)
  | [] => pure []
  | e :: es => do
    let x ← eval e
    let xs ← evalList es
    return x :: xs
termination_by structural es => es

end

/-- The constructs that `eval` gives a meaning to.  A call's type is no
multi-value return, and its callee is no property. -/
def Expr.Plain (pool : TypePool) : Expr → Prop
  | ident _ _ | number _ _ | string _ _ | bool _ _ | undefined _ | paren _ _ | property _ _ _ => True
  | call _ (property _ _ _) _ => False
  | call info _ _ => pool.has info.ty .tupleReturn = false
  | binary _ (.logical _) _ _ => True
  | binary _ .assign l _ => l.variable?.isSome
  | binary _ op _ _ => op.plain?.isSome
  | prefixed _ .not _ | prefixed _ .neg _ => True
  | prefixed _ (.update _) e | postfixed _ _ e => e.variable?.isSome
  | _ => False

mutual

/-- The value of each node that is evaluated is admitted by its type. -/
def Typed (pool : TypePool) : Expr → w.State → Prop
  | e, s => (match e with
    | .paren _ inner | .property _ inner _ | .prefixed _ .not inner | .prefixed _ .neg inner =>
      Typed pool inner s
    | .call _ callee args =>
      Typed pool callee s ∧ After (eval callee) s fun _ s => TypedList pool args s
    | .binary _ (.logical op) l r =>
      Typed pool l s ∧ After (eval l) s fun v s => op.settledBy v = false → Typed pool r s
    | .binary _ .assign _ r => Typed pool r s
    | .binary _ _ l r => Typed pool l s ∧ After (eval l) s fun _ s => Typed pool r s
    | _ => True) ∧ After (eval e) s fun v _ => v.AdmittedBy pool e.ty
termination_by structural e => e

def TypedList (pool : TypePool) : List Expr → w.State → Prop
  | [], _ => True
  | e :: es, s => Typed pool e s ∧ After (eval e) s fun _ s => TypedList pool es s
termination_by structural es => es

end

/-! ## Lemmas -/

theorem Typed.admitted {pool : TypePool} {e : Expr} {s : w.State} (h : Typed pool e s) :
    After (eval e) s fun v _ => v.AdmittedBy pool e.ty := by
  unfold Typed at h
  exact h.2

theorem Expr.Plain.ne_spread {pool : TypePool} {e : Expr} (h : e.Plain pool) (info : NodeInfo)
    (inner : Expr) : e ≠ .spread info inner := by
  rintro rfl
  exact h

/-! ### Parts of typed expressions -/

section

variable {pool : TypePool} {info : NodeInfo} {e l r : Expr} {s : w.State}

theorem Typed.paren_parts (h : Typed pool (.paren info e) s) : Typed pool e s := by
  unfold Typed at h
  exact h.1

theorem Typed.property_parts {name : String} (h : Typed pool (.property info e name) s) :
    Typed pool e s := by
  unfold Typed at h
  exact h.1

theorem Typed.not_parts (h : Typed pool (.prefixed info .not e) s) : Typed pool e s := by
  unfold Typed at h
  exact h.1

theorem Typed.neg_parts (h : Typed pool (.prefixed info .neg e) s) : Typed pool e s := by
  unfold Typed at h
  exact h.1

theorem Typed.call_parts {args : List Expr} (h : Typed pool (.call info e args) s) :
    Typed pool e s ∧ After (eval e) s fun _ s => TypedList pool args s := by
  unfold Typed at h
  exact h.1

theorem Typed.logical_parts {op : LogicalOp} (h : Typed pool (.binary info (.logical op) l r) s) :
    Typed pool l s ∧ After (eval l) s fun v s => op.settledBy v = false → Typed pool r s := by
  unfold Typed at h
  exact h.1

theorem Typed.assign_parts (h : Typed pool (.binary info .assign l r) s) : Typed pool r s := by
  unfold Typed at h
  exact h.1

theorem Typed.compute_parts {op : BinaryOp} {native : Target.BinaryOp}
    (h : Typed pool (.binary info op l r) s) (hop : op.plain? = some native) :
    Typed pool l s ∧ After (eval l) s fun _ s => Typed pool r s := by
  unfold Typed at h
  cases op with
  | arithmetic | relation => exact h.1
  | _ => cases hop

end

end ScriptLowering.Source
