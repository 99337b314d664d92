import ScriptLowering.Proofs.Lowering.Nodes
import ScriptLowering.Proofs.Names.Operations
import ScriptLowering.Proofs.Source.Everywhere

/-!
# Expressions declare no names

Names are declared by statements of the source only, so lowering an expression
is anonymous, whatever the expression is.

    the parts of a node anonymous → the node anonymous                   (anonymous_node)
-/

namespace ScriptLowering.Lower

open Target (Expr Stmt)

variable {pool : TypePool}

/-- What the induction over the source tree says of a node. -/
structure AnonymousNode (pool : TypePool) (e : Source.Expr) : Prop where
  reference : Anonymous (reference pool e)
  pattern (source : Expr) (ty : SubType) : Anonymous (destructure pool e source ty)

theorem AnonymousNode.value {e : Source.Expr} (h : AnonymousNode pool e) :
    Anonymous (value pool e) := anonymous_asValue h.reference

theorem anonymous_operands {es : List Source.Expr} (h : ∀ e ∈ es, AnonymousNode pool e) :
    ∀ x ∈ operands pool es, Anonymous x.lower := by
  rw [operands_eq_map]
  simpa using fun e he => (h e he).value

theorem anonymous_propertyOperands {ps : List (String × Source.Expr)}
    (h : ∀ p ∈ ps, AnonymousNode pool p.2) :
    ∀ x ∈ propertyOperands pool ps, Anonymous x.lower := by
  rw [propertyOperands_eq_map]
  intro x hx
  obtain ⟨p, hp, rfl⟩ := List.mem_map.1 hx
  exact (h p hp).value

/-- An argument is lowered as it is, a spread one as what is spread. -/
theorem anonymous_arguments {es : List Source.Expr} (h : ∀ e ∈ es, AnonymousNode pool e)
    (hs : ∀ e ∈ es, ∀ c ∈ e.children, AnonymousNode pool c) :
    ∀ x ∈ arguments pool es, Anonymous x.lower := by
  apply forall_mem_arguments
  · intro e he
    exact anonymous_argument (h e he).value
  · rintro e he i inner rfl isLast
    exact anonymous_spreadArgument (hs _ he inner List.mem_cons_self).value isLast

theorem anonymous_assignElements {es : List Source.Expr} (h : ∀ e ∈ es, AnonymousNode pool e)
    (position : Nat) (source : Expr) (ty : SubType) :
    Anonymous (assignElements pool es position source ty) := by
  induction es generalizing position with
  | nil => exact .pure trivial
  | cons e rest ih =>
    obtain ⟨he, hrest⟩ := List.forall_mem_cons.1 h
    apply (anonymous_assignPart he.pattern he.reference _ _ _).bind
    intro _ _
    exact ih hrest (position + 1)

theorem anonymous_assignProperties {ps : List (String × Source.Expr)}
    (h : ∀ p ∈ ps, AnonymousNode pool p.2) (source : Expr) (ty : SubType) :
    Anonymous (assignProperties pool ps source ty) := by
  induction ps with
  | nil => exact .pure trivial
  | cons p rest ih =>
    obtain ⟨hp, hrest⟩ := List.forall_mem_cons.1 h
    apply (anonymous_assignPart hp.pattern hp.reference _ _ _).bind
    intro _ _
    exact ih hrest

theorem anonymous_pattern {e : Source.Expr} (hc : ∀ c ∈ e.children, AnonymousNode pool c)
    (source : Expr) (ty : SubType) : Anonymous (destructure pool e source ty) := by
  cases e with
  | array info es =>
    apply (anonymous_indexableSource ty source).bind
    intro source _
    exact anonymous_assignElements hc 0 source ty
  | object info ps =>
    have hps : ∀ p ∈ ps, AnonymousNode pool p.2 := fun p hp =>
      hc p.2 (List.mem_map.2 ⟨p, hp, rfl⟩)
    exact anonymous_assignProperties hps source ty
  | _ => exact .pure trivial

theorem anonymous_call {info : Source.NodeInfo} {callee : Source.Expr} {args : List Source.Expr}
    (hf : AnonymousNode pool callee) (ho : ∀ c ∈ callee.children, AnonymousNode pool c)
    (ha : ∀ e ∈ args, AnonymousNode pool e)
    (hs : ∀ e ∈ args, ∀ c ∈ e.children, AnonymousNode pool c) (ctx : CallContext) :
    Anonymous (call pool ctx (.call info callee args)) := by
  have hargs := anonymous_arguments ha hs
  cases callee with
  | property calleeInfo object member =>
    exact anonymous_propertyCall (ho object List.mem_cons_self).value hargs
  | super calleeInfo => exact anonymous_superCall hargs
  | _ => exact anonymous_plainCall hf.value hargs

theorem anonymous_binary {info : Source.NodeInfo} {op : Source.BinaryOp} {l r : Source.Expr}
    (hl : AnonymousNode pool l) (hr : AnonymousNode pool r) :
    Anonymous (value pool (.binary info op l r)) := by
  have pair : Anonymous (inOrderPair ⟨l.span, value pool l⟩ ⟨r.span, value pool r⟩) :=
    anonymous_inOrderPair hl.value hr.value
  have destructured : Anonymous (destructuring info.span r.ty (value pool r) fun source ty =>
    destructure pool l source ty) := anonymous_destructuring hr.value hl.pattern
  cases op with
  | arithmetic op =>
    rw [value_arithmetic]
    exact pair.map fun _ _ => trivial
  | relation op =>
    rw [value_relation]
    exact pair.bind fun p _ => anonymous_relation op p.1 p.2
  | loose op =>
    rw [value_loose]
    exact anonymous_looseEquality op
  | logical op =>
    rw [value_logical]
    exact anonymous_shortCircuit hl.value hr.value
  | assign =>
    cases hp : l.isPattern with
    | true =>
      rw [value_pattern pool info l r _ rfl hp]
      exact destructured
    | false =>
      rw [value_assign pool info l r hp]
      exact anonymous_assignValue hl.reference hr.value
  | assignWith op =>
    cases hp : l.isPattern with
    | true =>
      rw [value_pattern pool info l r _ rfl hp]
      exact destructured
    | false =>
      rw [value_assignWith pool info l r op hp]
      exact anonymous_compoundValue hl.reference hr.value

theorem anonymous_prefixed {info : Source.NodeInfo} {op : Source.PrefixOp} {e : Source.Expr}
    (h : AnonymousNode pool e) : Anonymous (value pool (.prefixed info op e)) := by
  cases op with
  | not =>
    rw [value_not]
    exact h.value.bind fun v _ => (anonymous_truthiness e.ty v).map fun _ _ => trivial
  | neg =>
    rw [value_neg]
    exact h.value.map fun _ _ => trivial
  | plus =>
    rw [value_plus]
    exact h.value.map fun _ _ => trivial
  | bitNot =>
    rw [value_bitNot]
    exact h.value.map fun _ _ => trivial
  | update op =>
    rw [value_updateBefore]
    exact anonymous_updateBefore op h.reference

/-- No expression declares a name, as a value or as a pattern. -/
theorem anonymous_node (pool : TypePool) (e : Source.Expr) : AnonymousNode pool e := by
  have all := Source.Expr.everywhere_of_forall (P := fun _ => True) (fun _ => trivial) e
  refine all.induct₂ (motive := AnonymousNode pool) fun e _ hc hd => ⟨?_, anonymous_pattern hc⟩
  cases e with
  | ident | this | number | string | bool | undefined | error => exact .pure trivial
  | super info =>
    rw [reference_super, value_super, map_eq_pure_bind]
    exact anonymous_asReference (.ofError_bind fun _ => .pure trivial)
  | paren info inner => exact (hc inner List.mem_cons_self).reference.map fun _ _ => trivial
  | spread info inner => exact .fail _
  | property info object name =>
    exact (hc object List.mem_cons_self).value.bind fun _ _ => .pure trivial
  | element info object index =>
    have ho := (hc object List.mem_cons_self).value
    have hi := (hc index (List.mem_cons_of_mem _ List.mem_cons_self)).value
    exact (anonymous_inOrderPair ho hi).bind fun _ _ => .pure trivial
  | call info callee args =>
    obtain ⟨hf, ha⟩ := List.forall_mem_cons.1 hc
    obtain ⟨ho, hs⟩ := List.forall_mem_cons.1 hd
    rw [reference_call]
    exact anonymous_asReference (anonymous_call hf ho ha hs .value)
  | binary info op l r =>
    rw [reference_binary]
    exact anonymous_asReference (anonymous_binary (hc l (by simp [Source.Expr.children]))
      (hc r (by simp [Source.Expr.children])))
  | prefixed info op inner =>
    rw [reference_prefixed]
    exact anonymous_asReference (anonymous_prefixed (hc inner List.mem_cons_self))
  | postfixed info op inner =>
    rw [reference_postfixed, value_updateAfter]
    exact anonymous_asReference
      (anonymous_updateAfter op (hc inner List.mem_cons_self).reference)
  | array info es =>
    exact (anonymous_inOrder (anonymous_operands hc)).bind fun _ _ => .pure trivial
  | object info ps =>
    have hps : ∀ p ∈ ps, AnonymousNode pool p.2 := fun p hp =>
      hc p.2 (List.mem_map.2 ⟨p, hp, rfl⟩)
    exact (anonymous_inOrder (anonymous_propertyOperands hps)).bind fun _ _ => .pure trivial

end ScriptLowering.Lower
