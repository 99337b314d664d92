import ScriptLowering.Proofs.Contracts.Operations
import ScriptLowering.Proofs.Lowering.Nodes

/-!
# Expressions under a contract

Lowering an expression keeps every contract that lets its targets be written to
and that allows the faults of sub-types, or has none to allow because no pattern
of the expression has a pattern among its parts.

    the parts of a node keep the contract → the node keeps it             (ensures_node)
-/

namespace ScriptLowering

namespace Source.Expr

/-- No part is itself a pattern. -/
def isFlat (e : Expr) : Bool := e.children.all (!·.isPattern)

/-- An assignment to a pattern has no pattern within the pattern. -/
def HasFlatTarget : Expr → Prop
  | binary _ .assign l _ | binary _ (.assignWith _) l _ => l.isPattern → l.isFlat
  | _ => True

end Source.Expr

namespace Lower

open Source.Expr (TargetsAre)
open Target (Expr Stmt)

/-- Whatever sub-type is asked for, the contract allows that there is none. -/
def Contract.AllowsSubTypes (K : Contract) (pool : TypePool) : Prop :=
  ∀ ty index f, pool.subType ty index = .error f → K.allowed f

/-- What a node has to do so that its lowering can keep the contract. -/
structure Contract.Admits (K : Contract) (P : Source.Expr → Prop) (pool : TypePool)
    (e : Source.Expr) : Prop where
  targets : TargetsAre P e
  nesting : K.AllowsSubTypes pool ∨ e.HasFlatTarget

/-- What the induction over the source tree says of a node. -/
structure EnsuresNode (K : Contract) (P : Source.Expr → Prop) (pool : TypePool)
    (e : Source.Expr) : Prop where
  reference : Ensures K (reference pool e) Reference.Formed
  pattern (source : Expr) (ty : SubType) (ht : e.TargetOf P)
    (hn : K.AllowsSubTypes pool ∨ e.isFlat) (hs : source.Formed) :
    Ensures K (destructure pool e source ty) fun _ => True

/-! ## Lemmas -/

variable {K : Contract} {P : Source.Expr → Prop} {pool : TypePool}

theorem EnsuresNode.value {e : Source.Expr} (h : EnsuresNode K P pool e) :
    Ensures K (value pool e) Expr.Formed := ensures_asValue h.reference

/-! ### Operands -/

theorem ensures_operands {es : List Source.Expr} (h : ∀ e ∈ es, EnsuresNode K P pool e) :
    ∀ x ∈ operands pool es, Ensures K x.lower Expr.Formed := by
  rw [operands_eq_map]
  simpa using fun e he => (h e he).value

theorem ensures_propertyOperands {ps : List (String × Source.Expr)}
    (h : ∀ p ∈ ps, EnsuresNode K P pool p.2) :
    ∀ x ∈ propertyOperands pool ps, Ensures K x.lower Expr.Formed := by
  rw [propertyOperands_eq_map]
  intro x hx
  obtain ⟨p, hp, rfl⟩ := List.mem_map.1 hx
  exact (h p hp).value

/-- An argument is lowered as it is, a spread one as what is spread. -/
theorem ensures_arguments {es : List Source.Expr} (h : ∀ e ∈ es, EnsuresNode K P pool e)
    (hs : ∀ e ∈ es, ∀ c ∈ e.children, EnsuresNode K P pool c) :
    ∀ x ∈ arguments pool es, Ensures K x.lower Expr.Formed := by
  apply forall_mem_arguments
  · intro e he
    exact ensures_argument (h e he).value
  · rintro e he i inner rfl isLast
    exact ensures_spreadArgument (hs _ he inner List.mem_cons_self).value

/-! ### Patterns -/

theorem ensures_part (hP : ∀ l, P l → MayWrite K.writable (reference pool l)) {e : Source.Expr}
    (h : EnsuresNode K P pool e) (ht : e.isElided = false → e.TargetOf P)
    (hn : K.AllowsSubTypes pool ∨ e.isPattern = false) {slot : Expr} {ty : SubType}
    {index : SubIndex} (hs : slot.Formed) :
    Ensures K (assignPart pool e (fun source ty => destructure pool e source ty)
      (asPlaceExpr (reference pool e)) slot ty index) fun _ => True := by
  have subTypes (hp : e.isPattern = true) : K.AllowsSubTypes pool :=
    hn.resolve_right (by simp [hp])
  refine ensures_assignPart hs (fun hp => subTypes hp ty index) (fun hp source ty hsource => ?_)
    h.reference fun hp he => hP e ((ht he).of_not_pattern hp)
  have he : e.isElided = false := by cases e <;> first | rfl | cases hp
  exact h.pattern source ty (ht he) (.inl (subTypes hp)) hsource

theorem ensures_assignElements (hP : ∀ l, P l → MayWrite K.writable (reference pool l))
    {es : List Source.Expr} (h : ∀ e ∈ es, EnsuresNode K P pool e)
    (ht : ∀ e ∈ es, e.isElided = false → e.TargetOf P)
    (hn : ∀ e ∈ es, K.AllowsSubTypes pool ∨ e.isPattern = false) {position : Nat} {source : Expr}
    {ty : SubType} (hs : source.Formed) :
    Ensures K (assignElements pool es position source ty) fun _ => True := by
  induction es generalizing position with
  | nil => exact .pure trivial
  | cons e rest ih =>
    obtain ⟨he, hrest⟩ := List.forall_mem_cons.1 h
    obtain ⟨hte, htrest⟩ := List.forall_mem_cons.1 ht
    obtain ⟨hne, hnrest⟩ := List.forall_mem_cons.1 hn
    have slot : (Expr.index source (oneBased position)).Formed := ⟨hs, trivial⟩
    exact (ensures_part hP he hte hne slot).bind fun _ _ => ih hrest htrest hnrest

theorem ensures_assignProperties (hP : ∀ l, P l → MayWrite K.writable (reference pool l))
    {ps : List (String × Source.Expr)} (h : ∀ p ∈ ps, EnsuresNode K P pool p.2)
    (ht : ∀ p ∈ ps, p.2.isElided = false → p.2.TargetOf P)
    (hn : ∀ p ∈ ps, K.AllowsSubTypes pool ∨ p.2.isPattern = false) {source : Expr} {ty : SubType}
    (hs : source.Formed) :
    Ensures K (assignProperties pool ps source ty) fun _ => True := by
  induction ps with
  | nil => exact .pure trivial
  | cons p rest ih =>
    obtain ⟨hp, hrest⟩ := List.forall_mem_cons.1 h
    obtain ⟨htp, htrest⟩ := List.forall_mem_cons.1 ht
    obtain ⟨hnp, hnrest⟩ := List.forall_mem_cons.1 hn
    have slot : (Expr.property source p.1).Formed := hs
    exact (ensures_part hP hp htp hnp slot).bind fun _ _ => ih hrest htrest hnrest

theorem ensures_pattern (hP : ∀ l, P l → MayWrite K.writable (reference pool l))
    {e : Source.Expr} (hc : ∀ c ∈ e.children, EnsuresNode K P pool c) (ht : e.TargetOf P)
    (hn : K.AllowsSubTypes pool ∨ e.isFlat) {source : Expr} {ty : SubType} (hs : source.Formed) :
    Ensures K (destructure pool e source ty) fun _ => True := by
  have parts : ∀ c ∈ e.children, K.AllowsSubTypes pool ∨ c.isPattern = false := by
    intro c hm
    refine hn.imp_right fun hflat => ?_
    simpa using List.all_eq_true.1 hflat c hm
  cases ht with
  | leaf hp _ =>
    cases e <;> first | exact .pure trivial | cases hp
  | array h =>
    refine (ensures_indexableSource hs).bind ?_
    intro source hs
    exact ensures_assignElements hP hc h parts hs
  | @object info ps h =>
    have mem {p : String × Source.Expr} (hp : p ∈ ps) :
        p.2 ∈ (Source.Expr.object info ps).children := List.mem_map.2 ⟨p, hp, rfl⟩
    exact ensures_assignProperties hP (fun p hp => hc p.2 (mem hp)) h
      (fun p hp => parts p.2 (mem hp)) hs

/-! ### Nodes -/

theorem ensures_call {info : Source.NodeInfo} {callee : Source.Expr} {args : List Source.Expr}
    (hf : EnsuresNode K P pool callee) (ho : ∀ c ∈ callee.children, EnsuresNode K P pool c)
    (ha : ∀ e ∈ args, EnsuresNode K P pool e)
    (hs : ∀ e ∈ args, ∀ c ∈ e.children, EnsuresNode K P pool c) (ctx : CallContext) :
    Ensures K (call pool ctx (.call info callee args)) Expr.Formed := by
  have hargs := ensures_arguments ha hs
  cases callee with
  | property calleeInfo object member =>
    exact ensures_propertyCall (ho object List.mem_cons_self).value hargs
  | super calleeInfo => exact ensures_superCall hargs
  | _ => exact ensures_plainCall hf.value hargs

theorem ensures_binary (hP : ∀ l, P l → MayWrite K.writable (reference pool l))
    {info : Source.NodeInfo} {op : Source.BinaryOp} {l r : Source.Expr}
    (hl : EnsuresNode K P pool l) (hr : EnsuresNode K P pool r)
    (here : K.Admits P pool (.binary info op l r)) :
    Ensures K (value pool (.binary info op l r)) Expr.Formed := by
  have pair : Ensures K (inOrderPair ⟨l.span, value pool l⟩ ⟨r.span, value pool r⟩)
      fun p => p.1.Formed ∧ p.2.Formed := ensures_inOrderPair hl.value hr.value
  have destructured (ht : l.TargetOf P) (hn : K.AllowsSubTypes pool ∨ l.isFlat) :
      Ensures K (destructuring info.span r.ty (value pool r) fun source ty =>
        destructure pool l source ty) Expr.Formed :=
    ensures_destructuring hr.value fun source ty => hl.pattern source ty ht hn
  have mayWrite (ht : l.TargetOf P) (hp : l.isPattern = false) :
      MayWrite K.writable (reference pool l) := hP l (ht.of_not_pattern hp)
  obtain ⟨ht, hn⟩ := here
  cases op with
  | arithmetic op =>
    rw [value_arithmetic]
    exact pair.map fun p ⟨hx, hy⟩ => formed_arithmetic hx hy
  | relation op =>
    rw [value_relation]
    exact pair.bind fun p ⟨hx, hy⟩ => ensures_relation hx hy
  | loose op =>
    rw [value_loose]
    exact ensures_looseEquality op
  | logical op =>
    rw [value_logical]
    exact ensures_shortCircuit hl.value hr.value
  | assign =>
    cases hp : l.isPattern with
    | true =>
      rw [value_pattern pool info l r _ rfl hp]
      exact destructured ht (hn.imp_right fun h => h hp)
    | false =>
      rw [value_assign pool info l r hp]
      exact ensures_assignValue hl.reference (mayWrite ht hp) hr.value
  | assignWith op =>
    cases hp : l.isPattern with
    | true =>
      rw [value_pattern pool info l r _ rfl hp]
      exact destructured ht (hn.imp_right fun h => h hp)
    | false =>
      rw [value_assignWith pool info l r op hp]
      exact ensures_compoundValue hl.reference (mayWrite ht hp) hr.value

theorem ensures_prefixed (hP : ∀ l, P l → MayWrite K.writable (reference pool l))
    {info : Source.NodeInfo} {op : Source.PrefixOp} {e : Source.Expr} (h : EnsuresNode K P pool e)
    (ht : TargetsAre P (.prefixed info op e)) :
    Ensures K (value pool (.prefixed info op e)) Expr.Formed := by
  cases op with
  | not =>
    rw [value_not]
    refine h.value.bind ?_
    intro v hv
    exact (ensures_truthiness hv).map fun _ hc => hc
  | neg =>
    rw [value_neg]
    exact h.value.map fun _ hv => formed_negate hv
  | plus =>
    rw [value_plus]
    exact h.value.map fun _ hv => ⟨trivial, hv, trivial⟩
  | bitNot =>
    rw [value_bitNot]
    exact h.value.map fun _ hv => ⟨trivial, hv, trivial⟩
  | update op =>
    rw [value_updateBefore]
    exact ensures_updateBefore h.reference (hP e ht)

theorem ensures_node (hP : ∀ l, P l → MayWrite K.writable (reference pool l)) {e : Source.Expr}
    (h : e.Everywhere (K.Admits P pool)) : EnsuresNode K P pool e := by
  refine h.induct₂ (motive := EnsuresNode K P pool) fun e here hc hd => ?_
  refine ⟨?_, fun source ty ht hn hs => ensures_pattern hP hc ht hn hs⟩
  cases e with
  | ident | this | number | string | bool | undefined | error => exact .pure trivial
  | super info =>
    exact ensures_asReference
      ((Ensures.ofError (Q := fun _ => True) fun _ _ => trivial).map fun _ _ => trivial)
  | paren info inner => exact (hc inner List.mem_cons_self).reference.map fun _ h => h
  | spread info inner => exact .fail _
  | property info object name =>
    refine (hc object List.mem_cons_self).value.bind ?_
    intro o ho
    exact .pure ho
  | element info object index =>
    have ho := (hc object List.mem_cons_self).value
    have hi := (hc index (List.mem_cons_of_mem _ List.mem_cons_self)).value
    refine (ensures_inOrderPair ho hi).bind ?_
    rintro ⟨o, i⟩ ⟨ho, hi⟩
    exact .pure ⟨ho, formed_shiftIndex hi⟩
  | call info callee args =>
    obtain ⟨hf, ha⟩ := List.forall_mem_cons.1 hc
    obtain ⟨ho, hs⟩ := List.forall_mem_cons.1 hd
    rw [reference_call]
    exact ensures_asReference (ensures_call hf ho ha hs .value)
  | binary info op l r =>
    rw [reference_binary]
    exact ensures_asReference (ensures_binary hP (hc l (by simp [Source.Expr.children]))
      (hc r (by simp [Source.Expr.children])) here)
  | prefixed info op inner =>
    rw [reference_prefixed]
    exact ensures_asReference (ensures_prefixed hP (hc inner List.mem_cons_self) here.targets)
  | postfixed info op inner =>
    rw [reference_postfixed, value_updateAfter]
    exact ensures_asReference
      (ensures_updateAfter (hc inner List.mem_cons_self).reference (hP inner here.targets))
  | array info es =>
    refine (ensures_inOrder (ensures_operands hc)).bind ?_
    intro vs hvs
    exact .pure ((Expr.formed_positional vs).2 hvs)
  | object info ps =>
    have hps : ∀ p ∈ ps, EnsuresNode K P pool p.2 := fun p hp =>
      hc p.2 (List.mem_map.2 ⟨p, hp, rfl⟩)
    refine (ensures_inOrder (ensures_propertyOperands hps)).bind ?_
    intro vs hvs
    exact .pure (Expr.formed_named _ hvs)

end Lower

end ScriptLowering
