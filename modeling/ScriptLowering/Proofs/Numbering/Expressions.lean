import ScriptLowering.Proofs.Lowering.Nodes
import ScriptLowering.Proofs.Numbering.Operations
import ScriptLowering.Proofs.Source.Everywhere

/-!
# Renumbering of expressions

Lowering a source expression from a later id does the same with its temporaries
counted up, whether it has a result or stops.

    the parts of a node shifted → the node shifted                (shifted_node)
-/

namespace ScriptLowering.Lower

open Renumber (renumber)
open Target (Expr)

variable {k : Nat} {pool : TypePool}

/-! ### Calls -/

theorem shift_packReturn (ctx : CallContext) (ty : TypeId) (e : Expr) :
    (packReturn pool ctx ty e).shift k = packReturn pool ctx ty (e.shift k) := by
  unfold packReturn
  rw [Expr.isCall_shift]
  split <;> rfl

theorem shift_enclosed (e : Expr) : (enclosed e).shift k = enclosed (e.shift k) := by
  unfold enclosed
  rw [Expr.isBinary_shift]
  split <;> rfl

theorem shift_build (form : CallForm) (member : String) (r : Expr) (args : List Expr) :
    (form.build member r args).shift k =
      form.build member (r.shift k) (args.map (Expr.shift k)) := by
  cases form with
  | helper h => cases h <;> exact Expr.shift_call ..
  | operator op =>
    have hlast : (args.map (Expr.shift k)).getLastD .nil = (args.getLastD .nil).shift k := by
      rw [List.getLastD_eq_getLast?, List.getLastD_eq_getLast?, List.getLast?_map]
      cases args.getLast? <;> rfl
    rw [CallForm.build, CallForm.build, Expr.shift_paren, Expr.shift_arithmetic, shift_enclosed,
      hlast]
  | method name => exact Expr.shift_method ..
  | _ => exact Expr.shift_call ..

theorem shifted_useHelperOf (form : CallForm) :
    Shifted k (useHelperOf form) (useHelperOf form) := by
  unfold useHelperOf
  split
  · exact .useHelper _
  · exact .pure ()

theorem shifted_argument {info : Source.NodeInfo} {value : Lower Expr}
    (hv : Shifted k value value) :
    Shifted k (argument pool info value).lower (argument pool info value).lower :=
  (shifted_checkNotAny pool info).bind fun _ => hv

theorem shifted_spreadArgument {info : Source.NodeInfo} {isLast : Bool} {value : Lower Expr}
    (hv : Shifted k value value) :
    Shifted k (spreadArgument info isLast value).lower (spreadArgument info isLast value).lower := by
  cases isLast with
  | false => exact .fail _
  | true =>
    apply hv.bind
    intro v
    have h : (Expr.call (.ident "unpack") [v]).shift k = .call (.ident "unpack") [v.shift k] :=
      Expr.shift_call ..
    rw [renumber_expr, ← h]
    exact .pure _

theorem shifted_plainCall {ctx : CallContext} {info calleeInfo : Source.NodeInfo}
    {callee : Lower Expr} {args : List Operand} (hf : Shifted k callee callee)
    (ha : ∀ x ∈ args, Shifted k x.lower x.lower) :
    Shifted k (plainCall pool ctx info calleeInfo callee args)
      (plainCall pool ctx info calleeInfo callee args) := by
  have hall : ∀ x ∈ (⟨calleeInfo.span, callee⟩ : Operand) :: args, Shifted k x.lower x.lower :=
    List.forall_mem_cons.2 ⟨hf, ha⟩
  apply (shifted_checkNotAny pool calleeInfo).bind
  intro _
  apply (shifted_inOrderCons hall).bind
  rintro ⟨f, args⟩
  show Shifted k _ (pure (packReturn pool ctx info.ty
    (.call (f.shift k) (args.map (Expr.shift k)))))
  rw [← Expr.shift_call, ← shift_packReturn]
  exact .pure _

theorem shifted_superCall {ctx : CallContext} {info calleeInfo : Source.NodeInfo}
    {args : List Operand} (ha : ∀ x ∈ args, Shifted k x.lower x.lower) :
    Shifted k (superCall pool ctx info calleeInfo args)
      (superCall pool ctx info calleeInfo args) := by
  apply (shifted_checkNotAny pool calleeInfo).bind
  intro _
  apply Shifted.ofError_bind
  intro name
  apply (shifted_inOrder ha).bind
  intro args
  have hcall : (Expr.call (.property (.ident name) "constructor") (.ident "self" :: args)).shift k =
      .call (.property (.ident name) "constructor") (.ident "self" :: args.map (Expr.shift k)) :=
    Expr.shift_call ..
  show Shifted k _ (pure (packReturn pool ctx info.ty (.call (.property (.ident name) "constructor")
    (.ident "self" :: args.map (Expr.shift k)))))
  rw [← hcall, ← shift_packReturn]
  exact .pure _

theorem shifted_propertyCall {ctx : CallContext} {info calleeInfo : Source.NodeInfo}
    {object : Source.Expr} {member : String} {receiver : Lower Expr} {args : List Operand}
    (hr : Shifted k receiver receiver) (ha : ∀ x ∈ args, Shifted k x.lower x.lower) :
    Shifted k (propertyCall pool ctx info calleeInfo object member receiver args)
      (propertyCall pool ctx info calleeInfo object member receiver args) := by
  have hall : ∀ x ∈ (⟨object.span, receiver⟩ : Operand) :: args, Shifted k x.lower x.lower :=
    List.forall_mem_cons.2 ⟨hr, ha⟩
  rw [propertyCall_eq]
  apply (shifted_checkNotAny pool calleeInfo).bind
  intro _
  apply Shifted.ofError_bind
  intro form
  apply (shifted_inOrderCons hall).bind
  rintro ⟨r, args⟩
  apply (shifted_useHelperOf form).bind
  intro _
  show Shifted k _ (pure (packReturn pool ctx info.ty
    (form.build member (r.shift k) (args.map (Expr.shift k)))))
  rw [← shift_build, ← shift_packReturn]
  exact .pure _

/-! ### Patterns -/

/-- Destructuring assigns from the renumbered source what it assigns from the source. -/
def ShiftedPattern (k : Nat) (assign : Expr → SubType → Lower Unit) : Prop :=
  ∀ source ty, Shifted k (assign source ty) (assign (source.shift k) ty)

theorem shifted_indexableSource (span : Span) (ty : SubType) (source : Expr) :
    Shifted k (indexableSource pool span ty source)
      (indexableSource pool span ty (source.shift k)) := by
  unfold indexableSource
  split
  · exact .pure source
  · apply (Shifted.useHelper .array).bind
    intro _
    have h : (Expr.call (helperMember .array "from") [source]).shift k =
        .call (helperMember .array "from") [source.shift k] := Expr.shift_call ..
    rw [← h]
    exact shifted_pushTemp "value" span _

theorem shifted_assignPart {part : Source.Expr} {nested : Expr → SubType → Lower Unit}
    {target : Lower Reference} (hn : ShiftedPattern k nested) (ht : Shifted k target target)
    (slot : Expr) (ty : SubType) (index : SubIndex) :
    Shifted k (assignPart pool part nested (asPlaceExpr target) slot ty index)
      (assignPart pool part nested (asPlaceExpr target) (slot.shift k) ty index) := by
  unfold assignPart
  split
  · apply Shifted.ofFault_bind
    intro partTy
    apply (shifted_pushTemp "value" part.span slot).bind
    intro source
    exact hn source partTy
  · split
    · exact .pure ()
    · apply (shifted_asPlaceExpr ht).bind
      intro t
      exact .emit (.assign t slot)

theorem shifted_destructuring (span : Span) (ty : TypeId) {value : Lower Expr}
    {assign : Expr → SubType → Lower Unit} (hv : Shifted k value value)
    (ha : ShiftedPattern k assign) :
    Shifted k (destructuring span ty value assign) (destructuring span ty value assign) := by
  apply hv.bind
  intro v
  apply (shifted_pushTemp "value" span v).bind
  intro source
  apply (ha source (.single ty)).bind
  intro _
  exact .pure source

/-! ### Nodes -/

/-- What the induction over the source tree says of a node. -/
structure ShiftedNode (k : Nat) (pool : TypePool) (e : Source.Expr) : Prop where
  reference : Shifted k (reference pool e) (reference pool e)
  pattern : ShiftedPattern k fun source ty => destructure pool e source ty

theorem ShiftedNode.value {e : Source.Expr} (h : ShiftedNode k pool e) :
    Shifted k (value pool e) (value pool e) := shifted_asValue h.reference

theorem shifted_operands {es : List Source.Expr} (h : ∀ e ∈ es, ShiftedNode k pool e) :
    ∀ x ∈ operands pool es, Shifted k x.lower x.lower := by
  rw [operands_eq_map]
  simpa using fun e he => (h e he).value

theorem shifted_propertyOperands {ps : List (String × Source.Expr)}
    (h : ∀ p ∈ ps, ShiftedNode k pool p.2) :
    ∀ x ∈ propertyOperands pool ps, Shifted k x.lower x.lower := by
  rw [propertyOperands_eq_map]
  intro x hx
  obtain ⟨p, hp, rfl⟩ := List.mem_map.1 hx
  exact (h p hp).value

/-- An argument is lowered as it is, a spread one as what is spread. -/
theorem shifted_arguments {es : List Source.Expr} (h : ∀ e ∈ es, ShiftedNode k pool e)
    (hs : ∀ e ∈ es, ∀ c ∈ e.children, ShiftedNode k pool c) :
    ∀ x ∈ arguments pool es, Shifted k x.lower x.lower := by
  apply forall_mem_arguments
  · intro e he
    exact shifted_argument (h e he).value
  · rintro e he i inner rfl isLast
    exact shifted_spreadArgument (hs _ he inner List.mem_cons_self).value

theorem shifted_assignElements {es : List Source.Expr} (h : ∀ e ∈ es, ShiftedNode k pool e)
    (position : Nat) : ShiftedPattern k fun source ty => assignElements pool es position source ty := by
  intro source ty
  induction es generalizing position with
  | nil => exact .pure ()
  | cons e rest ih =>
    obtain ⟨he, hrest⟩ := List.forall_mem_cons.1 h
    apply (shifted_assignPart he.pattern he.reference (.index source (oneBased position)) ty
      (.position position)).bind
    intro _
    exact ih hrest (position + 1)

theorem shifted_assignProperties {ps : List (String × Source.Expr)}
    (h : ∀ p ∈ ps, ShiftedNode k pool p.2) :
    ShiftedPattern k fun source ty => assignProperties pool ps source ty := by
  intro source ty
  induction ps with
  | nil => exact .pure ()
  | cons p rest ih =>
    obtain ⟨hp, hrest⟩ := List.forall_mem_cons.1 h
    apply (shifted_assignPart hp.pattern hp.reference (.property source p.1) ty (.name p.1)).bind
    intro _
    exact ih hrest

theorem shifted_pattern {e : Source.Expr} (hc : ∀ c ∈ e.children, ShiftedNode k pool c) :
    ShiftedPattern k fun source ty => destructure pool e source ty := by
  intro source ty
  cases e with
  | array info es =>
    apply (shifted_indexableSource info.span ty source).bind
    intro source
    exact shifted_assignElements hc 0 source ty
  | object info ps =>
    have hps : ∀ p ∈ ps, ShiftedNode k pool p.2 := fun p hp =>
      hc p.2 (List.mem_map.2 ⟨p, hp, rfl⟩)
    exact shifted_assignProperties hps source ty
  | _ => exact .pure ()

theorem shifted_call {info : Source.NodeInfo} {callee : Source.Expr} {args : List Source.Expr}
    (hf : ShiftedNode k pool callee) (ho : ∀ c ∈ callee.children, ShiftedNode k pool c)
    (ha : ∀ e ∈ args, ShiftedNode k pool e)
    (hs : ∀ e ∈ args, ∀ c ∈ e.children, ShiftedNode k pool c) (ctx : CallContext) :
    Shifted k (call pool ctx (.call info callee args)) (call pool ctx (.call info callee args)) := by
  have hargs := shifted_arguments ha hs
  cases callee with
  | property calleeInfo object member =>
    exact shifted_propertyCall (ho object (by simp [Source.Expr.children])).value hargs
  | super calleeInfo => exact shifted_superCall hargs
  | _ => exact shifted_plainCall hf.value hargs

theorem shifted_binary {info : Source.NodeInfo} {op : Source.BinaryOp} {l r : Source.Expr}
    (hl : ShiftedNode k pool l) (hr : ShiftedNode k pool r) :
    Shifted k (value pool (.binary info op l r)) (value pool (.binary info op l r)) := by
  have pair : Shifted k (inOrderPair ⟨l.span, value pool l⟩ ⟨r.span, value pool r⟩)
      (inOrderPair ⟨l.span, value pool l⟩ ⟨r.span, value pool r⟩) :=
    shifted_inOrderPair hl.value hr.value
  have destructured := shifted_destructuring info.span r.ty hr.value hl.pattern
  cases op with
  | arithmetic op =>
    rw [value_arithmetic]
    apply pair.map
    intro p
    exact (shift_arithmetic op p.1 p.2 l.ty r.ty).symm
  | relation op =>
    rw [value_relation]
    apply pair.bind
    intro p
    exact shifted_relation op info.span p.1 p.2
  | loose op =>
    rw [value_loose]
    exact shifted_looseEquality op info.span
  | logical op =>
    rw [value_logical]
    exact shifted_shortCircuit hl.value hr.value
  | assign =>
    cases hp : l.isPattern with
    | true =>
      rw [value_pattern pool info l r _ rfl hp]
      exact destructured
    | false =>
      rw [value_assign pool info l r hp]
      exact shifted_assignValue hl.reference hr.value
  | assignWith op =>
    cases hp : l.isPattern with
    | true =>
      rw [value_pattern pool info l r _ rfl hp]
      exact destructured
    | false =>
      rw [value_assignWith pool info l r op hp]
      exact shifted_compoundValue hl.reference hr.value

theorem shifted_prefixed {info : Source.NodeInfo} {op : Source.PrefixOp} {e : Source.Expr}
    (h : ShiftedNode k pool e) :
    Shifted k (value pool (.prefixed info op e)) (value pool (.prefixed info op e)) := by
  cases op with
  | not =>
    rw [value_not]
    apply h.value.bind
    intro v
    exact (shifted_truthiness e.ty info.span v).map fun _ => rfl
  | neg =>
    rw [value_neg]
    exact h.value.map fun v => (shift_negate v).symm
  | plus =>
    rw [value_plus]
    exact h.value.map fun v => (Expr.shift_call k (.ident "tonumber") [v]).symm
  | bitNot =>
    rw [value_bitNot]
    exact h.value.map fun v => (Expr.shift_call k (libraryMember "bit32" "bnot") [v]).symm
  | update op =>
    rw [value_updateBefore]
    exact shifted_updateBefore h.reference

theorem shifted_node (k : Nat) (pool : TypePool) (e : Source.Expr) : ShiftedNode k pool e := by
  have all := Source.Expr.everywhere_of_forall (P := fun _ => True) (fun _ => trivial) e
  refine all.induct₂ (motive := ShiftedNode k pool) fun e _ hc hd => ⟨?_, shifted_pattern hc⟩
  cases e with
  | ident | this | number | string | bool | undefined | error => exact .pure _
  | super info =>
    apply shifted_asReference
    rw [map_eq_pure_bind]
    exact .ofError_bind fun name => .pure (Expr.ident name)
  | paren info inner => exact (hc inner List.mem_cons_self).reference.map fun _ => rfl
  | spread info inner => exact .fail _
  | property info object name =>
    apply (hc object List.mem_cons_self).value.bind
    intro o
    exact .pure (Reference.plain (.property o name))
  | element info object index =>
    have ho := (hc object List.mem_cons_self).value
    have hi := (hc index (List.mem_cons_of_mem _ List.mem_cons_self)).value
    apply (shifted_inOrderPair ho hi).bind
    rintro ⟨o, i⟩
    show Shifted k _ (pure (Reference.plain (.index (o.shift k) (shiftIndex pool object.ty (i.shift k)))))
    rw [← shift_shiftIndex]
    exact .pure (Reference.plain (.index o (shiftIndex pool object.ty i)))
  | call info callee args =>
    obtain ⟨hf, ha⟩ := List.forall_mem_cons.1 hc
    obtain ⟨ho, hs⟩ := List.forall_mem_cons.1 hd
    rw [reference_call]
    exact shifted_asReference (shifted_call hf ho ha hs .value)
  | binary info op l r =>
    rw [reference_binary]
    exact shifted_asReference (shifted_binary (hc l (by simp [Source.Expr.children]))
      (hc r (by simp [Source.Expr.children])))
  | prefixed info op inner =>
    rw [reference_prefixed]
    exact shifted_asReference (shifted_prefixed (hc inner (by simp [Source.Expr.children])))
  | postfixed info op inner =>
    rw [reference_postfixed, value_updateAfter]
    exact shifted_asReference (shifted_updateAfter (hc inner (by simp [Source.Expr.children])).reference)
  | array info es =>
    apply (shifted_inOrder (shifted_operands hc)).bind
    intro vs
    show Shifted k _ (pure (Reference.ofExpr (.table ((vs.map (Expr.shift k)).map .positional))))
    rw [← Expr.shift_positional]
    exact .pure (Reference.ofExpr (.table (vs.map .positional)))
  | object info ps =>
    have hps : ∀ p ∈ ps, ShiftedNode k pool p.2 := fun p hp =>
      hc p.2 (List.mem_map.2 ⟨p, hp, rfl⟩)
    apply (shifted_inOrder (shifted_propertyOperands hps)).bind
    intro vs
    show Shifted k _ (pure (Reference.ofExpr (.table (List.zipWith .named (ps.map (·.1))
      (vs.map (Expr.shift k))))))
    rw [← Expr.shift_named]
    exact .pure (Reference.ofExpr (.table (List.zipWith .named (ps.map (·.1)) vs)))

/-! ### Statements -/

theorem discard_shift (e : Expr) : discard (e.shift k) = renumber k (discard e) := by
  unfold discard
  rw [Expr.isCall_shift, Expr.isIdentifier_shift]
  split
  · rfl
  · split <;> rfl

end ScriptLowering.Lower
