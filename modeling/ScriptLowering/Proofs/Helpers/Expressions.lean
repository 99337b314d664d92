import ScriptLowering.Proofs.Calls.Forms
import ScriptLowering.Proofs.Helpers.Operations
import ScriptLowering.Proofs.Source.Everywhere

/-!
# Flags of expressions

No name of the source being the support library, an expression is lowered from
nothing to what refers to the namespaces that it flags.  A call in its form refers
to what the receiver and the arguments do and to the namespace of the form; a
receiver that the form drops refers to nothing.

    refers h (form.build m r args) ↔ form.helper? = some h ∨ refers h (r, args)   (refers_build)
    the parts of a node flagged → the node flagged                             (flagged_node)
-/

namespace ScriptLowering

open Target (Expr Stmt)
open Refers (refers proper)

namespace Source.Expr

/-! ## Algorithm -/

/-- The node does not stand for a name that is the support library's. -/
def AvoidsLibrary (pool : TypePool) : Expr → Prop
  | ident _ name => name ≠ "TS"
  | super info => pool.symbolName? info.ty ≠ some "TS"
  | _ => True

/-- What is asked of each node so that the library is named by helpers only, and
no receiver is dropped that could name it. -/
structure KeepsHelpers (pool : TypePool) (e : Expr) : Prop where
  library : e.AvoidsLibrary pool
  constructor : e.HasNamedConstructor pool

end Source.Expr

namespace Lower

/-- From a temporary, destructuring refers to the namespaces that it flags. -/
def FlaggedPattern (h : Helper) (assign : Expr → SubType → Lower Unit) : Prop :=
  ∀ id ty, Flagged h (assign (.temp id) ty) False

/-- What the induction over the source tree says of a node. -/
structure FlaggedNode (h : Helper) (pool : TypePool) (e : Source.Expr) : Prop where
  library : e.AvoidsLibrary pool
  reference : Flagged h (reference pool e) False
  pattern : FlaggedPattern h fun source ty => destructure pool e source ty

/-! ## Lemmas -/

variable {h : Helper} {p : Prop} {pool : TypePool} {span : Span}

theorem FlaggedNode.value {e : Source.Expr} (hn : FlaggedNode h pool e) :
    Flagged h (value pool e) False := flagged_asValue hn.reference

/-! ### Calls -/

theorem proper_superClass {info : Source.NodeInfo} {name : String}
    (hs : (Source.Expr.super info).AvoidsLibrary pool)
    (hn : superClass pool info.ty span = .ok name) : proper (Expr.ident name) := by
  unfold superClass at hn
  split at hn
  next heq =>
    cases hn
    exact beq_eq_false_iff_ne.2 fun hname => hs (heq.trans (congrArg some hname))
  next => cases hn

theorem refers_enclosed (e : Expr) : refers h (enclosed e) ↔ refers h e := by
  unfold enclosed
  split <;> exact .rfl

theorem proper_build (form : CallForm) (member : String) (r : Expr) (args : List Expr) :
    proper (form.build member r args) := by
  cases form with
  | helper k => cases k <;> rfl
  | _ => rfl

/-- A call in its form refers to what its operands do, and to the namespace of the form. -/
theorem refers_build {form : CallForm} {member : String} {r : Expr} {args : List Expr}
    (hr : proper r) (hdrop : form.dropsReceiver → r.isSimple)
    (hclass : ∀ name, form = .superMethod name → proper (Expr.ident name))
    (hop : ∀ op, form = .operator op → args.length = 1) :
    refers h (form.build member r args) ↔ form.helper? = some h ∨ refers h (r, args) := by
  have dropped (hd : form.dropsReceiver) : refers h r ↔ False :=
    Expr.not_refers_of_isSimple (hdrop hd)
  rw [refers_pair]
  cases form with
  | helper k =>
    have hk := refers_helperMember (h := h) k member
    cases k
    case object => simp [CallForm.build, CallForm.helper?, hk, dropped rfl]
    all_goals simp [CallForm.build, CallForm.helper?, hk]
  | nativeString => simp [CallForm.build, CallForm.helper?, refers_libraryMember]
  | method name => simp [CallForm.build, CallForm.helper?]
  | field name => simp [CallForm.build, CallForm.helper?, Expr.refers_property hr]
  | superMethod name =>
    have hindex : refers h (Expr.property (.property (.ident name) "__index") member) ↔ False := by
      rw [Expr.refers_property rfl, Expr.refers_property (hclass name rfl), Expr.refers_ident]
    simp [CallForm.build, CallForm.helper?, hindex, dropped rfl]
  | operator op =>
    obtain ⟨a, rfl⟩ := List.length_eq_one_iff.1 (hop op rfl)
    simp [CallForm.build, CallForm.helper?, Expr.arithmetic, refers_enclosed]

theorem flagged_useHelperOf_bind {β : Type} [Refers β] {form : CallForm} {f : Unit → Lower β}
    (hf : Flagged h (f ()) (form.helper? = some h ∨ p)) :
    Flagged h (useHelperOf form >>= f) p := by
  unfold useHelperOf
  cases hform : form.helper? with
  | some k =>
    apply Flagged.useHelper_bind
    exact hf.congr (by rw [hform, Option.some_inj])
  | none =>
    rw [pure_bind]
    exact hf.congr (by simp [hform])

theorem flagged_superCall {ctx : CallContext} {info calleeInfo : Source.NodeInfo}
    {args : List Operand} (hs : (Source.Expr.super calleeInfo).AvoidsLibrary pool)
    (ha : ∀ x ∈ args, Flagged h x.lower False) :
    Flagged h (superCall pool ctx info calleeInfo args) False := by
  apply (flagged_checkNotAny pool calleeInfo).bind
  intro _ _
  apply Flagged.ofError_bind
  intro name hname
  apply (flagged_inOrder ha).bind
  intro args _
  refine .pure (proper_packReturn ctx info.ty rfl) ?_
  rw [refers_packReturn, Expr.refers_call, Expr.refers_property (proper_superClass hs hname)]
  simp

theorem flagged_propertyCall {ctx : CallContext} {info calleeInfo : Source.NodeInfo}
    {object : Source.Expr} {member : String} {args : List Operand}
    (hn : FlaggedNode h pool object)
    (hnamed : pool.symbolName? object.ty = some "ObjectConstructor" → object.name?.isSome)
    (ha : ∀ x ∈ args, Flagged h x.lower False) :
    Flagged h (propertyCall pool ctx info calleeInfo object member (value pool object) args)
      False := by
  have hall : ∀ x ∈ (⟨object.span, value pool object⟩ : Operand) :: args, Flagged h x.lower False :=
    List.forall_mem_cons.2 ⟨hn.value, ha⟩
  rw [propertyCall_eq]
  apply (flagged_checkNotAny pool calleeInfo).bind
  intro _ _
  apply Flagged.ofError_bind
  intro form hform
  obtain ⟨hop, hsuper, -⟩ := resolve_eq_ok hform
  apply (flagged_inOrderCons hall).bind_ok
  rintro n ⟨r, as⟩ e hok ⟨hr, -⟩
  apply flagged_useHelperOf_bind
  refine .pure (proper_packReturn ctx info.ty (proper_build ..)) ?_
  rw [refers_packReturn]
  refine refers_build hr (fun hd => ?_) ?_ ?_
  · exact isSimple_fst_of_inOrderCons (isSimple_of_dropsReceiver hform hnamed hd) hok
  · rintro name rfl
    obtain ⟨i, rfl, hname⟩ := hsuper name rfl
    exact proper_superClass hn.library hname
  · rintro op rfl
    have hlen : as.length = args.length := by simpa using length_of_inOrder (inOrderCons_eq_ok hok)
    rw [hlen, hop op rfl]

/-! ### Patterns -/

/-- The source of a pattern is a temporary, as it is or converted to an array. -/
theorem flagged_indexableSource_bind {f : Expr → Lower Unit}
    (hf : ∀ id, Flagged h (f (.temp id)) False) (ty : SubType) (id : Nat) :
    Flagged h (indexableSource pool span ty (.temp id) >>= f) False := by
  unfold indexableSource
  split
  · rw [pure_bind]
    exact hf id
  · rw [bind_assoc]
    apply Flagged.useHelper_bind
    exact (Flagged.pushTemp_bind hf).congr (by simp [refers_helperMember])

theorem flagged_assignPart {part : Source.Expr} {nested : Expr → SubType → Lower Unit}
    {target : Lower Expr} {slot : Expr} {ty : SubType} {index : SubIndex}
    (hn : FlaggedPattern h nested) (ht : Flagged h target False) (hs : refers h slot ↔ False) :
    Flagged h (assignPart pool part nested target slot ty index) False := by
  unfold assignPart
  split
  · apply Flagged.ofFault_bind
    intro partTy _
    exact (Flagged.pushTemp_bind fun id => hn id partTy).congr (by rw [hs, or_self])
  · split
    · exact .pure trivial .rfl
    · apply ht.bind
      intro t _
      exact (flagged_emit (.assign t slot)).congr (by rw [Stmt.refers_assign, hs, or_false])

theorem flagged_destructuring {ty : TypeId} {value : Lower Expr}
    {assign : Expr → SubType → Lower Unit} (hv : Flagged h value False)
    (ha : FlaggedPattern h assign) : Flagged h (destructuring span ty value assign) False := by
  apply hv.bind
  intro v _
  have rest (id : Nat) : Flagged h (assign (.temp id) (.single ty) >>= fun _ =>
      pure (Expr.temp id)) False := by
    have result : Flagged h (pure (Expr.temp id)) False := .pure rfl (Expr.refers_temp id)
    exact ((ha id (.single ty)).bind_unit result).congr or_self_iff
  exact (Flagged.pushTemp_bind rest).congr (by rw [false_or])

/-! ### Nodes -/

theorem flagged_operands {es : List Source.Expr} (hes : ∀ e ∈ es, FlaggedNode h pool e) :
    ∀ x ∈ operands pool es, Flagged h x.lower False := by
  rw [operands_eq_map]
  simpa using fun e he => (hes e he).value

theorem flagged_propertyOperands {ps : List (String × Source.Expr)}
    (hps : ∀ p ∈ ps, FlaggedNode h pool p.2) :
    ∀ x ∈ propertyOperands pool ps, Flagged h x.lower False := by
  rw [propertyOperands_eq_map]
  intro x hx
  obtain ⟨p, hp, rfl⟩ := List.mem_map.1 hx
  exact (hps p hp).value

/-- An argument is lowered as it is, a spread one as what is spread. -/
theorem flagged_arguments {es : List Source.Expr} (hes : ∀ e ∈ es, FlaggedNode h pool e)
    (hs : ∀ e ∈ es, ∀ c ∈ e.children, FlaggedNode h pool c) :
    ∀ x ∈ arguments pool es, Flagged h x.lower False := by
  apply forall_mem_arguments
  · intro e he
    exact flagged_argument (hes e he).value
  · rintro e he i inner rfl isLast
    exact flagged_spreadArgument (hs _ he inner List.mem_cons_self).value

theorem flagged_assignElements {es : List Source.Expr} (hes : ∀ e ∈ es, FlaggedNode h pool e)
    (position : Nat) :
    FlaggedPattern h fun source ty => assignElements pool es position source ty := by
  intro id ty
  induction es generalizing position with
  | nil => exact .pure trivial .rfl
  | cons e rest ih =>
    obtain ⟨he, hrest⟩ := List.forall_mem_cons.1 hes
    have first : Flagged h (assignPart pool e (fun source ty => destructure pool e source ty)
        (asPlaceExpr (reference pool e)) (.index (.temp id) (oneBased position)) ty
        (.position position)) False :=
      flagged_assignPart he.pattern (flagged_asPlaceExpr he.reference) (by simp [oneBased])
    exact (first.bind_unit (ih hrest (position + 1))).congr or_self_iff

theorem flagged_assignProperties {ps : List (String × Source.Expr)}
    (hps : ∀ p ∈ ps, FlaggedNode h pool p.2) :
    FlaggedPattern h fun source ty => assignProperties pool ps source ty := by
  intro id ty
  induction ps with
  | nil => exact .pure trivial .rfl
  | cons p rest ih =>
    obtain ⟨hp, hrest⟩ := List.forall_mem_cons.1 hps
    have slot : refers h (Expr.property (.temp id) p.1) ↔ False :=
      (Expr.refers_property rfl p.1).trans (Expr.refers_temp id)
    have first : Flagged h (assignPart pool p.2 (fun source ty => destructure pool p.2 source ty)
        (asPlaceExpr (reference pool p.2)) (.property (.temp id) p.1) ty (.name p.1)) False :=
      flagged_assignPart hp.pattern (flagged_asPlaceExpr hp.reference) slot
    exact (first.bind_unit (ih hrest)).congr or_self_iff

theorem flagged_pattern {e : Source.Expr} (hc : ∀ c ∈ e.children, FlaggedNode h pool c) :
    FlaggedPattern h fun source ty => destructure pool e source ty := by
  intro id ty
  cases e with
  | array info es =>
    exact flagged_indexableSource_bind (fun id => flagged_assignElements hc 0 id ty) ty id
  | object info ps =>
    have hps : ∀ p ∈ ps, FlaggedNode h pool p.2 := fun p hp =>
      hc p.2 (List.mem_map.2 ⟨p, hp, rfl⟩)
    exact flagged_assignProperties hps id ty
  | _ => exact .pure trivial .rfl

theorem flagged_call {info : Source.NodeInfo} {callee : Source.Expr} {args : List Source.Expr}
    (hnamed : (Source.Expr.call info callee args).HasNamedConstructor pool)
    (hf : FlaggedNode h pool callee) (ho : ∀ c ∈ callee.children, FlaggedNode h pool c)
    (ha : ∀ e ∈ args, FlaggedNode h pool e)
    (hs : ∀ e ∈ args, ∀ c ∈ e.children, FlaggedNode h pool c) (ctx : CallContext) :
    Flagged h (call pool ctx (.call info callee args)) False := by
  have hargs := flagged_arguments ha hs
  cases callee with
  | property calleeInfo object member =>
    exact flagged_propertyCall (ho object (by simp [Source.Expr.children])) hnamed hargs
  | super calleeInfo => exact flagged_superCall hf.library hargs
  | _ => exact flagged_plainCall hf.value hargs

theorem flagged_binary {info : Source.NodeInfo} {op : Source.BinaryOp} {l r : Source.Expr}
    (hl : FlaggedNode h pool l) (hr : FlaggedNode h pool r) :
    Flagged h (value pool (.binary info op l r)) False := by
  have pair : Flagged h (inOrderPair ⟨l.span, value pool l⟩ ⟨r.span, value pool r⟩) False :=
    flagged_inOrderPair hl.value hr.value
  have destructured : Flagged h (destructuring info.span r.ty (value pool r)
      fun source ty => destructure pool l source ty) False :=
    flagged_destructuring hr.value hl.pattern
  cases op with
  | arithmetic op =>
    rw [value_arithmetic]
    apply pair.map
    rintro ⟨a, b⟩ -
    exact ⟨proper_operation op ⟨a, l.ty⟩ ⟨b, r.ty⟩, refers_operation op ⟨a, l.ty⟩ ⟨b, r.ty⟩⟩
  | relation op =>
    rw [value_relation]
    apply pair.bind
    rintro ⟨a, b⟩ ⟨ha, -⟩
    exact flagged_relation op ha
  | loose op =>
    rw [value_loose]
    exact flagged_looseEquality op
  | logical op =>
    rw [value_logical]
    exact flagged_shortCircuit hl.value hr.value
  | assign =>
    cases hp : l.isPattern with
    | true =>
      rw [value_pattern pool info l r _ rfl hp]
      exact destructured
    | false =>
      rw [value_assign pool info l r hp]
      exact flagged_assignValue hl.reference hr.value
  | assignWith op =>
    cases hp : l.isPattern with
    | true =>
      rw [value_pattern pool info l r _ rfl hp]
      exact destructured
    | false =>
      rw [value_assignWith pool info l r op hp]
      exact flagged_compoundValue hl.reference hr.value

theorem flagged_prefixed {info : Source.NodeInfo} {op : Source.PrefixOp} {e : Source.Expr}
    (hn : FlaggedNode h pool e) : Flagged h (value pool (.prefixed info op e)) False := by
  cases op with
  | not =>
    rw [value_not]
    apply hn.value.bind
    intro v hv
    exact (flagged_truthiness e.ty hv).map fun c _ => ⟨rfl, Expr.refers_unary .not⟩
  | neg =>
    rw [value_neg]
    exact hn.value.map fun v _ => ⟨proper_negate v, refers_negate v⟩
  | plus =>
    rw [value_plus]
    exact hn.value.map fun v _ => ⟨rfl, by simp⟩
  | bitNot =>
    rw [value_bitNot]
    exact hn.value.map fun v _ => ⟨rfl, by simp [refers_libraryMember]⟩
  | update op =>
    rw [value_updateBefore]
    exact flagged_updateBefore hn.reference

theorem flagged_node (h : Helper) {e : Source.Expr}
    (he : e.Everywhere (Source.Expr.KeepsHelpers pool)) : FlaggedNode h pool e := by
  refine he.induct₂ (motive := FlaggedNode h pool) fun e hkeeps hc hd =>
    ⟨hkeeps.library, ?_, flagged_pattern hc⟩
  cases e with
  | ident info name =>
    exact .pure (beq_eq_false_iff_ne.2 hkeeps.library) (Expr.refers_ident name)
  | this => exact .pure rfl (Expr.refers_ident "self")
  | number info n => exact .pure rfl (Expr.refers_number n)
  | string info s => exact .pure rfl (Expr.refers_string s)
  | bool info b => exact .pure rfl (Expr.refers_bool b)
  | undefined => exact .pure rfl Expr.refers_nilExpr
  | error => exact .pure rfl Expr.refers_placeholder
  | super info =>
    apply flagged_asReference
    rw [map_eq_pure_bind]
    apply Flagged.ofError_bind
    intro name hname
    exact .pure (proper_superClass hkeeps.library hname) (Expr.refers_ident name)
  | paren info inner => exact (hc inner List.mem_cons_self).reference.map fun _ hr => ⟨hr, .rfl⟩
  | spread info inner => exact .fail _
  | property info object name =>
    apply (hc object List.mem_cons_self).value.bind
    intro o ho
    exact .pure ho .rfl
  | element info object index =>
    have ho := (hc object List.mem_cons_self).value
    have hi := (hc index (List.mem_cons_of_mem _ List.mem_cons_self)).value
    apply (flagged_inOrderPair ho hi).bind
    rintro ⟨o, i⟩ ⟨ho, hi⟩
    exact .pure ⟨ho, proper_shiftIndex object.ty hi⟩
      (or_congr_right (refers_shiftIndex object.ty i))
  | call info callee args =>
    obtain ⟨hf, ha⟩ := List.forall_mem_cons.1 hc
    obtain ⟨ho, hs⟩ := List.forall_mem_cons.1 hd
    rw [reference_call]
    exact flagged_asReference (flagged_call hkeeps.constructor hf ho ha hs .value)
  | binary info op l r =>
    rw [reference_binary]
    exact flagged_asReference (flagged_binary (hc l (by simp [Source.Expr.children]))
      (hc r (by simp [Source.Expr.children])))
  | prefixed info op inner =>
    rw [reference_prefixed]
    exact flagged_asReference (flagged_prefixed (hc inner (by simp [Source.Expr.children])))
  | postfixed info op inner =>
    rw [reference_postfixed, value_updateAfter]
    exact flagged_asReference
      (flagged_updateAfter (hc inner (by simp [Source.Expr.children])).reference)
  | array info es =>
    apply (flagged_inOrder (flagged_operands hc)).bind
    intro vs _
    exact .pure rfl (Expr.refers_positional vs)
  | object info ps =>
    have hps : ∀ p ∈ ps, FlaggedNode h pool p.2 := fun p hp =>
      hc p.2 (List.mem_map.2 ⟨p, hp, rfl⟩)
    apply (flagged_inOrder (flagged_propertyOperands hps)).bind_ok
    intro n vs e hok _
    have hlen := length_of_inOrder hok
    rw [propertyOperands_eq_map, List.length_map] at hlen
    exact .pure rfl (Expr.refers_named (by rw [List.length_map, hlen]))

end Lower

end ScriptLowering
