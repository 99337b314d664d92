import ScriptLowering.Lowering.Expr
import ScriptLowering.Proofs.Lowering.Nodes
import ScriptLowering.Proofs.Walk.Walker

/-!
# Walks over calls

Operands and calls whose parts are walked as they are lowered.  The receiver is
the first of the operands, so it can be taken off their list, and a call of a
method of the parent finds the name that its receiver was lowered to.

    parts covered → callOperands, then the receiver off the front = inOrderCons  (callOperands_some)
    parts covered → call ctx info callee args = lift (call ctx (callee(args)))     (call_eq)
-/

namespace ScriptLowering.Walk

open Lower (CallContext CallForm)
open Source (ListRange Node NodeInfo PropertyNode)
open Target (Expr)

/-! ## Lemmas -/

/-- The code of a property call in its form. -/
def formed (form : CallForm) (member : String) (r : Expr) (args : List Expr) : Lower Expr := do
  if let some h := form.helper? then Lower.useHelper h
  return form.build member r args

section Forms

variable {pool : TypePool} {span : Span}

theorem superClass_of_name {ty : TypeId} {name : String} (h : pool.symbolName? ty = some name) :
    Lower.superClass pool ty span = .ok name := by
  rw [Lower.superClass, h]

theorem superClass_of_none {ty : TypeId} (h : pool.symbolName? ty = none) :
    Lower.superClass pool ty span = .error (.unresolvedCallee span "super") := by
  rw [Lower.superClass, h]

/-- A receiver whose class has no name stops at its own node. -/
theorem value_super_of_none {info : NodeInfo} (h : pool.symbolName? info.ty = none) :
    Lower.value pool (.super info) = Lower.stop (.error (.unresolvedCallee info.span "super")) := by
  rw [Lower.value_super, superClass_of_none h]
  rfl

end Forms

section Writing

variable {f : NamedFile} {a : ExprId}

theorem writeCall_helper (h : Helper) (span : Span) (member : String) (r : Expr)
    (args : List Expr) :
    writeCall f (.helper h) none span a member r args =
      lift (formed (.helper h) member r args) := by
  have written : writeCall f (.helper h) none span a member r args =
      useHelper h >>= fun _ => pure (CallForm.build (.helper h) member r args) := by
    rw [writeCall]
    refine bind_congr fun _ => ?_
    cases h <;> simp only [reduceCtorEq, if_false, if_true, insertAt_zero, pure_bind] <;> rfl
  have formed_eq : formed (.helper h) member r args =
      Lower.useHelper h >>= fun _ => pure (CallForm.build (.helper h) member r args) := rfl
  simp only [written, formed_eq, useHelper_eq, lift_bind, lift_pure]

theorem writeCall_nativeString (span : Span) (member : String) (r : Expr) (args : List Expr) :
    writeCall f .nativeString none span a member r args =
      lift (formed .nativeString member r args) := by
  simp only [writeCall, insertAt_zero, pure_bind]
  exact (lift_pure _).symm

variable {n : Node} (hn : f.arena.node? a = some n)

include hn

theorem writeCall_method (hk : n.kind ≠ .super) (span : Span) (member : String) (r : Expr)
    (args : List Expr) :
    writeCall f .generic (some true) span a member r args =
      lift (formed (.method member) member r args) := by
  rw [writeCall, if_pos rfl, node_bind hn]
  split
  next h => exact absurd h hk
  next => exact (lift_pure _).symm

theorem writeCall_super (htypes : f.types.WellFormed) (hk : n.kind = .super) {name : String}
    (hname : f.types.pool.symbolName? (f.types.typeOf a) = some name) (span : Span)
    (member : String) (r : Expr) (args : List Expr) :
    writeCall f .generic (some true) span a member r args =
      lift (formed (.superMethod name) member r args) := by
  rw [writeCall, if_pos rfl, node_bind hn, hk]
  simp only [superClass_eq (htypes.holds_typeOf a), superClass_of_name hname, Lower.ofError,
    lift_pure, pure_bind, insertAt_zero]
  exact (lift_pure _).symm

end Writing

/-- The walks over the node do as lowering does on its tree. -/
structure Follows (f : NamedFile) (w : Walker) (e : ExprId) (t : Source.Expr) : Prop where
  value : w.value e = lift (Lower.value f.types.pool t)
  place : w.place e = lift (Lower.asPlace (Lower.reference f.types.pool t))
  pattern (ht : t.isPattern) (source : Expr) {ty : SubType} (hty : f.types.pool.HoldsSubType ty) :
    w.pattern e source ty = lift (Lower.destructure f.types.pool t source ty)

/-- The walks over the nodes before the bound do as lowering does. -/
def Covers (f : NamedFile) (w : Walker) (bound : Nat) : Prop :=
  ∀ ⦃e : ExprId⦄ ⦃t : Source.Expr⦄, e.index < bound → f.Reads e t → Follows f w e t

section WellFormed

variable {f : NamedFile} (hf : f.toFile.WellFormed) (htypes : f.types.WellFormed)
variable {w : Walker} {bound : Nat} (hw : Covers f w bound)

/-! ### Operands -/

include hf hw in
theorem lowers_operands {ids : List ExprId} {ts : List Source.Expr}
    (h : List.Forall₂ f.Reads ids ts) (hlt : ∀ c ∈ ids, c.index < bound) (k : Nat) :
    Lowers f (fun _ => w.value) k ids (Lower.operands f.types.pool ts) := by
  induction h generalizing k with
  | nil => exact .nil
  | cons hr _ ih =>
    obtain ⟨hc, hrest⟩ := List.forall_mem_cons.1 hlt
    obtain ⟨n, hn⟩ := hr.node hf
    exact .cons hn.node hn.span (hw hc hr).value (ih hrest (k + 1))

include hf hw in
theorem lowers_propertyOperands {ps : List PropertyNode} {ts : List (String × Source.Expr)}
    (h : List.Forall₂ (fun p t => p.name = t.1 ∧ f.Reads p.value t.2) ps ts)
    (hlt : ∀ c ∈ ps.map (·.value), c.index < bound) (k : Nat) :
    Lowers f (fun _ => w.value) k (ps.map (·.value)) (Lower.propertyOperands f.types.pool ts) := by
  induction h generalizing k with
  | nil => exact .nil
  | cons hr _ ih =>
    obtain ⟨hc, hrest⟩ := List.forall_mem_cons.1 hlt
    obtain ⟨n, hn⟩ := hr.2.node hf
    exact .cons hn.node hn.span (hw hc hr.2).value (ih hrest (k + 1))

variable {a b : ExprId} {t u : Source.Expr}

include hf hw in
theorem pair_eq (ha : a.index < bound) (hb : b.index < bound) (hat : f.Reads a t)
    (hbu : f.Reads b u) :
    pair f w a b = lift (Lower.inOrderPair ⟨t.span, Lower.value f.types.pool t⟩
      ⟨u.span, Lower.value f.types.pool u⟩) := by
  have operands := lowers_operands hf hw (.cons hat (.cons hbu .nil))
    (List.forall_mem_cons.2 ⟨ha, List.forall_mem_singleton.2 hb⟩) 0
  rw [pair, inOrder_eq operands]
  exact pairOf_inOrder _ _

include hf htypes hw in
theorem element_eq (ha : a.index < bound) (hb : b.index < bound) (hat : f.Reads a t)
    (hbu : f.Reads b u) :
    element f w a b =
      lift ((fun p => (p.1, Lower.shiftIndex f.types.pool t.ty p.2)) <$>
        Lower.inOrderPair ⟨t.span, Lower.value f.types.pool t⟩
          ⟨u.span, Lower.value f.types.pool u⟩) := by
  obtain ⟨n, hn⟩ := hat.node hf
  have hshift := shiftIndex_eq htypes.pool (htypes.holds_typeOf a)
  rw [hn.ty] at hshift
  simp only [element, pair_eq hf hw ha hb hat hbu, hn.ty, check_bind_ok (hshift _),
    map_eq_pure_bind, lift_bind, lift_pure]

/-! ### Calls -/

include hf htypes hw in
/-- Only the last argument ends the list of operands. -/
theorem lowers_arguments {ids : List ExprId} {ts : List Source.Expr}
    (h : List.Forall₂ f.Reads ids ts) (hlt : ∀ c ∈ ids, c.index < bound) {first last k : Nat}
    (hk : first ≤ k) (hlast : last = k + ids.length - 1) :
    Lowers f (callOperand f w first last) k ids (Lower.arguments f.types.pool ts) := by
  induction h generalizing k with
  | nil => exact .nil
  | @cons c t ids ts hr hrs ih =>
    obtain ⟨hc, hrest⟩ := List.forall_mem_cons.1 hlt
    obtain ⟨⟨kind, span⟩, hn⟩ := hr.node hf
    have rest := ih hrest (k := k + 1) (by omega) (by simp only [List.length_cons] at hlast; omega)
    have hfirst : ¬k < first := by omega
    have isLast : ts.isEmpty = decide (k = last) := by
      have hlength := hrs.length_eq
      cases ts <;> simp_all
    have info : infoOf f c ⟨kind, span⟩ = t.info := hn.grows.info_eq.symm
    have plain : (do checkNotAny f.types.pool (infoOf f c ⟨kind, span⟩); w.value c) =
        lift (Lower.argument f.types.pool t.info (Lower.value f.types.pool t)).lower := by
      have hc' : f.types.pool.Holds t.info.ty := info ▸ htypes.holds_typeOf c
      rw [info, checkNotAny_eq hc', (hw hc hr).value, ← lift_bind]
      rfl
    cases hn.grows with
    | @spread inner t' hinner =>
      have hlt := Nat.lt_trans (hn.lt [inner] rfl inner List.mem_cons_self) hc
      refine .cons hn.node rfl ?_ rest
      rw [callOperand, if_neg hfirst, node_bind hn.node, isLast]
      simp only [(hw hlt hinner).value, Lower.spreadArgument, decide_eq_true_eq]
      split
      · simp only [lift_bind, lift_pure]
        rfl
      · exact fail_eq _
    | _ =>
      refine .cons hn.node rfl ?_ rest
      rw [callOperand, if_neg hfirst, node_bind hn.node]
      exact plain

section Operands

variable {ids : List ExprId} {ts : List Source.Expr} (hs : List.Forall₂ f.Reads ids ts)
  (hlt : ∀ c ∈ ids, c.index < bound)

include hf htypes hw hs hlt

theorem callOperands_none :
    callOperands f w none ids = lift (Lower.inOrder (Lower.arguments f.types.pool ts)) :=
  inOrder_eq (lowers_arguments hf htypes hw hs hlt (Nat.le_refl 0) (by simp))

variable (ha : a.index < bound) (hat : f.Reads a t)

include ha hat

theorem callOperands_some :
    callOperands f w (some a) ids >>= removeAt 0 =
      lift (Lower.inOrderCons ⟨t.span, Lower.value f.types.pool t⟩
        (Lower.arguments f.types.pool ts)) := by
  obtain ⟨n, hn⟩ := hat.node hf
  have args : Lowers f (callOperand f w 1 ids.length) 1 ids (Lower.arguments f.types.pool ts) :=
    lowers_arguments hf htypes hw hs hlt (Nat.le_refl 1) (by omega)
  have operands : Lowers f (callOperand f w 1 ids.length) 0 (a :: ids)
      (⟨t.span, Lower.value f.types.pool t⟩ :: Lower.arguments f.types.pool ts) :=
    .cons hn.node hn.span ((if_pos Nat.zero_lt_one).trans (hw ha hat).value) args
  rw [← removeAt_inOrder]
  exact congrArg (· >>= removeAt 0) (inOrder_eq operands)

theorem plainCall_eq :
    plainCall f w a ids =
      lift ((fun p => .call p.1 p.2) <$> Lower.inOrderCons ⟨t.span, Lower.value f.types.pool t⟩
        (Lower.arguments f.types.pool ts)) := by
  rw [plainCall, ← bind_assoc, callOperands_some hf htypes hw hs hlt ha hat, lift_map,
    map_eq_pure_bind]

omit ha hat in
theorem superCall_eq {ty : TypeId} (hty : f.types.pool.Holds ty) (span : Span) :
    superCall f w span ty ids = lift (do
      let className ← Lower.ofError (Lower.superClass f.types.pool ty span)
      let args ← Lower.inOrder (Lower.arguments f.types.pool ts)
      return .call (.property (.ident className) "constructor") (.ident "self" :: args)) := by
  simp only [superCall, superClass_eq hty, callOperands_none hf htypes hw hs hlt, insertAt_zero,
    pure_bind, lift_bind, lift_pure]

/-- The call is written, by its rule, in its form. -/
theorem writeCall_eq {rule : CallRule} {isMethod : Option Bool} {span : Span} {member : String}
    {form : CallForm}
    (h : ∀ r args,
      writeCall f rule isMethod span a member r args = lift (formed form member r args)) :
    (do
      let operands ← callOperands f w (some a) ids
      let (receiver, args) ← removeAt 0 operands
      writeCall f rule isMethod span a member receiver args) = lift (do
        let (r, args) ← Lower.inOrderCons ⟨t.span, Lower.value f.types.pool t⟩
          (Lower.arguments f.types.pool ts)
        formed form member r args) := by
  rw [← bind_assoc, callOperands_some hf htypes hw hs hlt ha hat, lift_bind]
  exact bind_congr fun p => h p.1 p.2

/-- A method of the parent is named by its receiver. -/
theorem writeSuper_eq {n : Node} (hn : f.arena.node? a = some n) (hk : n.kind = .super)
    {info : NodeInfo} (hinfo : t = .super info) (hty : info.ty = f.types.typeOf a) (span : Span)
    (member : String) :
    (do
      let operands ← callOperands f w (some a) ids
      let (receiver, args) ← removeAt 0 operands
      writeCall f .generic (some true) span a member receiver args) = lift (do
        let form ← Lower.ofError
          (CallForm.superMethod <$> Lower.superClass f.types.pool info.ty info.span)
        let (r, args) ← Lower.inOrderCons ⟨t.span, Lower.value f.types.pool t⟩
          (Lower.arguments f.types.pool ts)
        formed form member r args) := by
  cases hname : f.types.pool.symbolName? info.ty with
  | none =>
    -- The receiver is lowered first, and stops where the form would have stopped.
    rw [← bind_assoc, callOperands_some hf htypes hw hs hlt ha hat, superClass_of_none hname,
      hinfo, value_super_of_none hname]
    exact lift_stop_bind _ _
  | some name =>
    simp only [superClass_of_name hname, Except.map_ok, Lower.ofError, pure_bind]
    exact writeCall_eq hf htypes hw hs hlt ha hat
      (writeCall_super hn htypes hk (hty ▸ hname) span member)

/-- The generic rule goes by the callee's signatures. -/
theorem genericCall_eq (span : Span) {calleeTy : TypeId} (hty : f.types.pool.Holds calleeTy)
    (member : String) :
    (do
      let isMethod ← callStyle f .generic calleeTy member span
      let operands ← callOperands f w (some a) ids
      let (receiver, args) ← removeAt 0 operands
      writeCall f .generic isMethod span a member receiver args) = lift (do
        let form ← Lower.ofError (Lower.genericForm f.types.pool span calleeTy t member)
        let (r, args) ← Lower.inOrderCons ⟨t.span, Lower.value f.types.pool t⟩
          (Lower.arguments f.types.pool ts)
        formed form member r args) := by
  obtain ⟨n, hn⟩ := hat.node hf
  have write {isMethod : Option Bool} {form : CallForm}
      (h : ∀ r args, writeCall f .generic isMethod span a member r args =
        lift (formed form member r args)) := writeCall_eq hf htypes hw hs hlt ha hat h
  simp only [callStyle, isMethodCall_eq htypes.pool hty]
  cases hm : Lower.isMethodCall f.types.pool calleeTy member span with
  | error e =>
    rw [Lower.genericForm_of_error hm]
    simp only [Lower.ofError, Lower.fail, map_eq_pure_bind, lift_bind, lift_stop_bind]
  | ok isMethod =>
    simp only [Lower.ofError, lift_pure, map_pure, pure_bind]
    cases isMethod with
    | false =>
      simp only [Lower.genericForm_field hm, pure_bind]
      exact write fun r args => (lift_pure _).symm
    | true =>
      obtain ⟨hk, hsuper⟩ | ⟨hk, hobject⟩ := hn.grows.super_or
      · rw [hsuper, Lower.genericForm_super hm, ← hsuper]
        exact writeSuper_eq hf htypes hw hs hlt ha hat hn.node hk hsuper rfl span member
      · simp only [Lower.genericForm_method hm hobject, pure_bind]
        exact write (writeCall_method hn.node hk span member)

theorem propertyCall_eq (ctx : CallContext) (span : Span) {calleeTy : TypeId}
    (hty : f.types.pool.Holds calleeTy) {member : String} (hmember : f.names.knows member) :
    propertyCall f w ctx span calleeTy a member ids = lift (do
      let form ← Lower.ofError (CallForm.resolve f.types.pool ctx span calleeTy t member ts.length)
      let (r, args) ← Lower.inOrderCons ⟨t.span, Lower.value f.types.pool t⟩
        (Lower.arguments f.types.pool ts)
      formed form member r args) := by
  obtain ⟨n, hn⟩ := hat.node hf
  have hfamily := receiverFamily_eq htypes.pool (htypes.holds_typeOf a)
  have write {rule : CallRule} {form : CallForm}
      (h : ∀ r args, writeCall f rule none span a member r args =
        lift (formed form member r args)) := writeCall_eq hf htypes hw hs hlt ha hat h
  rw [propertyCall, check_bind_ok hfamily, readName_eq hmember, pure_bind, hs.length_eq, hn.ty,
    CallForm.resolve]
  cases CallRule.find (.ofType f.types.pool t.ty) member ts.length with
  | helper h =>
    simp only [checkOperator, callStyle, pure_bind, Lower.ofError]
    exact write (writeCall_helper h span member)
  | nativeString =>
    simp only [checkOperator, callStyle, pure_bind, Lower.ofError]
    exact write (writeCall_nativeString span member)
  | renamedMethod name =>
    simp only [checkOperator, callStyle, pure_bind, Lower.ofError]
    exact write fun r args => (lift_pure _).symm
  | renamedField name =>
    simp only [checkOperator, callStyle, pure_bind, Lower.ofError]
    exact write fun r args => (lift_pure _).symm
  | operator op className =>
    simp only [checkOperator, callStyle, pure_bind]
    cases ctx.discarded with
    | true => simp only [if_true, Lower.ofError, fail_eq, Lower.fail, lift_bind, lift_stop_bind]
    | false =>
      simp only [Bool.false_eq_true, if_false, Lower.ofError, pure_bind]
      exact write fun r args => (lift_pure _).symm
  | generic =>
    simp only [checkOperator, pure_bind]
    exact genericCall_eq hf htypes hw hs hlt ha hat span hty member

/-- A call does not panic: its receiver is there to be taken and to be put back. -/
theorem call_eq (hready : f.Ready) (ctx : CallContext) {info : NodeInfo}
    (hi : f.types.pool.Holds info.ty) {r : ListRange} (hr : f.arena.exprs r = .ok ids) :
    call f w ctx info a r = lift (Lower.call f.types.pool ctx (.call info t ts)) := by
  obtain ⟨⟨kind, span⟩, hn⟩ := hat.node hf
  have calleeInfo : infoOf f a ⟨kind, span⟩ = t.info := hn.grows.info_eq.symm
  have hty : f.types.pool.Holds t.info.ty := calleeInfo ▸ htypes.holds_typeOf a
  have packed {code : Walk Expr} {x : Lower Expr} (h : code = lift x) :
      (do
        checkNotAny f.types.pool t.info
        let code ← code
        packReturn f.types.pool ctx info.ty code) = lift (do
          Lower.checkNotAny f.types.pool t.info
          let code ← x
          return Lower.packReturn f.types.pool ctx info.ty code) := by
    simp only [h, checkNotAny_eq hty, packReturn_eq hi, lift_bind, lift_pure]
  rw [call, node_bind hn.node, calleeInfo]
  simp only [exprs, indexed_bind_ok hr]
  cases hn.grows with
  | @property object o hobject member =>
    have ho := Nat.lt_trans (hn.lt [object] rfl object List.mem_cons_self) ha
    refine (packed (propertyCall_eq hf htypes hw hs hlt ho hobject ctx info.span
      (htypes.holds_typeOf a) (hready.members hn.node rfl))).trans (congrArg lift ?_)
    simp only [Lower.call, Lower.propertyCall, Lower.length_arguments, formed, bind_assoc]
    refine bind_congr fun _ => bind_congr fun form => bind_congr fun p => ?_
    cases form.helper? <;> simp only [bind_assoc, pure_bind]
  | super =>
    refine (packed (superCall_eq hf htypes hw hs hlt (htypes.holds_typeOf a) info.span)).trans
      (congrArg lift ?_)
    simp only [Lower.call, Lower.superCall, bind_assoc, pure_bind]
    rfl
  | _ =>
    refine (packed (plainCall_eq hf htypes hw hs hlt ha hat)).trans (congrArg lift ?_)
    simp only [Lower.call, Lower.plainCall, bind_map_left]
    rfl

end Operands

end WellFormed

end ScriptLowering.Walk
