import ScriptLowering.Proofs.Names.Anonymous

/-!
# Operations declare no names

Each operation of lowering is anonymous on anonymous parts: what it writes by
itself are calls, assignments, blocks and declarations of temporaries.

    left and right anonymous → shortCircuit anonymous                 (anonymous_shortCircuit)
    target and value anonymous → targetAndValue anonymous           (anonymous_targetAndValue)
    receiver and arguments anonymous → propertyCall anonymous         (anonymous_propertyCall)
-/

namespace ScriptLowering.Lower

open Target (Expr Stmt)

variable {pool : TypePool} {span : Span}

/-! ### Operators -/

theorem anonymous_membership (key object : Expr) : Anonymous (membership span key object) := by
  have hkey : Anonymous (membershipKey span key object) := by
    unfold membershipKey
    split
    · exact .pure trivial
    · exact anonymous_pushTempIfUnstable _ _ _
  rw [membership_eq]
  exact hkey.bind fun _ _ => .pure trivial

theorem anonymous_relation (op : Source.RelationOp) (l r : Expr) :
    Anonymous (relation op span l r) := by
  cases op with
  | isIn => exact anonymous_membership l r
  | instanceOf => exact (anonymous_useHelper .runtime).bind fun _ _ => .pure trivial
  | _ => exact .pure trivial

theorem anonymous_looseEquality (op : Source.LooseOp) : Anonymous (looseEquality op span) := by
  cases op <;> exact (anonymous_report _ _ _).bind fun _ _ => .pure trivial

theorem anonymous_truthiness (ty : TypeId) (v : Expr) :
    Anonymous (truthiness pool ty span v) := by
  rw [truthiness_eq]
  split
  · exact .pure trivial
  · exact (anonymous_pushTempIfComplex _ _ _).bind fun _ _ => .pure trivial

/-- The block of a short-circuit operator is one statement, whatever is in it. -/
theorem anonymous_shortCircuitBlock (l r : Expr) (ss : List Stmt) {check : Expr → Lower Expr}
    (hc : ∀ v, Anonymous (check v)) : Anonymous (shortCircuitBlock span l r ss check) := by
  apply (anonymous_pushTemp "result" span l).bind
  intro t _
  apply (hc t).bind
  intro c _
  have block : Anonymous (assignInBlock c t r ss) := anonymous_emit rfl
  exact block.bind fun _ _ => .pure trivial

theorem anonymous_shortCircuit {op : Source.LogicalOp} {ty : TypeId} {left right : Lower Expr}
    (hl : Anonymous left) (hr : Anonymous right) :
    Anonymous (shortCircuit pool op span ty left right) := by
  apply hl.bind
  intro l _
  apply hr.capture.bind
  rintro ⟨r, ss⟩ _
  cases op with
  | coalesce => exact anonymous_shortCircuitBlock l r ss fun v => .pure trivial
  | and =>
    simp only
    split
    · exact .pure trivial
    · exact anonymous_shortCircuitBlock l r ss fun v => anonymous_truthiness ty v
  | or =>
    simp only
    split
    · exact .pure trivial
    · exact anonymous_shortCircuitBlock l r ss fun v =>
        (anonymous_truthiness ty v).bind fun _ _ => .pure trivial

/-! ### Places and assignments -/

theorem anonymous_asValue {x : Lower Reference} (hx : Anonymous x) : Anonymous (asValue x) :=
  hx.map fun _ _ => trivial

theorem anonymous_asPlace {x : Lower Reference} (hx : Anonymous x) : Anonymous (asPlace x) :=
  hx.map fun _ _ => trivial

theorem anonymous_asPlaceExpr {x : Lower Reference} (hx : Anonymous x) :
    Anonymous (asPlaceExpr x) := hx.map fun _ _ => trivial

theorem anonymous_asReference {x : Lower Expr} (hx : Anonymous x) : Anonymous (asReference x) :=
  hx.map fun _ _ => trivial

theorem anonymous_pinPart (pin : Pin) (hint : String) (e : Expr) :
    Anonymous (pinPart pin hint span e) := by
  cases pin with
  | repeated => exact anonymous_pushTempIfComplex hint span e
  | reordered => exact anonymous_pushTempIfUnstable hint span e

theorem anonymous_pinPlace (pin : Pin) (p : Place) : Anonymous (pinPlace pin span p) := by
  cases p with
  | whole e => exact .pure trivial
  | property o name => exact (anonymous_pinPart pin _ o).bind fun _ _ => .pure trivial
  | index o i =>
    apply (anonymous_pinPart pin _ o).bind
    intro o _
    exact (anonymous_pinPart pin _ i).bind fun _ _ => .pure trivial

variable {target : Lower Reference} {value : Lower Expr}

/-- The value's statements are emitted as they were set apart. -/
theorem anonymous_targetAndValue (ht : Anonymous target) (hv : Anonymous value) (b : Bool) :
    Anonymous (targetAndValue span target value b) := by
  apply (anonymous_asPlace ht).bind
  intro p _
  apply hv.capture.bind
  rintro ⟨v, ss⟩ ⟨-, hss⟩
  have rest (p : Place) : Anonymous (do
      emitAll ss
      return (WritableTarget.ofPlace p b, v)) :=
    (anonymous_emitAll hss).bind fun _ _ => .pure ⟨trivial, trivial⟩
  cases hpin : pinFor ss b with
  | none => simpa only [hpin, pure_bind] using rest p
  | some pin => simpa only [hpin] using (anonymous_pinPlace pin p).bind fun p _ => rest p

theorem anonymous_assignValue (ht : Anonymous target) (hv : Anonymous value) :
    Anonymous (assignValue span target value) := by
  apply (anonymous_targetAndValue ht hv true).bind
  rintro ⟨t, v⟩ _
  exact (anonymous_emit (s := .assign t.write v) rfl).bind fun _ _ => .pure trivial

variable {op : Source.ArithmeticOp} {info : Source.NodeInfo} {ty : TypeId}

theorem anonymous_compoundValue (ht : Anonymous target) (hv : Anonymous value) :
    Anonymous (compoundValue pool op info ty target value) := by
  apply (anonymous_targetAndValue ht hv true).bind
  rintro ⟨t, v⟩ _
  exact (anonymous_emit (s := .assign t.write _) rfl).bind fun _ _ => .pure trivial

theorem anonymous_assignStatement (ht : Anonymous target) (hv : Anonymous value) :
    Anonymous (assignStatement span target value) := by
  apply (anonymous_targetAndValue ht hv false).bind
  rintro ⟨t, v⟩ _
  exact .pure (a := Stmt.assign t.write v) rfl

theorem anonymous_compoundStatement (ht : Anonymous target) (hv : Anonymous value) :
    Anonymous (compoundStatement pool op info ty target value) := by
  unfold compoundStatement
  split
  next native _ =>
    apply (anonymous_targetAndValue ht hv false).bind
    rintro ⟨t, v⟩ _
    exact .pure (a := Stmt.compound native t.write _) rfl
  next =>
    apply (anonymous_targetAndValue ht hv true).bind
    rintro ⟨t, v⟩ _
    exact .pure (a := Stmt.assign t.write _) rfl

theorem anonymous_updateStatement (op : Source.UpdateOp) (ht : Anonymous target) :
    Anonymous (updateStatement op target) := by
  apply (anonymous_asPlace ht).bind
  intro p _
  exact .pure (a := updateBy op p.toExpr) rfl

theorem anonymous_updateBefore (op : Source.UpdateOp) (ht : Anonymous target) :
    Anonymous (updateBefore op span target) := by
  apply (anonymous_asPlace ht).bind
  intro p _
  apply (anonymous_pinPlace .repeated p).bind
  intro p _
  exact (anonymous_emit (s := updateBy op p.toExpr) rfl).bind fun _ _ => .pure trivial

theorem anonymous_updateAfter (op : Source.UpdateOp) (ht : Anonymous target) :
    Anonymous (updateAfter op span target) := by
  apply (anonymous_asPlace ht).bind
  intro p _
  apply (anonymous_pinPlace .repeated p).bind
  intro p _
  apply (anonymous_pushTemp "original" span p.toExpr).bind
  intro copy _
  exact (anonymous_emit (s := updateBy op p.toExpr) rfl).bind fun _ _ => .pure trivial

/-! ### Calls -/

theorem anonymous_useHelperOf (form : CallForm) : Anonymous (useHelperOf form) := by
  unfold useHelperOf
  split
  · exact anonymous_useHelper _
  · exact .pure trivial

theorem anonymous_argument (hv : Anonymous value) : Anonymous (argument pool info value).lower :=
  (anonymous_checkNotAny pool info).bind fun _ _ => hv

theorem anonymous_spreadArgument (hv : Anonymous value) (isLast : Bool) :
    Anonymous (spreadArgument info isLast value).lower := by
  cases isLast with
  | false => exact .fail _
  | true => exact hv.bind fun _ _ => .pure trivial

variable {ctx : CallContext} {calleeInfo : Source.NodeInfo} {args : List Operand}

theorem anonymous_plainCall (hf : Anonymous value) (ha : ∀ x ∈ args, Anonymous x.lower) :
    Anonymous (plainCall pool ctx info calleeInfo value args) := by
  have hall : ∀ x ∈ (⟨calleeInfo.span, value⟩ : Operand) :: args, Anonymous x.lower :=
    List.forall_mem_cons.2 ⟨hf, ha⟩
  apply (anonymous_checkNotAny pool calleeInfo).bind
  intro _ _
  exact (anonymous_inOrderCons hall).bind fun _ _ => .pure trivial

theorem anonymous_superCall (ha : ∀ x ∈ args, Anonymous x.lower) :
    Anonymous (superCall pool ctx info calleeInfo args) := by
  apply (anonymous_checkNotAny pool calleeInfo).bind
  intro _ _
  apply Anonymous.ofError_bind
  intro name
  exact (anonymous_inOrder ha).bind fun _ _ => .pure trivial

theorem anonymous_propertyCall {object : Source.Expr} {member : String} (hr : Anonymous value)
    (ha : ∀ x ∈ args, Anonymous x.lower) :
    Anonymous (propertyCall pool ctx info calleeInfo object member value args) := by
  have hall : ∀ x ∈ (⟨object.span, value⟩ : Operand) :: args, Anonymous x.lower :=
    List.forall_mem_cons.2 ⟨hr, ha⟩
  rw [propertyCall_eq]
  apply (anonymous_checkNotAny pool calleeInfo).bind
  intro _ _
  apply Anonymous.ofError_bind
  intro form
  apply (anonymous_inOrderCons hall).bind
  rintro ⟨r, args⟩ _
  exact (anonymous_useHelperOf form).bind fun _ _ => .pure trivial

/-! ### Patterns -/

theorem anonymous_indexableSource (ty : SubType) (source : Expr) :
    Anonymous (indexableSource pool span ty source) := by
  unfold indexableSource
  split
  · exact .pure trivial
  · exact (anonymous_useHelper .array).bind fun _ _ => anonymous_pushTemp _ _ _

theorem anonymous_assignPart {part : Source.Expr} {nested : Expr → SubType → Lower Unit}
    (hn : ∀ source ty, Anonymous (nested source ty)) (ht : Anonymous target) (slot : Expr)
    (ty : SubType) (index : SubIndex) :
    Anonymous (assignPart pool part nested (asPlaceExpr target) slot ty index) := by
  unfold assignPart
  split
  · apply Anonymous.ofFault_bind
    intro partTy
    exact (anonymous_pushTemp "value" part.span slot).bind fun source _ => hn source partTy
  · split
    · exact .pure trivial
    · exact (anonymous_asPlaceExpr ht).bind fun t _ => anonymous_emit rfl

theorem anonymous_destructuring {assign : Expr → SubType → Lower Unit} (hv : Anonymous value)
    (ha : ∀ source ty, Anonymous (assign source ty)) :
    Anonymous (destructuring span ty value assign) := by
  apply hv.bind
  intro v _
  apply (anonymous_pushTemp "value" span v).bind
  intro source _
  exact (ha source (.single ty)).bind fun _ _ => .pure trivial

end ScriptLowering.Lower
