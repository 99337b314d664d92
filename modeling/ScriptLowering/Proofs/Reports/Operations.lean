import ScriptLowering.Proofs.Reports.Traced
import ScriptLowering.Proofs.Source.Strict

/-!
# Accounts of operations

The account of an operation joins those of its operands, in the order in which it
lowers them; what it does with the lowered operands is silent.  A call also has
the report on its callee, and the error in finding its form.

    operands traced by a₁, …, aₖ → inOrder of them traced by a₁ ++ … ++ aₖ          (traced_inOrder)
    target traced by a, value by b → the assignment traced by a ++ b        (traced_targetAndValue)
-/

namespace ScriptLowering.Lower

open Target (Expr Stmt)

/-- Operands side by side, with the accounts of one after another. -/
inductive TracedAll : Account → List Operand → List Operand → Prop
  | nil : TracedAll .empty [] []
  | cons {a b : Account} {x y : Operand} {xs ys : List Operand} (hs : y.span = x.span)
      (h : Traced a x.lower y.lower) (hrest : TracedAll b xs ys) :
      TracedAll (a ++ b) (x :: xs) (y :: ys)

variable {a b : Account} {pool : TypePool}

/-! ### Operands -/

theorem traced_operand {x y : Operand} (hs : y.span = x.span) (h : Traced a x.lower y.lower) :
    Traced a x.capture y.capture := by
  unfold Operand.capture
  rw [hs]
  apply h.capture.bind_silent
  intro p
  exact .pure _

theorem silent_settle (c : Captured) (later : List Captured) : Silent (settle c later) := by
  unfold settle
  apply (Silent.emitAll c.stmts).bind
  intro _
  split
  · exact silent_pushTempIfUnstable "exp" c.span c.value
  · exact .pure c.value

theorem silent_settleAll (cs : List Captured) : Silent (settleAll cs) := by
  induction cs with
  | nil => exact .pure []
  | cons c later ih =>
    apply (silent_settle c later).bind
    intro v
    apply ih.bind
    intro vs
    exact .pure (v :: vs)

theorem traced_captureAll {xs ys : List Operand} (h : TracedAll a xs ys) :
    Traced a (captureAll xs) (captureAll ys) := by
  induction h with
  | nil => exact .pure []
  | cons hs h _ ih =>
    apply (traced_operand hs h).bind
    intro c
    apply ih.bind_silent
    intro cs
    exact .pure (c :: cs)

theorem traced_inOrder {xs ys : List Operand} (h : TracedAll a xs ys) :
    Traced a (inOrder xs) (inOrder ys) := (traced_captureAll h).bind_silent silent_settleAll

variable {s s' t t' : Span} {x x' y y' : Lower Expr}

theorem traced_inOrderCons {xs ys : List Operand} (hs : s' = s) (hx : Traced a x x')
    (hrest : TracedAll b xs ys) :
    Traced (a ++ b) (inOrderCons ⟨s, x⟩ xs) (inOrderCons ⟨s', x'⟩ ys) := by
  apply (traced_operand (x := ⟨s, x⟩) (y := ⟨s', x'⟩) hs hx).bind
  intro c
  apply (traced_captureAll hrest).bind_silent
  intro later
  apply (silent_settle c later).bind
  intro v
  apply (silent_settleAll later).bind
  intro vs
  exact .pure (v, vs)

theorem traced_inOrderPair (hs : s' = s) (ht : t' = t) (hx : Traced a x x') (hy : Traced b y y') :
    Traced (a ++ b) (inOrderPair ⟨s, x⟩ ⟨t, y⟩) (inOrderPair ⟨s', x'⟩ ⟨t', y'⟩) := by
  apply (traced_operand (x := ⟨s, x⟩) (y := ⟨s', x'⟩) hs hx).bind
  intro c
  apply (traced_operand (x := ⟨t, y⟩) (y := ⟨t', y'⟩) ht hy).bind_silent
  intro d
  apply (silent_settle c [d]).bind
  intro v
  apply (silent_settle d []).bind
  intro u
  exact .pure (v, u)

/-! ### Operators and truth -/

theorem silent_relation (op : Source.RelationOp) (span : Span) (l r : Expr) :
    Silent (relation op span l r) := by
  cases op with
  | isIn =>
    have key : Silent (membershipKey span l r) := by
      unfold membershipKey
      split
      · exact .pure l
      · exact silent_pushTempIfUnstable "exp" span l
    show Silent (membership span l r)
    rw [membership_eq]
    apply key.bind
    intro k
    exact .pure _
  | instanceOf =>
    apply (Silent.useHelper .runtime).bind
    intro _
    exact .pure _
  | _ => exact .pure _

theorem silent_truthiness (ty : TypeId) (span : Span) (v : Expr) :
    Silent (truthiness pool ty span v) := by
  rw [truthiness_eq]
  split
  · exact .pure v
  · apply (silent_pushTempIfComplex "exp" span v).bind
    intro u
    exact .pure _

theorem silent_shortCircuitBlock (span : Span) (l r : Expr) (ss : List Stmt)
    {check : Expr → Lower Expr} (hc : ∀ v, Silent (check v)) :
    Silent (shortCircuitBlock span l r ss check) := by
  apply (silent_pushTemp "result" span l).bind
  intro t
  apply (hc t).bind
  intro c
  have block : Silent (assignInBlock c t r ss) := .emit _
  apply block.bind
  intro _
  exact .pure t

theorem traced_shortCircuit {op : Source.LogicalOp} {span : Span} {ty : TypeId}
    {left left' right right' : Lower Expr} (hl : Traced a left left')
    (hr : Traced b right right') :
    Traced (a ++ b) (shortCircuit pool op span ty left right)
      (shortCircuit pool op span ty left' right') := by
  apply hl.bind
  intro l
  apply hr.capture.bind_silent
  rintro ⟨r, ss⟩
  have negated (v : Expr) : Silent (do
      return .unary .not (← truthiness pool ty span v) : Lower Expr) :=
    (silent_truthiness ty span v).bind fun _ => .pure _
  cases op with
  | coalesce => exact silent_shortCircuitBlock span l r ss fun _ => .pure _
  | and =>
    simp only
    split
    · exact .pure _
    · exact silent_shortCircuitBlock span l r ss (silent_truthiness ty span)
  | or =>
    simp only
    split
    · exact .pure _
    · exact silent_shortCircuitBlock span l r ss negated

/-! ### Places and assignments -/

theorem silent_pinPart (pin : Pin) (hint : String) (span : Span) (e : Expr) :
    Silent (pinPart pin hint span e) := by
  cases pin with
  | repeated => exact silent_pushTempIfComplex hint span e
  | reordered => exact silent_pushTempIfUnstable hint span e

theorem silent_pinPlace (pin : Pin) (span : Span) (p : Place) : Silent (pinPlace pin span p) := by
  cases p with
  | whole e => exact .pure _
  | property o name =>
    apply (silent_pinPart pin "object" span o).bind
    intro o
    exact .pure _
  | index o i =>
    apply (silent_pinPart pin "object" span o).bind
    intro o
    apply (silent_pinPart pin "index" span i).bind
    intro i
    exact .pure _

variable {target target' : Lower Reference} {value value' : Lower Expr} {span : Span}

theorem traced_targetAndValue {readAfterWrite : Bool} (ht : Traced a target target')
    (hv : Traced b value value') :
    Traced (a ++ b) (targetAndValue span target value readAfterWrite)
      (targetAndValue span target' value' readAfterWrite) := by
  apply (ht.map (k := Reference.place)).bind
  intro p
  apply hv.capture.bind_silent
  rintro ⟨v, ss⟩
  have rest (p : Place) : Silent (do
      emitAll ss
      return (WritableTarget.ofPlace p readAfterWrite, v)) :=
    (Silent.emitAll ss).bind fun _ => .pure _
  cases hpin : pinFor ss readAfterWrite with
  | none => simpa only [hpin] using (Silent.pure p).bind rest
  | some pin => simpa only [hpin] using (silent_pinPlace pin span p).bind rest

theorem traced_assignValue (ht : Traced a target target') (hv : Traced b value value') :
    Traced (a ++ b) (assignValue span target value) (assignValue span target' value') := by
  apply (traced_targetAndValue ht hv).bind_silent
  rintro ⟨t, v⟩
  apply (Silent.emit (.assign t.write v)).bind
  intro _
  exact .pure t.readable

theorem traced_compoundValue {op : Source.ArithmeticOp} {info : Source.NodeInfo} {ty : TypeId}
    (ht : Traced a target target') (hv : Traced b value value') :
    Traced (a ++ b) (compoundValue pool op info ty target value)
      (compoundValue pool op info ty target' value') := by
  apply (traced_targetAndValue ht hv).bind_silent
  rintro ⟨t, v⟩
  apply (Silent.emit _).bind
  intro _
  exact .pure t.readable

theorem traced_assignStatement (ht : Traced a target target') (hv : Traced b value value') :
    Traced (a ++ b) (assignStatement span target value) (assignStatement span target' value') := by
  apply (traced_targetAndValue ht hv).bind_silent
  rintro ⟨t, v⟩
  exact .pure _

theorem traced_compoundStatement {op : Source.ArithmeticOp} {info : Source.NodeInfo} {ty : TypeId}
    (ht : Traced a target target') (hv : Traced b value value') :
    Traced (a ++ b) (compoundStatement pool op info ty target value)
      (compoundStatement pool op info ty target' value') := by
  unfold compoundStatement
  split
  all_goals
    apply (traced_targetAndValue ht hv).bind_silent
    rintro ⟨t, v⟩
    exact .pure _

theorem traced_updateStatement (op : Source.UpdateOp) (ht : Traced a target target') :
    Traced a (updateStatement op target) (updateStatement op target') := by
  apply (ht.map (k := Reference.place)).bind_silent
  intro p
  exact .pure _

theorem traced_updateBefore {op : Source.UpdateOp} (ht : Traced a target target') :
    Traced a (updateBefore op span target) (updateBefore op span target') := by
  apply (ht.map (k := Reference.place)).bind_silent
  intro p
  apply (silent_pinPlace .repeated span p).bind
  intro p
  apply (Silent.emit (updateBy op p.toExpr)).bind
  intro _
  exact .pure p.toExpr

theorem traced_updateAfter {op : Source.UpdateOp} (ht : Traced a target target') :
    Traced a (updateAfter op span target) (updateAfter op span target') := by
  apply (ht.map (k := Reference.place)).bind_silent
  intro p
  apply (silent_pinPlace .repeated span p).bind
  intro p
  apply (silent_pushTemp "original" span p.toExpr).bind
  intro copy
  apply (Silent.emit (updateBy op p.toExpr)).bind
  intro _
  exact .pure copy

/-! ### Calls -/

theorem traced_argument {info : Source.NodeInfo} (hv : Traced a value value') :
    Traced (⟨anyReports pool info, none⟩ ++ a) (argument pool info value).lower
      (argument pool info value').lower := by
  apply (traced_checkNotAny pool info).bind
  intro _
  exact hv

theorem traced_spreadArgument {info : Source.NodeInfo} (hv : Traced a value value') :
    Traced a (spreadArgument info true value).lower (spreadArgument info true value').lower := by
  apply hv.bind_silent
  intro v
  exact .pure _

theorem traced_plainCall {ctx : CallContext} {info calleeInfo : Source.NodeInfo}
    {callee callee' : Lower Expr} {args args' : List Operand} (hf : Traced a callee callee')
    (ha : TracedAll b args args') :
    Traced (⟨anyReports pool calleeInfo, none⟩ ++ (a ++ b))
      (plainCall pool ctx info calleeInfo callee args)
      (plainCall pool ctx info calleeInfo callee' args') := by
  apply (traced_checkNotAny pool calleeInfo).bind
  intro _
  apply (traced_inOrderCons rfl hf ha).bind_silent
  rintro ⟨f, args⟩
  exact .pure _

theorem traced_superCall {ctx : CallContext} {info calleeInfo : Source.NodeInfo}
    {args args' : List Operand} (ha : TracedAll b args args') :
    Traced (⟨anyReports pool calleeInfo, errorOf (superClass pool calleeInfo.ty info.span)⟩ ++ b)
      (superCall pool ctx info calleeInfo args) (superCall pool ctx info calleeInfo args') := by
  have h : Traced (⟨anyReports pool calleeInfo, none⟩ ++
      (⟨[], errorOf (superClass pool calleeInfo.ty info.span)⟩ ++ b))
      (superCall pool ctx info calleeInfo args) (superCall pool ctx info calleeInfo args') := by
    apply (traced_checkNotAny pool calleeInfo).bind
    intro _
    apply (Traced.ofError _).bind
    intro className
    apply (traced_inOrder ha).bind_silent
    intro args
    exact .pure _
  exact h.of_eq (Account.ext rfl (Option.none_or ..))

/-- The form of a call asks of the receiver its type and whether it is `super`. -/
theorem resolve_strict (ctx : CallContext) (span : Span) (ty : TypeId) (object : Source.Expr)
    (member : String) (argCount : Nat) :
    CallForm.resolve pool ctx span ty object.strict member argCount =
      CallForm.resolve pool ctx span ty object member argCount := by
  have hgeneric : genericForm pool span ty object.strict member =
      genericForm pool span ty object member := by
    unfold genericForm
    cases isMethodCall pool ty member span with
    | error e => rfl
    | ok b =>
      cases object with
      | binary _ op _ _ => cases op <;> cases b <;> rfl
      | _ => cases b <;> rfl
  unfold CallForm.resolve
  rw [Source.Expr.ty_strict, hgeneric]

theorem silent_useHelperOf (form : CallForm) : Silent (useHelperOf form) := by
  unfold useHelperOf
  split
  · exact .useHelper _
  · exact .pure ()

theorem traced_propertyCall {ctx : CallContext} {info calleeInfo : Source.NodeInfo}
    {object : Source.Expr} {member : String} {receiver receiver' : Lower Expr}
    {args args' : List Operand} (hr : Traced a receiver receiver') (ha : TracedAll b args args')
    (hlen : args'.length = args.length) :
    Traced (⟨anyReports pool calleeInfo, errorOf
        (CallForm.resolve pool ctx info.span calleeInfo.ty object member args.length)⟩ ++ (a ++ b))
      (propertyCall pool ctx info calleeInfo object member receiver args)
      (propertyCall pool ctx info calleeInfo object.strict member receiver' args') := by
  have h : Traced (⟨anyReports pool calleeInfo, none⟩ ++ (⟨[], errorOf
        (CallForm.resolve pool ctx info.span calleeInfo.ty object member args.length)⟩ ++ (a ++ b)))
      (propertyCall pool ctx info calleeInfo object member receiver args)
      (propertyCall pool ctx info calleeInfo object.strict member receiver' args') := by
    rw [propertyCall_eq, propertyCall_eq, resolve_strict, hlen]
    apply (traced_checkNotAny pool calleeInfo).bind
    intro _
    apply (Traced.ofError _).bind
    intro form
    apply (traced_inOrderCons object.span_strict hr ha).bind_silent
    rintro ⟨r, args⟩
    apply (silent_useHelperOf form).bind
    intro _
    exact .pure _
  exact h.of_eq (Account.ext rfl (Option.none_or ..))

/-! ### Patterns -/

theorem silent_indexableSource (ty : SubType) (source : Expr) :
    Silent (indexableSource pool span ty source) := by
  unfold indexableSource
  split
  · exact .pure source
  · apply (Silent.useHelper .array).bind
    intro _
    exact silent_pushTemp "value" span _

theorem traced_destructuring {ty : TypeId} {assign assign' : Expr → SubType → Lower Unit}
    (hv : Traced a value value')
    (ha : ∀ source ty, Traced b (assign source ty) (assign' source ty)) :
    Traced (a ++ b) (destructuring span ty value assign)
      (destructuring span ty value' assign') := by
  apply hv.bind
  intro v
  apply (silent_pushTemp "value" span v).traced_bind
  intro source
  apply (ha source (.single ty)).bind_silent
  intro _
  exact .pure source

end ScriptLowering.Lower
