import ScriptLowering.Proofs.Lowering.Emitted

/-!
# Actions that have a result

An action is total when it answers from every id on.  Only errors and faults
are not, so whatever raises neither is total when its parts are.

    x total → f a total for all a → (x >>= f) total                   (Total.bind)
    all operands total → inOrderCons of them total                     (total_inOrderCons)
-/

namespace ScriptLowering.Lower

open Target (Expr Stmt)

def Total {α : Type} (x : Lower α) : Prop := ∀ n, ∃ a e, x n = (.ok a, e)

/-! ## Lemmas -/

namespace Total

variable {α β : Type}

theorem pure (a : α) : Total (pure a) := fun _ => ⟨a, .none, rfl⟩

theorem effect (e : Effects) : Total (effect e) := fun _ => ⟨(), e, rfl⟩

theorem bind {x : Lower α} {f : α → Lower β} (hx : Total x) (hf : ∀ a, Total (f a)) :
    Total (x >>= f) := by
  intro n
  obtain ⟨a, e₁, ha⟩ := hx n
  obtain ⟨b, e₂, hb⟩ := hf a (n + e₁.temps.length)
  exact ⟨b, e₁ ++ e₂, bind_eq_ok.2 ⟨a, e₁, e₂, ha, hb, rfl⟩⟩

theorem map {x : Lower α} (hx : Total x) (f : α → β) : Total (f <$> x) := by
  rw [map_eq_pure_bind]
  exact hx.bind fun a => .pure (f a)

theorem capture {x : Lower α} (hx : Total x) : Total x.capture := by
  intro n
  obtain ⟨a, e, h⟩ := hx n
  exact ⟨_, _, capture_of_ok h⟩

end Total

theorem total_pushTemp {hint : String} {span : Span} {v : Expr} : Total (pushTemp hint span v) :=
  fun n => ⟨_, _, pushTemp_apply hint span v n⟩

theorem total_pushTempIfComplex {hint : String} {span : Span} {v : Expr} :
    Total (pushTempIfComplex hint span v) := by
  unfold pushTempIfComplex
  split
  · exact .pure v
  · exact total_pushTemp

theorem total_pushTempIfUnstable {hint : String} {span : Span} {v : Expr} :
    Total (pushTempIfUnstable hint span v) := by
  unfold pushTempIfUnstable
  split
  · exact .pure v
  · exact total_pushTemp

theorem total_checkNotAny (pool : TypePool) (info : Source.NodeInfo) :
    Total (checkNotAny pool info) := by
  unfold checkNotAny
  split
  · exact .effect _
  · exact .pure ()

/-! ### Operands -/

theorem total_captured {x : Operand} (h : Total x.lower) : Total (do
    let p ← x.lower.capture
    return (⟨x.span, p.1, p.2⟩ : Captured)) := h.capture.bind fun _ => .pure _

theorem total_captureAll {xs : List Operand} (h : ∀ x ∈ xs, Total x.lower) :
    Total (captureAll xs) := by
  induction xs with
  | nil => exact .pure []
  | cons x xs ih =>
    obtain ⟨hx, hxs⟩ := List.forall_mem_cons.1 h
    refine (total_captured hx).bind fun c => ?_
    exact (ih hxs).bind fun cs => .pure (c :: cs)

theorem total_settle (c : Captured) (later : List Captured) : Total (settle c later) := by
  unfold settle
  refine (Total.effect _).bind fun _ => ?_
  split
  · exact total_pushTempIfUnstable
  · exact .pure c.value

theorem total_settleAll (cs : List Captured) : Total (settleAll cs) := by
  induction cs with
  | nil => exact .pure []
  | cons c later ih =>
    refine (total_settle c later).bind fun v => ?_
    exact ih.bind fun vs => .pure (v :: vs)

theorem total_inOrderCons {x : Operand} {xs : List Operand} (h : ∀ y ∈ x :: xs, Total y.lower) :
    Total (inOrderCons x xs) := by
  obtain ⟨hx, hxs⟩ := List.forall_mem_cons.1 h
  refine (total_captured hx).bind fun c => ?_
  refine (total_captureAll hxs).bind fun later => ?_
  refine (total_settle c later).bind fun v => ?_
  exact (total_settleAll later).bind fun vs => .pure (v, vs)

theorem total_inOrderPair {x y : Operand} (hx : Total x.lower) (hy : Total y.lower) :
    Total (inOrderPair x y) := by
  refine (total_captured hx).bind fun c => ?_
  refine (total_captured hy).bind fun d => ?_
  refine (total_settle c [d]).bind fun v => ?_
  exact (total_settle d []).bind fun u => .pure (v, u)

/-! ### Truth, assignments and calls -/

theorem total_truthiness {pool : TypePool} {ty : TypeId} {span : Span} (v : Expr) :
    Total (truthiness pool ty span v) := by
  rw [truthiness_eq]
  split
  · exact .pure v
  · exact total_pushTempIfComplex.bind fun _ => .pure _

theorem total_shortCircuit {pool : TypePool} {op : Source.LogicalOp} {span : Span} {ty : TypeId}
    {left right : Lower Expr} (hl : Total left) (hr : Total right) :
    Total (shortCircuit pool op span ty left right) := by
  have block (l r : Expr) (ss : List Stmt) {check : Expr → Lower Expr}
      (hc : ∀ v, Total (check v)) : Total (shortCircuitBlock span l r ss check) := by
    refine total_pushTemp.bind fun t => ?_
    refine (hc t).bind fun c => ?_
    exact (Total.effect _).bind fun _ => .pure t
  refine hl.bind fun l => hr.capture.bind fun ⟨r, ss⟩ => ?_
  cases op with
  | coalesce => exact block l r ss fun _ => .pure _
  | and =>
    simp only
    split
    · exact .pure _
    · exact block l r ss total_truthiness
  | or =>
    simp only
    split
    · exact .pure _
    · exact block l r ss fun v => (total_truthiness v).bind fun _ => .pure _

theorem total_pinPlace (pin : Pin) (span : Span) (p : Place) : Total (pinPlace pin span p) := by
  have part (hint : String) (e : Expr) : Total (pinPart pin hint span e) := by
    cases pin
    · exact total_pushTempIfComplex
    · exact total_pushTempIfUnstable
  cases p with
  | whole e => exact .pure _
  | property o name => exact (part "object" o).bind fun _ => .pure _
  | index o i =>
    refine (part "object" o).bind fun o => ?_
    exact (part "index" i).bind fun i => .pure _

theorem total_targetAndValue {span : Span} {target : Lower Reference} {value : Lower Expr}
    {b : Bool} (ht : Total target) (hv : Total value) :
    Total (targetAndValue span target value b) := by
  refine (ht.map _).bind fun p => hv.capture.bind fun ⟨v, ss⟩ => ?_
  have rest (p : Place) : Total (do
      emitAll ss
      return (WritableTarget.ofPlace p b, v)) := (Total.effect _).bind fun _ => .pure _
  cases hp : pinFor ss b with
  | none => simpa only [hp] using (Total.pure p).bind rest
  | some pin => simpa only [hp] using (total_pinPlace pin span p).bind rest

theorem total_assignValue {span : Span} {target : Lower Reference} {value : Lower Expr}
    (ht : Total target) (hv : Total value) : Total (assignValue span target value) :=
  (total_targetAndValue ht hv).bind fun _ => (Total.effect _).bind fun _ => .pure _

theorem total_updateBefore {op : Source.UpdateOp} {span : Span} {target : Lower Reference}
    (ht : Total target) : Total (updateBefore op span target) := by
  refine (ht.map _).bind fun p => ?_
  refine (total_pinPlace .repeated span p).bind fun p => ?_
  exact (Total.effect _).bind fun _ => .pure _

theorem total_updateAfter {op : Source.UpdateOp} {span : Span} {target : Lower Reference}
    (ht : Total target) : Total (updateAfter op span target) := by
  refine (ht.map _).bind fun p => ?_
  refine (total_pinPlace .repeated span p).bind fun p => ?_
  refine total_pushTemp.bind fun t => ?_
  exact (Total.effect _).bind fun _ => .pure t

theorem total_plainCall {pool : TypePool} {ctx : CallContext} {info calleeInfo : Source.NodeInfo}
    {callee : Lower Expr} {args : List Operand} (hf : Total callee)
    (ha : ∀ x ∈ args, Total x.lower) :
    Total (plainCall pool ctx info calleeInfo callee args) := by
  refine (total_checkNotAny pool calleeInfo).bind fun _ => ?_
  have hall : ∀ x ∈ (⟨calleeInfo.span, callee⟩ : Operand) :: args, Total x.lower :=
    List.forall_mem_cons.2 ⟨hf, ha⟩
  exact (total_inOrderCons hall).bind fun _ => .pure _

end ScriptLowering.Lower
