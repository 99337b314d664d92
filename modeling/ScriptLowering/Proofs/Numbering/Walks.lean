import Mathlib.Data.List.InsertIdx
import ScriptLowering.Proofs.Numbering.Expressions
import ScriptLowering.Proofs.Walk.Operations

/-!
# Walks from a later id

A walk begun by a lowerer with more temporaries does the same to it with all its
temporaries counted up, unless it runs out of ids.  A walk reads nothing else of
the lowerer that it changes, and what it changes is only added to.

    Shifted k x y: where x panics, y does; where x adds e to its lowerer, y adds e counted up
    x and y shifted, f a and g (a renumbered) shifted → x >>= f and y >>= g shifted     (bind)
    an action shifted → its lift shifted                                               (lift)
-/

namespace ScriptLowering.Walk

open Lower (CallContext Captured Pin Place WritableTarget renumber_list renumber_prod
  renumber_expr readable_renumber)
open Renumber (renumber)
open Source (ArithmeticOp BinaryOp NodeInfo)
open Target (Expr Stmt)

instance : Renumber Bool := ⟨fun _ b => b⟩

instance : Renumber String := ⟨fun _ s => s⟩

variable {α β γ : Type} [Renumber α] [Renumber β] {k : Nat}

/-! ## Algorithm -/

/-- Begun with `k` more temporaries, `y` does what `x` does: it panics where `x` does, and else
has the result of `x` and adds what `x` adds, both counted up, if there are ids for that. -/
def Shifted (k : Nat) (x y : Walk α) : Prop :=
  ∀ l l' : Lowerer, l'.unit.nextTemp = l.unit.nextTemp + k →
    (∃ p p', x l = .error p ∧ y l' = .error p') ∨
      ∃ r e, x l = .ok (r, l.extend e) ∧
        y l' = if e.temps.length ≤ l'.idsLeft then
          .ok (r.map (renumber k), l'.extend (e.shift k)) else .error .temps

/-! ## Lemmas -/

namespace Shifted

theorem panic (p : Panic) : Shifted k (panic p : Walk α) (Walk.panic p) :=
  fun _ _ _ => .inl ⟨p, p, rfl, rfl⟩

/-- What an action does from a later id, its walk does, with the ids that are left. -/
theorem lift {x y : Lower α} (h : Lower.Shifted k x y) : Shifted k (lift x) (Walk.lift y) := by
  intro l l' hnext
  have hy := h l.unit.nextTemp
  rw [← hnext] at hy
  rcases hx : x l.unit.nextTemp with ⟨r, e⟩
  rw [hx] at hy
  simp only [lift_apply, hx, hy]
  have hleft : l'.idsLeft ≤ l.idsLeft := by
    unfold Lowerer.idsLeft
    omega
  by_cases hfits : e.temps.length ≤ l.idsLeft
  · rw [if_pos hfits]
    rcases r with (err | f) | a
    case error.fault =>
      refine .inl ⟨.subType f, if e.temps.length ≤ l'.idsLeft then .subType f else .temps, rfl, ?_⟩
      exact (apply_ite Except.error ..).symm
    case error.error => exact .inr ⟨.error err, e, rfl, rfl⟩
    case ok => exact .inr ⟨.ok a, e, rfl, rfl⟩
  · have hfull : ¬e.temps.length ≤ l'.idsLeft := fun h => hfits (Nat.le_trans h hleft)
    exact .inl ⟨.temps, .temps, if_neg hfits, if_neg hfull⟩

theorem pure (a : α) : Shifted k (pure a) (pure (renumber k a)) := by
  simp only [← lift_pure]
  exact lift (.pure a)

/-- A result whose parts are counted up. -/
theorem pure_of {a b : α} (h : renumber k a = b) : Shifted k (Pure.pure a) (Pure.pure b) :=
  h ▸ pure a

theorem fail (e : LowerError) : Shifted k (fail e : Walk α) (Walk.fail e) := by
  rw [fail_eq]
  exact lift (.fail e)

theorem bind {x y : Walk α} {f g : α → Walk β} (hx : Shifted k x y)
    (hf : ∀ a, Shifted k (f a) (g (renumber k a))) : Shifted k (x >>= f) (y >>= g) := by
  intro l l' hnext
  rw [bind_apply, bind_apply]
  obtain ⟨p, p', hxl, hyl⟩ | ⟨r, e, hxl, hyl⟩ := hx l l' hnext
  · exact .inl ⟨p, p', by rw [hxl], by rw [hyl]⟩
  rw [hxl, hyl]
  cases r with
  | error err =>
    refine .inr ⟨.error err, e, rfl, ?_⟩
    by_cases hfits : e.temps.length ≤ l'.idsLeft
    · rw [if_pos hfits, if_pos hfits]
      rfl
    · rw [if_neg hfits, if_neg hfits]
  | ok a =>
    have hlater : (l'.extend (e.shift k)).unit.nextTemp = (l.extend e).unit.nextTemp + k := by
      rw [Lowerer.nextTemp_extend, Lowerer.nextTemp_extend, hnext, Nat.add_right_comm]
      rfl
    have hroom (e' : Effects) : (e ++ e').temps.length ≤ l'.idsLeft ↔ e.temps.length ≤ l'.idsLeft ∧
        e'.temps.length ≤ (l'.extend (e.shift k)).idsLeft :=
      l'.room_append (e.shift k) (e'.shift k)
    obtain ⟨p, p', hfl, hgl⟩ | ⟨r, e', hfl, hgl⟩ := hf a _ _ hlater
    · refine .inl ⟨p, if e.temps.length ≤ l'.idsLeft then p' else .temps, hfl, ?_⟩
      by_cases hfits : e.temps.length ≤ l'.idsLeft
      · rw [if_pos hfits, if_pos hfits]
        exact hgl
      · rw [if_neg hfits, if_neg hfits]
    · rw [Lowerer.extend_append] at hfl
      rw [Lowerer.extend_append, ← Effects.shift_append] at hgl
      refine .inr ⟨r, e ++ e', hfl, ?_⟩
      by_cases hfits : e.temps.length ≤ l'.idsLeft
      · rw [if_pos hfits]
        exact hgl.trans (ite_congr (propext ((hroom e').trans (and_iff_right hfits)).symm)
          (fun _ => rfl) fun _ => rfl)
      · rw [if_neg hfits, if_neg fun h => hfits ((hroom e').1 h).1]

theorem map {x y : Walk α} {f g : α → β} (hx : Shifted k x y)
    (hf : ∀ a, g (renumber k a) = renumber k (f a)) : Shifted k (f <$> x) (g <$> y) := by
  rw [map_eq_pure_bind, map_eq_pure_bind]
  apply hx.bind
  intro a
  rw [hf a]
  exact pure (f a)

theorem capture {x y : Walk α} (hx : Shifted k x y) : Shifted k (capture x) (Walk.capture y) := by
  intro l l' hnext
  unfold Walk.capture
  obtain ⟨p, p', hxl, hyl⟩ | ⟨r, e, hxl, hyl⟩ :=
    hx { l with prereqs := [] } { l' with prereqs := [] } hnext
  · exact .inl ⟨p, p', by rw [hxl], by rw [hyl]⟩
  rw [hxl, hyl]
  have kept (l : Lowerer) (e : Effects) : { l with unit := l.unit.extend e } =
      l.extend e.withoutStmts := (l.extend_of_no_stmts (e := e.withoutStmts) rfl).symm
  have hleft : ({ l' with prereqs := [] } : Lowerer).idsLeft = l'.idsLeft := rfl
  refine .inr ⟨(·, e.stmts) <$> r, e.withoutStmts, ?_, ?_⟩
  · rw [← kept]
    rfl
  · rw [hleft]
    by_cases hfits : e.temps.length ≤ l'.idsLeft
    · rw [if_pos hfits]
      refine Eq.trans ?_ (if_pos hfits).symm
      have hkept := kept l' (e.shift k)
      cases r <;> exact congrArg (fun l => Except.ok (_, l)) hkept
    · rw [if_neg hfits]
      exact (if_neg hfits).symm

/-- What is asked without the lowerer holds no temporaries. -/
theorem check_bind {x : Except Panic γ} {f g : γ → Walk β} (hf : ∀ a, Shifted k (f a) (g a)) :
    Shifted k (check x >>= f) (check x >>= g) := by
  cases x with
  | error p => exact panic p
  | ok a => exact hf a

theorem indexed_bind {x : Except Fault γ} {f g : γ → Walk β} (hf : ∀ a, Shifted k (f a) (g a)) :
    Shifted k (indexed x >>= f) (indexed x >>= g) := by
  cases x with
  | error => exact panic .index
  | ok a => exact hf a

theorem ofFault_bind {x : Except Fault γ} {f g : γ → Walk β} (hf : ∀ a, Shifted k (f a) (g a)) :
    Shifted k (ofFault x >>= f) (ofFault x >>= g) := by
  cases x with
  | error fault => exact panic (.subType fault)
  | ok a => exact hf a

theorem check_map (x : Except Panic α) :
    Shifted k (check x) (check (x.map (renumber k))) := by
  cases x with
  | error p => exact panic p
  | ok a => exact pure a

theorem emitAll (ss : List Stmt) : Shifted k (emitAll ss) (Walk.emitAll (renumber k ss)) := by
  simp only [emitAll_eq]
  exact lift (.emitAll ss)

theorem emit (s : Stmt) : Shifted k (emit s) (Walk.emit (s.shift k)) := by
  simp only [emit_eq]
  exact lift (.emit s)

theorem report (kind : DiagnosticKind) (span : Span) (message : String) :
    Shifted k (report kind span message) (Walk.report kind span message) := by
  rw [report_eq]
  exact lift (.report kind span message)

theorem useHelper (h : Helper) : Shifted k (useHelper h) (Walk.useHelper h) := by
  rw [useHelper_eq]
  exact lift (.useHelper h)

end Shifted

/-! ### Temporaries -/

section Temporaries

variable (hint : String) (span : Span)

theorem shifted_pushTemp (v : Expr) :
    Shifted k (pushTemp hint span v) (pushTemp hint span (v.shift k)) := by
  simp only [pushTemp_eq]
  exact .lift (Lower.shifted_pushTemp hint span v)

theorem shifted_pushTempIfComplex (v : Expr) :
    Shifted k (pushTempIfComplex hint span v) (pushTempIfComplex hint span (v.shift k)) := by
  simp only [pushTempIfComplex_eq]
  exact .lift (Lower.shifted_pushTempIfComplex hint span v)

theorem shifted_pinPlace (pin : Pin) (p : Place) :
    Shifted k (pinPlace pin span p) (pinPlace pin span (p.shift k)) := by
  simp only [pinPlace_eq]
  exact .lift (Lower.shifted_pinPlace pin span p)

end Temporaries

/-! ### Operands -/

section Operands

variable {f : NamedFile} {walk : Nat → ExprId → Walk Expr}
  (hw : ∀ i e, Shifted k (walk i e) (walk i e))

include hw

theorem shifted_capturedFrom (first : Nat) (ids : List ExprId) :
    Shifted k (capturedFrom f walk first ids) (capturedFrom f walk first ids) := by
  induction ids generalizing first with
  | nil => exact .pure ([] : List Captured)
  | cons e ids ih =>
    apply (hw first e).capture.bind
    rintro ⟨v, ss⟩
    apply Shifted.indexed_bind
    intro n
    apply (ih (first + 1)).bind
    intro cs
    exact .pure ((⟨n.span, v, ss⟩ : Captured) :: cs)

theorem shifted_inOrder (ids : List ExprId) :
    Shifted k (inOrder f walk ids) (inOrder f walk ids) := by
  apply (shifted_capturedFrom hw 0 ids).bind
  intro cs
  simp only [settleAll_eq]
  exact .lift (Lower.shifted_settleAll cs)

end Operands

theorem shifted_pairOf (vs : List Expr) : Shifted k (pairOf vs) (pairOf (renumber k vs)) := by
  rcases vs with _ | ⟨a, _ | ⟨b, _⟩⟩
  · exact .panic .operands
  · exact .panic .operands
  · exact .pure (a, b)

theorem shifted_removeAt (i : Nat) (vs : List Expr) :
    Shifted k (removeAt i vs) (removeAt i (renumber k vs)) := by
  unfold removeAt
  rw [renumber_list, List.getElem?_map]
  cases vs[i]? with
  | none => exact .panic .receiver
  | some v =>
    simp only [Option.map_some, List.eraseIdx_map]
    exact .pure (v, vs.eraseIdx i)

theorem shifted_insertAt (i : Nat) (v : Expr) (vs : List Expr) :
    Shifted k (insertAt i v vs) (insertAt i (v.shift k) (renumber k vs)) := by
  unfold insertAt
  rw [renumber_list, List.length_map]
  split
  · have h := Shifted.pure (k := k) (vs.insertIdx i v)
    rwa [renumber_list, List.map_insertIdx] at h
  · exact .panic .receiver

/-! ### Operators -/

section Types

variable {p : TypePool}

theorem concatOperand_shift (v : Expr) (ty : TypeId) :
    concatOperand p ⟨v.shift k, ty⟩ = (concatOperand p ⟨v, ty⟩).map (renumber k) := by
  have hcall : (Expr.call (.ident "tostring") [v]).shift k =
      .call (.ident "tostring") [v.shift k] := Expr.shift_call ..
  simp only [concatOperand, bind, Except.bind]
  rcases definitelyA p ty .string with _ | _ | _
  · rfl
  · rcases definitelyA p ty .number with _ | _ | _
    · rfl
    · exact congrArg Except.ok hcall.symm
    · rfl
  · rfl

theorem arithmetic_shift (op : ArithmeticOp) (l r : Expr) (lty rty : TypeId) :
    arithmetic p op ⟨l.shift k, lty⟩ ⟨r.shift k, rty⟩ =
      (arithmetic p op ⟨l, lty⟩ ⟨r, rty⟩).map (renumber k) := by
  cases op with
  | add =>
    simp only [arithmetic, concatOperand_shift, bind, Except.bind]
    rcases isConcat p lty rty with _ | _ | _
    · rfl
    · rfl
    · rcases concatOperand p ⟨l, lty⟩ with _ | l
      · rfl
      · rcases concatOperand p ⟨r, rty⟩ with _ | r <;> rfl
  | _ => exact congrArg Except.ok (Lower.shift_arithmetic _ l r lty rty).symm

theorem shiftIndex_shift (ty : TypeId) (i : Expr) :
    shiftIndex p ty (i.shift k) = (shiftIndex p ty i).map (renumber k) := by
  unfold shiftIndex
  cases definitely p ty (hasEither p .array .undefined) with
  | error => rfl
  | ok shifts =>
    cases shifts
    · rfl
    · exact congrArg Except.ok (Lower.shift_offset i .one).symm

theorem shifted_relation (op : Source.RelationOp) (span : Span) (l r : Expr) :
    Shifted k (relation op span l r) (relation op span (l.shift k) (r.shift k)) := by
  simp only [relation_eq]
  exact .lift (Lower.shifted_relation op span l r)

theorem shifted_looseEquality (op : Source.LooseOp) (span : Span) :
    Shifted k (looseEquality op span) (looseEquality op span) := by
  rw [looseEquality_eq]
  exact .lift (Lower.shifted_looseEquality op span)

/-! ### Truth -/

theorem shift_checks (number string : Bool) (v : Expr) :
    (Lower.conjunction ((if number then Lower.numberChecks v else []) ++
        (if string then Lower.stringChecks v else [])) v).shift k =
      Lower.conjunction ((if number then Lower.numberChecks (v.shift k) else []) ++
        (if string then Lower.stringChecks (v.shift k) else [])) (v.shift k) := by
  rw [Lower.shift_conjunction, List.map_append]
  cases number <;> cases string <;> rfl

theorem shifted_truthiness (ty : TypeId) (span : Span) (v : Expr) :
    Shifted k (truthiness p ty span v) (truthiness p ty span (v.shift k)) := by
  apply Shifted.check_bind
  rintro ⟨number, string⟩
  have checked : Shifted k
      (do
        let v ← pushTempIfComplex "exp" span v
        return Lower.conjunction ((if number then Lower.numberChecks v else []) ++
          (if string then Lower.stringChecks v else [])) v)
      (do
        let v ← pushTempIfComplex "exp" span (v.shift k)
        return Lower.conjunction ((if number then Lower.numberChecks v else []) ++
          (if string then Lower.stringChecks v else [])) v) := by
    apply (shifted_pushTempIfComplex "exp" span v).bind
    intro v
    rw [renumber_expr, ← shift_checks]
    exact .pure _
  cases number <;> cases string
  case false.false => exact .pure v
  all_goals exact checked

theorem shifted_assignInBlock (condition target value : Expr) (ss : List Stmt) :
    Shifted k (assignInBlock condition target value ss)
      (assignInBlock (condition.shift k) (target.shift k) (value.shift k) (renumber k ss)) := by
  have hblock : (Stmt.ifThen condition (ss ++ [.assign target value])).shift k =
      .ifThen (condition.shift k)
        (renumber k ss ++ [.assign (target.shift k) (value.shift k)]) := by
    rw [Stmt.shift, Stmt.shiftAll_eq_map, List.map_append]
    rfl
  unfold assignInBlock
  rw [← hblock]
  exact .emit _

theorem shifted_truthBlock (condition : Expr → Expr)
    (hc : ∀ v, condition (v.shift k) = (condition v).shift k) (ty : TypeId) (span : Span)
    (l r : Expr) (ss : List Stmt) :
    Shifted k (truthBlock p ty span condition l r ss)
      (truthBlock p ty span condition (l.shift k) (r.shift k) (renumber k ss)) := by
  apply (shifted_pushTemp "result" span l).bind
  intro result
  apply (shifted_truthiness ty span result).bind
  intro truth
  rw [renumber_expr, renumber_expr, hc]
  apply (shifted_assignInBlock (condition truth) result r ss).bind
  intro _
  exact .pure result

theorem shifted_shortCircuit {op : Source.LogicalOp} {span : Span} {ty : TypeId}
    {left right : Walk Expr} (hl : Shifted k left left) (hr : Shifted k right right) :
    Shifted k (shortCircuit p op span ty left right) (shortCircuit p op span ty left right) := by
  apply hl.bind
  intro l
  apply hr.capture.bind
  rintro ⟨r, ss⟩
  have hempty : (renumber k ss).isEmpty = ss.isEmpty := by rw [renumber_list, List.isEmpty_map]
  cases op with
  | coalesce =>
    apply (shifted_pushTemp "result" span l).bind
    intro result
    apply (shifted_assignInBlock (.binary .eq result .nil) result r ss).bind
    intro _
    exact .pure result
  | and =>
    simp only [renumber_prod, hempty]
    apply Shifted.check_bind
    intro checks
    split
    · exact .pure (Expr.binary .and l r)
    · exact shifted_truthBlock id (fun _ => rfl) ty span l r ss
  | or =>
    simp only [renumber_prod, hempty]
    apply Shifted.check_bind
    intro checks
    split
    · exact .pure (Expr.binary .or l r)
    · exact shifted_truthBlock (.unary .not) (fun _ => rfl) ty span l r ss

/-! ### Assignments -/

theorem shifted_targetAndValue {span : Span} {target : Walk Place} {value : Walk Expr} {b : Bool}
    (ht : Shifted k target target) (hv : Shifted k value value) :
    Shifted k (targetAndValue span target value b) (targetAndValue span target value b) := by
  apply ht.bind
  intro place
  apply hv.capture.bind
  rintro ⟨v, ss⟩
  have rest (place : Place) : Shifted k
      (do emitAll ss; return (WritableTarget.ofPlace place b, v))
      (do emitAll (renumber k ss)
          return (WritableTarget.ofPlace (place.shift k) b, v.shift k)) := by
    apply (Shifted.emitAll ss).bind
    intro _
    rw [← Lower.renumber_ofPlace]
    exact .pure (WritableTarget.ofPlace place b, v)
  simp only [renumber_prod, Lower.pinFor_renumber]
  cases Lower.pinFor ss b with
  | none => exact (Shifted.pure place).bind rest
  | some pin => exact (shifted_pinPlace span pin place).bind rest

section Target

variable {span : Span} {target : Walk Place} {value : Walk Expr} (ht : Shifted k target target)
  (hv : Shifted k value value)

include ht hv

theorem shifted_assignValue :
    Shifted k (assignValue span target value) (assignValue span target value) := by
  apply (shifted_targetAndValue ht hv).bind
  rintro ⟨t, v⟩
  apply (Shifted.emit (.assign t.write v)).bind
  intro _
  rw [readable_renumber]
  exact .pure t.readable

theorem shifted_assignStatement :
    Shifted k (assignStatement span target value) (assignStatement span target value) := by
  apply (shifted_targetAndValue ht hv).bind
  rintro ⟨t, v⟩
  exact .pure (Stmt.assign t.write v)

end Target

theorem shifted_indexableSource (span : Span) (ty : SubType) (source : Expr) :
    Shifted k (indexableSource p span ty source) (indexableSource p span ty (source.shift k)) := by
  apply Shifted.check_bind
  intro indexable
  split
  · exact .pure source
  · apply (Shifted.useHelper .array).bind
    intro _
    have h : (Expr.call (Lower.helperMember .array "from") [source]).shift k =
        .call (Lower.helperMember .array "from") [source.shift k] := Expr.shift_call ..
    rw [← h]
    exact shifted_pushTemp "value" span _

/-! ### Calls -/

theorem shifted_checkNotAny (info : NodeInfo) :
    Shifted k (checkNotAny p info) (checkNotAny p info) := by
  apply Shifted.check_bind
  intro isAny
  split
  · exact .report _ _ _
  · exact .pure ()

theorem shifted_packReturn (ctx : CallContext) (ty : TypeId) (call : Expr) :
    Shifted k (packReturn p ctx ty call) (packReturn p ctx ty (call.shift k)) := by
  unfold packReturn
  rw [Expr.isCall_shift]
  split
  · apply Shifted.check_bind
    intro packs
    split
    · exact .pure (Expr.pack call)
    · exact .pure call
  · exact .pure call

theorem shifted_superClass (ty : TypeId) (span : Span) :
    Shifted k (superClass p ty span) (superClass p ty span) := by
  apply Shifted.check_bind
  rintro (_ | name)
  · exact .fail _
  · exact .pure name

theorem shifted_isMethodCall (calleeTy : TypeId) (member : String) (span : Span) :
    Shifted k (isMethodCall p calleeTy member span) (isMethodCall p calleeTy member span) := by
  apply Shifted.check_bind
  intro signatures
  split
  · exact .fail _
  · split
    · exact .pure true
    · exact .pure false
    · exact .fail _

end Types

/-! ### Names -/

section Names

variable {f : NamedFile}

theorem shifted_readName (s : String) : Shifted k (readName f s) (readName f s) := by
  unfold readName
  split
  · exact .pure ()
  · exact .panic .name

theorem shifted_enterName (s : String) : Shifted k (enterName f s) (enterName f s) := by
  unfold enterName
  split
  · exact .pure ()
  · exact .panic .text

/-! ### Forms on two values -/

theorem shifted_onValues (op : BinaryOp) (span : Span) (l r : Expr) (lty rty : TypeId) :
    Shifted k (onValues f op span ⟨l, lty⟩ ⟨r, rty⟩)
      (onValues f op span ⟨l.shift k, lty⟩ ⟨r.shift k, rty⟩) := by
  cases op with
  | arithmetic op =>
    have hentered : Shifted k (enterMember f op) (enterMember f op) := by
      unfold enterMember
      split
      · exact shifted_enterName _
      · exact .pure ()
    apply hentered.bind
    intro _
    rw [arithmetic_shift]
    exact .check_map _
  | relation op => exact shifted_relation op span l r
  | loose | logical | assign | assignWith => exact .panic .operator

variable {op : BinaryOp} {span : Span} {info : NodeInfo} {ty : TypeId} {target : Walk Place}
  {value : Walk Expr} (ht : Shifted k target target) (hv : Shifted k value value)

include ht hv

theorem shifted_compoundValue :
    Shifted k (compoundValue f op span info ty target value)
      (compoundValue f op span info ty target value) := by
  apply (shifted_targetAndValue ht hv).bind
  rintro ⟨t, v⟩
  have combined := shifted_onValues (k := k) (f := f) (baseOf op) span t.readable v info.ty ty
  simp only [renumber_prod, readable_renumber]
  apply combined.bind
  intro combined
  apply (Shifted.emit (.assign t.write combined)).bind
  intro _
  exact .pure t.readable

theorem shifted_compoundStatement :
    Shifted k (compoundStatement f op span info ty target value)
      (compoundStatement f op span info ty target value) := by
  apply Shifted.check_bind
  rintro (_ | native)
  · apply (shifted_targetAndValue ht hv).bind
    rintro ⟨t, v⟩
    simp only [renumber_prod, readable_renumber]
    apply (shifted_onValues (baseOf op) span t.readable v info.ty ty).bind
    intro combined
    exact .pure (Stmt.assign t.write combined)
  · apply (shifted_targetAndValue ht hv).bind
    rintro ⟨t, v⟩
    simp only [renumber_prod, renumber_expr, concatOperand_shift]
    split
    · apply (Shifted.check_map _).bind
      intro v
      exact .pure (Stmt.compound native t.write v)
    · exact .pure (Stmt.compound native t.write v)

end Names

end ScriptLowering.Walk
