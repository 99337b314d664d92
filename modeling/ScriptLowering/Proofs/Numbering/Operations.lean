import ScriptLowering.Proofs.Numbering.Shift

/-!
# Renumbering of operations

Each operation of lowering, on operands with their temporaries counted up, does
the same counted up.  What an operation asks of an expression (whether it is
stable, simple, a call) does not depend on the numbers of its temporaries.

    operands shifted → inOrder of them shifted                         (shifted_inOrder)
    target and value shifted → targetAndValue shifted                   (shifted_targetAndValue)
-/

namespace ScriptLowering

open Target (Expr Stmt)
open Renumber (renumber)

/-! ## Algorithm -/

namespace Lower

def Place.shift (k : Nat) : Place → Place
  | whole e => whole (e.shift k)
  | property object name => property (object.shift k) name
  | index object i => index (object.shift k) (i.shift k)

def Reference.shift (k : Nat) : Reference → Reference
  | plain p => plain (p.shift k)
  | paren inner => paren (inner.shift k)

instance : Renumber Place := ⟨Place.shift⟩

instance : Renumber Reference := ⟨Reference.shift⟩

instance : Renumber WritableTarget := ⟨fun k t => ⟨t.write.shift k, t.read.map (Expr.shift k)⟩⟩

instance : Renumber Captured := ⟨fun k c => ⟨c.span, c.value.shift k, renumber k c.stmts⟩⟩

/-! ## Lemmas -/

variable {k : Nat} {pool : TypePool}

/-! ### Operands -/

theorem shifted_operand {x : Operand} (hx : Shifted k x.lower x.lower) :
    Shifted k x.capture x.capture := by
  apply hx.capture.bind
  intro p
  exact .pure _

theorem shifted_captureAll {xs : List Operand} (hx : ∀ x ∈ xs, Shifted k x.lower x.lower) :
    Shifted k (captureAll xs) (captureAll xs) := by
  induction xs with
  | nil => exact .pure []
  | cons x xs ih =>
    obtain ⟨hfirst, hrest⟩ := List.forall_mem_cons.1 hx
    apply (shifted_operand hfirst).bind
    intro c
    apply (ih hrest).bind
    intro cs
    exact .pure (c :: cs)

theorem shifted_settle (c : Captured) (later : List Captured) :
    Shifted k (settle c later) (settle (renumber k c) (renumber k later)) := by
  have hlater : (renumber k later).any (!·.stmts.isEmpty) = later.any (!·.stmts.isEmpty) := by
    rw [renumber_list, List.any_map]
    congr 1
    funext d
    show (!(renumber k d.stmts).isEmpty) = !d.stmts.isEmpty
    rw [renumber_list, List.isEmpty_map]
  unfold settle
  rw [hlater]
  apply (Shifted.emitAll c.stmts).bind
  intro _
  split
  · exact shifted_pushTempIfUnstable "exp" c.span c.value
  · exact .pure c.value

theorem shifted_settleAll (cs : List Captured) :
    Shifted k (settleAll cs) (settleAll (renumber k cs)) := by
  induction cs with
  | nil => exact .pure []
  | cons c later ih =>
    apply (shifted_settle c later).bind
    intro v
    apply ih.bind
    intro vs
    exact .pure (v :: vs)

theorem shifted_inOrder {xs : List Operand} (hx : ∀ x ∈ xs, Shifted k x.lower x.lower) :
    Shifted k (inOrder xs) (inOrder xs) := (shifted_captureAll hx).bind shifted_settleAll

theorem shifted_inOrderCons {x : Operand} {xs : List Operand}
    (hx : ∀ y ∈ x :: xs, Shifted k y.lower y.lower) :
    Shifted k (inOrderCons x xs) (inOrderCons x xs) := by
  obtain ⟨hfirst, hrest⟩ := List.forall_mem_cons.1 hx
  apply (shifted_operand hfirst).bind
  intro c
  apply (shifted_captureAll hrest).bind
  intro later
  apply (shifted_settle c later).bind
  intro v
  apply (shifted_settleAll later).bind
  intro vs
  exact .pure (v, vs)

theorem shifted_inOrderPair {x y : Operand} (hx : Shifted k x.lower x.lower)
    (hy : Shifted k y.lower y.lower) : Shifted k (inOrderPair x y) (inOrderPair x y) := by
  apply (shifted_operand hx).bind
  intro c
  apply (shifted_operand hy).bind
  intro d
  apply (shifted_settle c [d]).bind
  intro v
  apply (shifted_settle d []).bind
  intro u
  exact .pure (v, u)

/-! ### Operators -/

theorem subst_concatOperand (σ : Nat → Expr) (v : Expr) (ty : TypeId) :
    (concatOperand pool ⟨v, ty⟩).subst σ = concatOperand pool ⟨v.subst σ, ty⟩ := by
  unfold concatOperand
  split
  · rfl
  · rw [Expr.subst_call]
    rfl

theorem subst_arithmetic (σ : Nat → Expr) (op : Source.ArithmeticOp) (l r : Expr)
    (lty rty : TypeId) : (arithmetic pool op ⟨l, lty⟩ ⟨r, rty⟩).subst σ =
      arithmetic pool op ⟨l.subst σ, lty⟩ ⟨r.subst σ, rty⟩ := by
  cases op with
  | add =>
    simp only [arithmetic]
    split
    · rw [Expr.subst_arithmetic, subst_concatOperand, subst_concatOperand]
    · rfl
  | sub | mul | div | pow => rfl
  | _ => exact Expr.subst_call ..

theorem shift_arithmetic (op : Source.ArithmeticOp) (l r : Expr) (lty rty : TypeId) :
    (arithmetic pool op ⟨l, lty⟩ ⟨r, rty⟩).shift k =
      arithmetic pool op ⟨l.shift k, lty⟩ ⟨r.shift k, rty⟩ := subst_arithmetic ..

theorem shift_offset (e : Expr) (amount : Number) :
    (offset e amount).shift k = offset (e.shift k) amount := by
  cases e <;> simp only [offset, Expr.shift_arithmetic] <;> rfl

theorem shift_shiftIndex (ty : TypeId) (e : Expr) :
    (shiftIndex pool ty e).shift k = shiftIndex pool ty (e.shift k) := by
  unfold shiftIndex
  split
  · exact shift_offset e .one
  · rfl

theorem shift_negate (e : Expr) : (negate e).shift k = negate (e.shift k) := by
  cases e <;> rfl

theorem shifted_membership (span : Span) (key object : Expr) :
    Shifted k (membership span key object) (membership span (key.shift k) (object.shift k)) := by
  have hkey : Shifted k (membershipKey span key object)
      (membershipKey span (key.shift k) (object.shift k)) := by
    unfold membershipKey
    rw [Expr.isSimple_shift, Expr.isSimple_shift, Expr.isStable_shift]
    split
    · exact .pure key
    · exact shifted_pushTempIfUnstable "exp" span key
  rw [membership_eq, membership_eq]
  apply hkey.bind
  intro u
  exact .pure (Expr.binary .ne (.index object u) .nil)

theorem shifted_relation (op : Source.RelationOp) (span : Span) (l r : Expr) :
    Shifted k (relation op span l r) (relation op span (l.shift k) (r.shift k)) := by
  cases op with
  | isIn => exact shifted_membership span l r
  | instanceOf =>
    apply (Shifted.useHelper .runtime).bind
    intro _
    have h : (Expr.call (helperMember .runtime "instanceof") [l, r]).shift k =
        .call (helperMember .runtime "instanceof") [l.shift k, r.shift k] := Expr.shift_call ..
    rw [← h]
    exact .pure _
  | _ => exact .pure (Expr.binary _ l r)

theorem shifted_looseEquality (op : Source.LooseOp) (span : Span) :
    Shifted k (looseEquality op span) (looseEquality op span) := by
  cases op
  all_goals
    apply (Shifted.report _ _ _).bind
    intro _
    exact .pure Expr.placeholder

/-! ### Truth -/

theorem shift_conjunction (cs : List Expr) (v : Expr) :
    (conjunction cs v).shift k = conjunction (cs.map (Expr.shift k)) (v.shift k) := by
  have fold (ds : List Expr) (c : Expr) : (ds.foldl (.binary .and) c).shift k =
      (ds.map (Expr.shift k)).foldl (.binary .and) (c.shift k) := by
    induction ds generalizing c with
    | nil => rfl
    | cons d ds ih => exact ih (.binary .and c d)
  cases cs with
  | nil => rfl
  | cons c cs =>
    rw [List.map_cons, conjunction_cons, conjunction_cons, Expr.shift_binary, fold]

theorem shift_truthTest (ty : TypeId) (v : Expr) :
    (truthTest pool ty v).shift k = truthTest pool ty (v.shift k) := by
  unfold truthTest
  rw [shift_conjunction, List.map_append]
  congr 2
  · split <;> rfl
  · split <;> rfl

theorem shifted_truthiness (ty : TypeId) (span : Span) (v : Expr) :
    Shifted k (truthiness pool ty span v) (truthiness pool ty span (v.shift k)) := by
  rw [truthiness_eq, truthiness_eq]
  split
  · exact .pure v
  · apply (shifted_pushTempIfComplex "exp" span v).bind
    intro u
    rw [renumber_expr, ← shift_truthTest]
    exact .pure _

theorem shifted_shortCircuitBlock (span : Span) (l r : Expr) (ss : List Stmt)
    {check : Expr → Lower Expr} (hc : ∀ v, Shifted k (check v) (check (v.shift k))) :
    Shifted k (shortCircuitBlock span l r ss check)
      (shortCircuitBlock span (l.shift k) (r.shift k) (renumber k ss) check) := by
  apply (shifted_pushTemp "result" span l).bind
  intro t
  apply (hc t).bind
  intro c
  have hblock : (Stmt.ifThen c (ss ++ [.assign t r])).shift k =
      .ifThen (c.shift k) (renumber k ss ++ [.assign (t.shift k) (r.shift k)]) := by
    rw [Stmt.shift, Stmt.shiftAll_eq_map, List.map_append]
    rfl
  have hemit := Shifted.emit (k := k) (.ifThen c (ss ++ [.assign t r]))
  rw [hblock] at hemit
  apply hemit.bind
  intro _
  exact .pure t

theorem shifted_shortCircuit {op : Source.LogicalOp} {span : Span} {ty : TypeId}
    {left right : Lower Expr} (hl : Shifted k left left) (hr : Shifted k right right) :
    Shifted k (shortCircuit pool op span ty left right)
      (shortCircuit pool op span ty left right) := by
  apply hl.bind
  intro l
  apply hr.capture.bind
  rintro ⟨r, ss⟩
  have hnative : isNativeLogical pool ty (renumber k ss) = isNativeLogical pool ty ss := by
    unfold isNativeLogical
    rw [renumber_list, List.isEmpty_map]
  cases op with
  | coalesce =>
    apply shifted_shortCircuitBlock span l r ss
    intro v
    exact .pure (Expr.binary .eq v .nil)
  | and =>
    simp only [renumber_prod, hnative]
    split
    · exact .pure (Expr.binary .and l r)
    · exact shifted_shortCircuitBlock span l r ss (shifted_truthiness ty span)
  | or =>
    simp only [renumber_prod, hnative]
    split
    · exact .pure (Expr.binary .or l r)
    · apply shifted_shortCircuitBlock span l r ss
      intro v
      apply (shifted_truthiness ty span v).bind
      intro c
      exact .pure (Expr.unary .not c)

/-! ### Places -/

theorem Reference.value_shift (r : Reference) : (r.shift k).value = r.value.shift k := by
  induction r with
  | plain p => cases p <;> rfl
  | paren inner ih => exact congrArg Expr.paren ih

theorem Reference.place_shift (r : Reference) : (r.shift k).place = r.place.shift k := by
  induction r with
  | plain p => rfl
  | paren inner ih => exact ih

theorem Place.toExpr_shift (p : Place) : (p.shift k).toExpr = p.toExpr.shift k := by
  cases p <;> rfl

theorem renumber_ofPlace (p : Place) (b : Bool) :
    renumber k (WritableTarget.ofPlace p b) = .ofPlace (p.shift k) b := by
  cases b <;> simp only [WritableTarget.ofPlace, Place.toExpr_shift] <;> rfl

theorem readable_renumber (t : WritableTarget) :
    (renumber k t).readable = t.readable.shift k := by
  rcases t with ⟨w, _ | r⟩ <;> rfl

theorem shifted_asValue {x : Lower Reference} (hx : Shifted k x x) :
    Shifted k (asValue x) (asValue x) := hx.map Reference.value_shift

theorem shifted_asPlace {x : Lower Reference} (hx : Shifted k x x) :
    Shifted k (asPlace x) (asPlace x) := hx.map Reference.place_shift

theorem shifted_asPlaceExpr {x : Lower Reference} (hx : Shifted k x x) :
    Shifted k (asPlaceExpr x) (asPlaceExpr x) := by
  apply hx.map
  intro r
  show (r.shift k).place.toExpr = _
  rw [Reference.place_shift, Place.toExpr_shift]
  rfl

theorem shifted_asReference {x : Lower Expr} (hx : Shifted k x x) :
    Shifted k (asReference x) (asReference x) := hx.map fun _ => rfl

theorem shifted_pinPart (pin : Pin) (hint : String) (span : Span) (e : Expr) :
    Shifted k (pinPart pin hint span e) (pinPart pin hint span (e.shift k)) := by
  cases pin with
  | repeated => exact shifted_pushTempIfComplex hint span e
  | reordered => exact shifted_pushTempIfUnstable hint span e

theorem shifted_pinPlace (pin : Pin) (span : Span) (p : Place) :
    Shifted k (pinPlace pin span p) (pinPlace pin span (p.shift k)) := by
  cases p with
  | whole e => exact .pure (Place.whole e)
  | property o name =>
    apply (shifted_pinPart pin "object" span o).bind
    intro o
    exact .pure (Place.property o name)
  | index o i =>
    apply (shifted_pinPart pin "object" span o).bind
    intro o
    apply (shifted_pinPart pin "index" span i).bind
    intro i
    exact .pure (Place.index o i)

/-! ### Assignments -/

theorem pinFor_renumber (ss : List Stmt) (b : Bool) : pinFor (renumber k ss) b = pinFor ss b := by
  cases ss <;> rfl

theorem shifted_targetAndValue {span : Span} {target : Lower Reference} {value : Lower Expr}
    {b : Bool} (ht : Shifted k target target) (hv : Shifted k value value) :
    Shifted k (targetAndValue span target value b) (targetAndValue span target value b) := by
  apply (shifted_asPlace ht).bind
  intro p
  apply hv.capture.bind
  rintro ⟨v, ss⟩
  have rest (p : Place) : Shifted k
      (do emitAll ss; return (WritableTarget.ofPlace p b, v))
      (do emitAll (renumber k ss); return (WritableTarget.ofPlace (p.shift k) b, v.shift k)) := by
    apply (Shifted.emitAll ss).bind
    intro _
    rw [← renumber_ofPlace]
    exact .pure (WritableTarget.ofPlace p b, v)
  simp only [renumber_prod, pinFor_renumber]
  cases pinFor ss b with
  | none => exact (Shifted.pure p).bind rest
  | some pin => exact (shifted_pinPlace pin span p).bind rest

variable {target : Lower Reference} {value : Lower Expr}

theorem shifted_assignValue {span : Span} (ht : Shifted k target target)
    (hv : Shifted k value value) :
    Shifted k (assignValue span target value) (assignValue span target value) := by
  apply (shifted_targetAndValue ht hv).bind
  rintro ⟨t, v⟩
  apply (Shifted.emit (.assign t.write v)).bind
  intro _
  rw [readable_renumber]
  exact .pure t.readable

theorem shifted_compoundValue {op : Source.ArithmeticOp} {info : Source.NodeInfo} {ty : TypeId}
    (ht : Shifted k target target) (hv : Shifted k value value) :
    Shifted k (compoundValue pool op info ty target value)
      (compoundValue pool op info ty target value) := by
  apply (shifted_targetAndValue ht hv).bind
  rintro ⟨t, v⟩
  have hemit := Shifted.emit (k := k)
    (.assign t.write (arithmetic pool op ⟨t.readable, info.ty⟩ ⟨v, ty⟩))
  simp only [Stmt.shift, shift_arithmetic] at hemit
  simp only [renumber_prod, readable_renumber]
  apply hemit.bind
  intro _
  exact .pure t.readable

theorem shift_updateBy (op : Source.UpdateOp) (e : Expr) :
    (updateBy op e).shift k = updateBy op (e.shift k) := rfl

theorem shifted_updateBefore {op : Source.UpdateOp} {span : Span} (ht : Shifted k target target) :
    Shifted k (updateBefore op span target) (updateBefore op span target) := by
  apply (shifted_asPlace ht).bind
  intro p
  apply (shifted_pinPlace .repeated span p).bind
  intro p
  show Shifted k _ (emit (updateBy op (p.shift k).toExpr) >>= fun _ => pure (p.shift k).toExpr)
  rw [Place.toExpr_shift, ← shift_updateBy]
  apply (Shifted.emit _).bind
  intro _
  exact .pure p.toExpr

theorem shifted_updateAfter {op : Source.UpdateOp} {span : Span} (ht : Shifted k target target) :
    Shifted k (updateAfter op span target) (updateAfter op span target) := by
  apply (shifted_asPlace ht).bind
  intro p
  apply (shifted_pinPlace .repeated span p).bind
  intro p
  show Shifted k _ (pushTemp "original" span (p.shift k).toExpr >>= fun copy =>
    emit (updateBy op (p.shift k).toExpr) >>= fun _ => pure copy)
  rw [Place.toExpr_shift, ← shift_updateBy]
  apply (shifted_pushTemp "original" span p.toExpr).bind
  intro copy
  apply (Shifted.emit _).bind
  intro _
  exact .pure copy

end Lower

end ScriptLowering
