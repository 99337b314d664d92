import ScriptLowering.Lowering.Assignment
import ScriptLowering.Lowering.Pattern
import ScriptLowering.Proofs.Helpers.Flagged

/-!
# Flags of operations

What an operation makes of its operands refers to what they refer to, and to the
namespace that it flags.  An operand that is lowered from nothing refers only to
what was flagged on the way, and then so does the operation.

    refers h (arithmetic op l r) ↔ refers h l ∨ refers h r                  (refers_operation)
    target and value flagged from nothing → so is the assignment           (flagged_assignValue)
-/

namespace ScriptLowering

open Target (Expr Stmt)
open Refers (refers proper)

/-! ## Algorithm -/

namespace Lower

def Place.refers (h : Helper) : Place → Prop
  | whole e | property e _ => Refers.refers h e
  | index o i => Refers.refers h o ∨ Refers.refers h i

def Place.proper : Place → Prop
  | whole e | property e _ => Refers.proper e
  | index o i => Refers.proper o ∧ Refers.proper i

instance : Refers Place := ⟨Place.refers, Place.proper⟩

instance : Refers Reference := ⟨fun h r => refers h r.place, fun r => proper r.place⟩

instance : Refers WritableTarget :=
  ⟨fun h t => refers h t.write, fun t => t.readable = t.write ∧ proper t.write⟩

end Lower

/-! ## Lemmas -/

variable {h : Helper}

/-! ### Expressions -/

namespace Target.Expr

variable {a b : Expr}

theorem not_refers_of_isSimple {e : Expr} (he : e.isSimple) : refers h e ↔ False := by
  simp [refers, members_of_isSimple he]

@[simp] theorem refers_ident (name : String) : refers h (ident name) ↔ False :=
  not_refers_of_isSimple rfl

@[simp] theorem refers_placeholder : refers h placeholder ↔ False := not_refers_of_isSimple rfl

@[simp] theorem refers_temp (id : Nat) : refers h (temp id) ↔ False := not_refers_of_isSimple rfl

@[simp] theorem refers_nilExpr : refers h nil ↔ False := not_refers_of_isSimple rfl

@[simp] theorem refers_bool (b : Bool) : refers h (bool b) ↔ False := not_refers_of_isSimple rfl

@[simp] theorem refers_number (x : Number) : refers h (number x) ↔ False :=
  not_refers_of_isSimple rfl

@[simp] theorem refers_string (s : String) : refers h (string s) ↔ False :=
  not_refers_of_isSimple rfl

@[simp] theorem refers_binary (op : BinaryOp) :
    refers h (binary op a b) ↔ refers h a ∨ refers h b := List.mem_append

@[simp] theorem refers_index : refers h (index a b) ↔ refers h a ∨ refers h b := List.mem_append

@[simp] theorem refers_unary (op : UnaryOp) : refers h (unary op a) ↔ refers h a := .rfl

@[simp] theorem refers_paren : refers h (paren a) ↔ refers h a := .rfl

theorem refers_property (ha : proper a) (name : String) :
    refers h (property a name) ↔ refers h a := by
  show h.field ∈ _ ↔ _
  rw [members_property_of_isTable ha]
  exact .rfl

theorem refers_list (xs : List Expr) : refers h xs ↔ h.field ∈ xs.flatMap (members "TS") :=
  List.mem_flatMap.symm

@[simp] theorem refers_call (xs : List Expr) :
    refers h (call a xs) ↔ refers h a ∨ refers h xs := by
  rw [refers_list]
  show h.field ∈ _ ↔ h.field ∈ _ ∨ _
  rw [members_call, List.mem_append]

@[simp] theorem refers_method (name : String) (xs : List Expr) :
    refers h (method a name xs) ↔ refers h a ∨ refers h xs := by
  rw [refers_list]
  show h.field ∈ _ ↔ h.field ∈ _ ∨ _
  rw [members_method, List.mem_append]

theorem refers_positional (xs : List Expr) :
    refers h (table (xs.map .positional)) ↔ refers h xs := by
  rw [refers_list, ← members_positional]
  exact .rfl

theorem refers_named {names : List String} {xs : List Expr} (hl : names.length = xs.length) :
    refers h (table (List.zipWith .named names xs)) ↔ refers h xs := by
  rw [refers_list, ← members_named hl]
  exact .rfl

end Target.Expr

@[simp] theorem Target.Stmt.refers_assign (t v : Expr) :
    refers h (Stmt.assign t v) ↔ refers h t ∨ refers h v := List.mem_append

@[simp] theorem Target.Stmt.refers_compound (op : Target.ArithmeticOp) (t v : Expr) :
    refers h (Stmt.compound op t v) ↔ refers h t ∨ refers h v := List.mem_append

@[simp] theorem Target.Stmt.refers_ifThen (c : Expr) (body : List Stmt) :
    refers h (Stmt.ifThen c body) ↔ refers h c ∨ refers h body := by
  rw [Lower.refers_membersAll]
  exact List.mem_append

theorem Helper.field_inj {k h : Helper} : k.field = h.field ↔ k = h := by
  cases k <;> cases h <;> decide

namespace Lower

variable {p : Prop} {pool : TypePool} {span : Span}

/-! ### Operators -/

theorem refers_helperMember (k : Helper) (member : String) :
    refers h (helperMember k member) ↔ k = h := by
  rw [helperMember, Expr.refers_property rfl, ← Helper.field_inj, eq_comm]
  show h.field ∈ _ ↔ _
  rw [Expr.members_member, List.mem_singleton]

theorem refers_libraryMember {table : String} (ht : (table == "TS") = false) (member : String) :
    refers h (libraryMember table member) ↔ False :=
  (Expr.refers_property ht member).trans (Expr.refers_ident table)

theorem refers_concatOperand (v : TypedValue) :
    refers h (concatOperand pool v) ↔ refers h v.expr := by
  unfold concatOperand
  split
  · exact .rfl
  · simp

theorem refers_operation (op : Source.ArithmeticOp) (l r : TypedValue) :
    refers h (arithmetic pool op l r) ↔ refers h l.expr ∨ refers h r.expr := by
  have call {table member : String} (ht : (table == "TS") = false) :
      refers h (Expr.call (libraryMember table member) [l.expr, r.expr]) ↔
        refers h l.expr ∨ refers h r.expr := by
    simp [refers_libraryMember ht]
  cases op <;> simp only [arithmetic, bitOperation]
  case add => split <;> simp [Expr.arithmetic, refers_concatOperand]
  case mod | bitAnd | bitOr | bitXor | shl | shr | ushr => exact call rfl
  all_goals exact Expr.refers_binary _

theorem proper_operation (op : Source.ArithmeticOp) (l r : TypedValue) :
    proper (arithmetic pool op l r) := by
  cases op <;> simp only [arithmetic, bitOperation]
  case add => split <;> rfl
  all_goals rfl

theorem refers_offset (e : Expr) (amount : Number) :
    refers h (offset e amount) ↔ refers h e := by
  cases e <;> simp [offset, Expr.arithmetic]

theorem proper_offset (e : Expr) (amount : Number) : proper (offset e amount) := by
  cases e <;> rfl

theorem refers_shiftIndex (ty : TypeId) (e : Expr) :
    refers h (shiftIndex pool ty e) ↔ refers h e := by
  unfold shiftIndex
  split
  · exact refers_offset e .one
  · exact .rfl

theorem proper_shiftIndex (ty : TypeId) {e : Expr} (he : proper e) :
    proper (shiftIndex pool ty e) := by
  unfold shiftIndex
  split
  · exact proper_offset e .one
  · exact he

theorem refers_negate (e : Expr) : refers h (negate e) ↔ refers h e := by
  cases e <;> simp [negate]

theorem proper_negate (e : Expr) : proper (negate e) := by
  cases e <;> rfl

theorem flagged_relation (op : Source.RelationOp) {l r : Expr} (hl : proper l) :
    Flagged h (relation op span l r) (refers h l ∨ refers h r) := by
  cases op with
  | isIn =>
    have key : Flagged h (membershipKey span l r) (refers h l) := by
      unfold membershipKey
      split
      · exact .pure hl .rfl
      · exact flagged_pushTempIfUnstable hl
    show Flagged h (membership span l r) _
    rw [membership_eq, or_comm]
    apply key.bind_after
    intro k hk
    exact .pure rfl (by simp)
  | instanceOf =>
    apply Flagged.useHelper_bind
    exact .pure rfl (by simp [refers_helperMember])
  | _ => exact .pure rfl (Expr.refers_binary _)

theorem flagged_looseEquality (op : Source.LooseOp) : Flagged h (looseEquality op span) False := by
  have placeholder : Flagged h (pure Expr.placeholder) False := .pure rfl Expr.refers_placeholder
  cases op <;> exact ((flagged_report _ _ _).bind_unit placeholder).congr or_self_iff

/-! ### Truth -/

theorem refers_conjunction {cs : List Expr} {v : Expr} (hcs : ∀ c ∈ cs, refers h c → refers h v) :
    refers h (conjunction cs v) ↔ refers h v := by
  have fold (ds : List Expr) (c : Expr) :
      refers h (ds.foldl (.binary .and) c) ↔ refers h c ∨ refers h ds := by
    induction ds generalizing c with
    | nil => simp
    | cons d ds ih => simp [ih, or_assoc]
  cases cs with
  | nil => exact .rfl
  | cons c cs =>
    rw [conjunction_cons, Expr.refers_binary, fold, ← refers_cons]
    exact or_iff_right_of_imp fun ⟨d, hd, hr⟩ => hcs d hd hr

theorem refers_truthTest (ty : TypeId) (v : Expr) :
    refers h (truthTest pool ty v) ↔ refers h v := by
  apply refers_conjunction
  intro c hc
  rcases List.mem_append.1 hc with hc | hc <;> split at hc <;>
    simp only [numberChecks, stringChecks, List.mem_cons, List.not_mem_nil, or_false] at hc
  · rcases hc with rfl | rfl <;> simp
  · simp [hc]

theorem proper_truthTest (ty : TypeId) {v : Expr} (hv : proper v) :
    proper (truthTest pool ty v) := by
  unfold truthTest
  generalize (if (needsChecks pool ty).1 then numberChecks v else []) ++
    (if (needsChecks pool ty).2 then stringChecks v else []) = checks
  cases checks with
  | nil => exact hv
  | cons c cs =>
    rw [conjunction_cons]
    rfl

theorem flagged_truthiness (ty : TypeId) {v : Expr} (hv : proper v) :
    Flagged h (truthiness pool ty span v) (refers h v) := by
  rw [truthiness_eq]
  split
  · exact .pure hv .rfl
  · apply (flagged_pushTempIfComplex hv).bind
    intro u hu
    exact .pure (proper_truthTest ty hu) (refers_truthTest ty u)

theorem refers_blockTest (op : Source.LogicalOp) (ty : TypeId) (id : Nat) :
    refers h (blockTest pool op ty (.temp id)) ↔ False := by
  cases op <;> simp [blockTest, refers_truthTest]

theorem flagged_shortCircuit {op : Source.LogicalOp} {ty : TypeId} {left right : Lower Expr}
    (hl : Flagged h left False) (hr : Flagged h right False) :
    Flagged h (shortCircuit pool op span ty left right) False := by
  intro n v e hok
  obtain ⟨l, e₁, r, e₂, hl', hr', hcase⟩ := shortCircuit_eq_ok hok
  obtain ⟨-, hl⟩ := hl hl'
  obtain ⟨-, hr⟩ := hr hr'
  rcases hcase with ⟨native, -, -, hnil, rfl, rfl⟩ | ⟨id, -, rfl, rfl⟩
  · refine ⟨rfl, ?_⟩
    simp only [hnil, refers_nil, false_or] at hl hr
    simp [hnil, ← hl, ← hr, or_assoc]
  · refine ⟨rfl, ?_⟩
    simp only [false_or] at hl hr
    simp [← hl, ← hr, refers_blockTest, refers_declareTemp, Effects.withoutStmts, or_assoc]

/-! ### Places -/

theorem Place.refers_toExpr {q : Place} (hq : Refers.proper q) :
    Refers.refers h q.toExpr ↔ Refers.refers h q := by
  cases q with
  | whole e => exact .rfl
  | property o name => exact Expr.refers_property hq name
  | index o i => exact Expr.refers_index

theorem Place.proper_toExpr {q : Place} (hq : Refers.proper q) : Refers.proper q.toExpr := by
  cases q with
  | whole e => exact hq
  | property | index => rfl

theorem Reference.refers_value {r : Reference} (hr : Refers.proper r) :
    Refers.refers h r.value ↔ Refers.refers h r := by
  induction r with
  | plain q => exact Place.refers_toExpr hr
  | paren inner ih => exact ih hr

theorem Reference.proper_value {r : Reference} (hr : Refers.proper r) : Refers.proper r.value := by
  cases r with
  | plain q => exact Place.proper_toExpr hr
  | paren inner => rfl

theorem flagged_asValue {x : Lower Reference} (hx : Flagged h x p) : Flagged h (asValue x) p :=
  hx.map fun _ hr => ⟨Reference.proper_value hr, Reference.refers_value hr⟩

theorem flagged_asPlace {x : Lower Reference} (hx : Flagged h x p) : Flagged h (asPlace x) p :=
  hx.map fun _ hr => ⟨hr, .rfl⟩

theorem flagged_asPlaceExpr {x : Lower Reference} (hx : Flagged h x p) :
    Flagged h (asPlaceExpr x) p :=
  hx.map fun _ hr => ⟨Place.proper_toExpr hr, Place.refers_toExpr hr⟩

theorem flagged_asReference {x : Lower Expr} (hx : Flagged h x p) :
    Flagged h (asReference x) p :=
  hx.map fun _ hv => ⟨hv, .rfl⟩

theorem flagged_pinPart {pin : Pin} {hint : String} {v : Expr} (hv : proper v) :
    Flagged h (pinPart pin hint span v) (refers h v) := by
  cases pin with
  | repeated => exact flagged_pushTempIfComplex hv
  | reordered => exact flagged_pushTempIfUnstable hv

theorem flagged_pinPlace {pin : Pin} {q : Place} (hq : proper q) :
    Flagged h (pinPlace pin span q) (refers h q) := by
  cases q with
  | whole e => exact .pure hq .rfl
  | property o name =>
    apply (flagged_pinPart (v := o) hq).bind
    intro o ho
    exact .pure ho .rfl
  | index o i =>
    obtain ⟨ho, hi⟩ := hq
    refine Flagged.congr ?_ or_comm
    apply (flagged_pinPart ho).bind_after
    intro o ho
    rw [or_comm]
    apply (flagged_pinPart hi).bind_after
    intro i hi
    exact .pure ⟨ho, hi⟩ .rfl

/-! ### Assignments and updates -/

variable {target : Lower Reference} {value : Lower Expr}

theorem flagged_targetAndValue {readAfterWrite : Bool} (ht : Flagged h target False)
    (hv : Flagged h value False) :
    Flagged h (targetAndValue span target value readAfterWrite) False := by
  apply (flagged_asPlace ht).bind
  intro q hq
  apply hv.capture.bind_fresh
  rintro ⟨v, ss⟩ ⟨hv, -⟩
  have rest (q : Place) (hq : proper q) : Flagged h (do
      emitAll ss
      return (WritableTarget.ofPlace q readAfterWrite, v))
      (refers h (v, ss) ∨ refers h q) := by
    have result : Flagged h (pure (WritableTarget.ofPlace q readAfterWrite, v))
        (refers h q ∨ refers h v) :=
      .pure ⟨⟨WritableTarget.readable_ofPlace q readAfterWrite, Place.proper_toExpr hq⟩, hv⟩
        (or_congr_left (Place.refers_toExpr hq))
    refine ((flagged_emitAll ss).bind_unit result).congr ?_
    rw [refers_pair, or_assoc, or_comm]
  rw [or_comm]
  cases hpin : pinFor ss readAfterWrite with
  | none => simpa only [hpin, pure_bind] using rest q hq
  | some pin => simpa only [hpin] using (flagged_pinPlace hq).bind_after rest

/-- A write to a target and then the target, which refers to nothing that the write does not. -/
theorem flagged_written {t : WritableTarget} {v : Expr} {s : Stmt} (ht : proper t)
    (hs : refers h s ↔ refers h t.write ∨ refers h v) :
    Flagged h (emit s >>= fun _ => pure t.readable) (refers h (t, v)) := by
  obtain ⟨hread, htarget⟩ := ht
  have result : Flagged h (pure t.readable) (refers h t.write) :=
    .pure (hread ▸ htarget) (by rw [hread])
  refine ((flagged_emit s).bind_unit result).congr ?_
  rw [hs, or_iff_right_of_imp .inl]
  exact .rfl

theorem flagged_assignValue (ht : Flagged h target False) (hv : Flagged h value False) :
    Flagged h (assignValue span target value) False := by
  apply (flagged_targetAndValue ht hv).bind
  rintro ⟨t, v⟩ ⟨ht, -⟩
  exact flagged_written ht (Stmt.refers_assign t.write v)

/-- The old and the new value of a target refer to what the target does. -/
theorem refers_compound {op : Source.ArithmeticOp} {t : WritableTarget} (ht : t.readable = t.write)
    (v : Expr) (s ty : TypeId) :
    refers h (Stmt.assign t.write (arithmetic pool op ⟨t.readable, s⟩ ⟨v, ty⟩)) ↔
      refers h t.write ∨ refers h v := by
  rw [Stmt.refers_assign, refers_operation, ht, or_iff_right_of_imp .inl]

theorem flagged_compoundValue {op : Source.ArithmeticOp} {info : Source.NodeInfo} {ty : TypeId}
    (ht : Flagged h target False) (hv : Flagged h value False) :
    Flagged h (compoundValue pool op info ty target value) False := by
  apply (flagged_targetAndValue ht hv).bind
  rintro ⟨t, v⟩ ⟨ht, -⟩
  exact flagged_written ht (refers_compound ht.1 v info.ty ty)

theorem flagged_assignStatement (ht : Flagged h target False) (hv : Flagged h value False) :
    Flagged h (assignStatement span target value) False := by
  apply (flagged_targetAndValue ht hv).bind
  rintro ⟨t, v⟩ -
  exact .pure trivial (Stmt.refers_assign t.write v)

theorem flagged_compoundStatement {op : Source.ArithmeticOp} {info : Source.NodeInfo}
    {ty : TypeId} (ht : Flagged h target False) (hv : Flagged h value False) :
    Flagged h (compoundStatement pool op info ty target value) False := by
  unfold compoundStatement
  split
  · apply (flagged_targetAndValue ht hv).bind
    rintro ⟨t, v⟩ -
    refine .pure trivial ?_
    rw [Stmt.refers_compound]
    split
    · rw [refers_concatOperand]
      exact .rfl
    · exact .rfl
  · apply (flagged_targetAndValue ht hv).bind
    rintro ⟨t, v⟩ ⟨⟨hread, -⟩, -⟩
    exact .pure trivial (refers_compound hread v info.ty ty)

theorem refers_updateBy (op : Source.UpdateOp) (t : Expr) :
    refers h (updateBy op t) ↔ refers h t := by
  simp [updateBy]

theorem flagged_updateStatement (op : Source.UpdateOp) (ht : Flagged h target False) :
    Flagged h (updateStatement op target) False := by
  apply (flagged_asPlace ht).bind
  intro q hq
  exact .pure trivial ((refers_updateBy op q.toExpr).trans (Place.refers_toExpr hq))

theorem flagged_updateBefore {op : Source.UpdateOp} (ht : Flagged h target False) :
    Flagged h (updateBefore op span target) False := by
  apply (flagged_asPlace ht).bind
  intro q hq
  apply (flagged_pinPlace hq).bind
  intro q hq
  have result : Flagged h (pure q.toExpr) (refers h q) :=
    .pure (Place.proper_toExpr hq) (Place.refers_toExpr hq)
  refine ((flagged_emit (updateBy op q.toExpr)).bind_unit result).congr ?_
  rw [refers_updateBy, Place.refers_toExpr hq, or_self]

/-- What goes on after a temporary was bound has the temporary to go on with. -/
theorem Flagged.pushTemp_bind {β : Type} [Refers β] {f : Expr → Lower β} {hint : String}
    {v : Expr} (hf : ∀ id, Flagged h (f (.temp id)) p) :
    Flagged h (pushTemp hint span v >>= f) (p ∨ refers h v) := by
  apply (flagged_pushTemp hint span v).bind_result
  intro n t e hok _
  cases (pushTemp_apply hint span v n).symm.trans hok
  exact (hf n).congr (by simp)

theorem flagged_updateAfter {op : Source.UpdateOp} (ht : Flagged h target False) :
    Flagged h (updateAfter op span target) False := by
  apply (flagged_asPlace ht).bind
  intro q hq
  apply (flagged_pinPlace hq).bind
  intro q hq
  have update (id : Nat) : Flagged h (emit (updateBy op q.toExpr) >>= fun _ => pure (Expr.temp id))
      (refers h q) := by
    have result : Flagged h (pure (Expr.temp id)) False := .pure rfl (Expr.refers_temp id)
    refine ((flagged_emit (updateBy op q.toExpr)).bind_unit result).congr ?_
    rw [refers_updateBy, Place.refers_toExpr hq, false_or]
  refine (Flagged.pushTemp_bind update).congr ?_
  rw [Place.refers_toExpr hq, or_self]

/-! ### Calls -/

theorem flagged_argument {info : Source.NodeInfo} (hv : Flagged h value False) :
    Flagged h (argument pool info value).lower False :=
  ((flagged_checkNotAny pool info).bind_unit hv).congr (or_self_iff)

theorem flagged_spreadArgument {info : Source.NodeInfo} {isLast : Bool}
    (hv : Flagged h value False) : Flagged h (spreadArgument info isLast value).lower False := by
  unfold spreadArgument
  cases isLast with
  | true =>
    apply hv.bind
    intro v hv
    exact .pure rfl (by simp)
  | false => exact .fail _

theorem refers_packReturn (ctx : CallContext) (ty : TypeId) (e : Expr) :
    refers h (packReturn pool ctx ty e) ↔ refers h e := by
  unfold packReturn
  split <;> exact .rfl

theorem proper_packReturn (ctx : CallContext) (ty : TypeId) {e : Expr} (he : proper e) :
    proper (packReturn pool ctx ty e) := by
  unfold packReturn
  split
  · rfl
  · exact he

theorem flagged_plainCall {ctx : CallContext} {info calleeInfo : Source.NodeInfo}
    {callee : Lower Expr} {args : List Operand} (hf : Flagged h callee False)
    (ha : ∀ x ∈ args, Flagged h x.lower False) :
    Flagged h (plainCall pool ctx info calleeInfo callee args) False := by
  apply (flagged_checkNotAny pool calleeInfo).bind
  intro _ _
  have hall : ∀ x ∈ (⟨calleeInfo.span, callee⟩ : Operand) :: args, Flagged h x.lower False :=
    List.forall_mem_cons.2 ⟨hf, ha⟩
  apply (flagged_inOrderCons hall).bind
  rintro ⟨f, args⟩ -
  exact .pure (proper_packReturn ctx info.ty rfl)
    ((refers_packReturn ctx info.ty _).trans (Expr.refers_call args))

end Lower

end ScriptLowering
