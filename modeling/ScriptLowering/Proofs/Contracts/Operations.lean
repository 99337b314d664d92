import ScriptLowering.Proofs.Contracts.Ensures
import ScriptLowering.Proofs.Source.Everywhere

/-!
# Operations under a contract

Operations on operands that ensure formed values emit formed code and ensure a
formed value.  What they write to is a temporary, a member, or the target as it
was lowered, so only the target has to be known.

    operands formed → arithmetic, truthTest, build, packReturn of them formed
    left and right formed → shortCircuit formed                       (ensures_shortCircuit)
    target and value formed → assigning the value formed                 (ensures_assignValue)
-/

namespace ScriptLowering.Lower

open Target (Expr Stmt)
open Target.Stmt (FormedAll)

variable {α : Type} {K : Contract} {pool : TypePool} {span : Span}

/-! ### Operators -/

theorem formed_concatOperand {v : TypedValue} (h : v.expr.Formed) :
    (concatOperand pool v).Formed := by
  unfold concatOperand
  split
  · exact h
  · exact ⟨trivial, h, trivial⟩

theorem formed_arithmetic {op : Source.ArithmeticOp} {l r : TypedValue} (hl : l.expr.Formed)
    (hr : r.expr.Formed) : (arithmetic pool op l r).Formed := by
  have call {f : Expr} (hf : f.Formed) : (Expr.call f [l.expr, r.expr]).Formed :=
    ⟨hf, hl, hr, trivial⟩
  cases op <;> simp only [arithmetic, bitOperation]
  case add =>
    split
    · exact ⟨formed_concatOperand hl, formed_concatOperand hr⟩
    · exact ⟨hl, hr⟩
  case sub | mul | div | pow => exact ⟨hl, hr⟩
  all_goals exact call trivial

theorem formed_offset {e : Expr} (h : e.Formed) (amount : Number) : (offset e amount).Formed := by
  cases e with
  | number n => trivial
  | _ => exact ⟨h, trivial⟩

theorem formed_shiftIndex {ty : TypeId} {e : Expr} (h : e.Formed) :
    (shiftIndex pool ty e).Formed := by
  unfold shiftIndex
  split
  · exact formed_offset h _
  · exact h

theorem formed_negate {e : Expr} (h : e.Formed) : (negate e).Formed := by
  cases e with
  | number n => trivial
  | _ => exact h

theorem ensures_membership {key object : Expr} (hk : key.Formed) (ho : object.Formed) :
    Ensures K (membership span key object) Expr.Formed := by
  have key : Ensures K (membershipKey span key object) Expr.Formed := by
    unfold membershipKey
    split
    · exact .pure hk
    · exact ensures_pushTempIfUnstable hk
  rw [membership_eq]
  refine key.bind ?_
  intro k hk
  exact .pure ⟨⟨ho, hk⟩, trivial⟩

theorem ensures_relation {op : Source.RelationOp} {l r : Expr} (hl : l.Formed) (hr : r.Formed) :
    Ensures K (relation op span l r) Expr.Formed := by
  cases op with
  | isIn => exact ensures_membership hl hr
  | instanceOf =>
    refine (ensures_useHelper .runtime).bind ?_
    intro _ _
    exact .pure ⟨trivial, hl, hr, trivial⟩
  | _ => exact .pure ⟨hl, hr⟩

theorem ensures_looseEquality (op : Source.LooseOp) :
    Ensures K (looseEquality op span) Expr.Formed := by
  cases op <;> exact (ensures_report _ _ _).bind fun _ _ => .pure trivial

/-! ### Truth -/

theorem formed_foldl_and {cs : List Expr} {c : Expr} (hc : c.Formed) (hcs : ∀ d ∈ cs, d.Formed) :
    (cs.foldl (.binary .and) c).Formed := by
  induction cs generalizing c with
  | nil => exact hc
  | cons d ds ih =>
    obtain ⟨hd, hds⟩ := List.forall_mem_cons.1 hcs
    exact ih ⟨hc, hd⟩ hds

theorem formed_conjunction {cs : List Expr} {v : Expr} (hcs : ∀ d ∈ cs, d.Formed) (hv : v.Formed) :
    (conjunction cs v).Formed := by
  cases cs with
  | nil => exact hv
  | cons c cs =>
    obtain ⟨hc, hcs⟩ := List.forall_mem_cons.1 hcs
    rw [conjunction_cons]
    exact ⟨formed_foldl_and hc hcs, hv⟩

theorem formed_truthTest {ty : TypeId} {v : Expr} (h : v.Formed) :
    (truthTest pool ty v).Formed := by
  refine formed_conjunction ?_ h
  intro c hc
  rcases List.mem_append.1 hc with hc | hc <;> split at hc <;>
    simp only [numberChecks, stringChecks, List.mem_cons, List.not_mem_nil, or_false] at hc
  · rcases hc with rfl | rfl <;> simp [h]
  · simp [hc, h]

theorem ensures_truthiness {ty : TypeId} {v : Expr} (h : v.Formed) :
    Ensures K (truthiness pool ty span v) Expr.Formed := by
  rw [truthiness_eq]
  split
  · exact .pure h
  · refine (ensures_pushTempIfComplex h).bind ?_
    intro v hv
    exact .pure (formed_truthTest hv)

/-- The block of a short-circuit operator ends by giving its temporary the right value. -/
theorem ensures_shortCircuitBlock {l r : Expr} {ss : List Stmt} {check : Expr → Lower Expr}
    (hl : l.Formed) (hr : r.Formed) (hss : FormedAll K.writable ss)
    (hcheck : ∀ v, v.Formed → Ensures K (check v) Expr.Formed) :
    Ensures K (shortCircuitBlock span l r ss check) Expr.Formed := by
  have block (id : Nat) : Ensures K (check (.temp id) >>= fun condition =>
      assignInBlock condition (.temp id) r ss >>= fun _ => pure (Expr.temp id)) Expr.Formed := by
    refine (hcheck (.temp id) trivial).bind ?_
    intro condition hcond
    have body : FormedAll K.writable (ss ++ [.assign (.temp id) r]) :=
      (Stmt.formedAll_append _ _).2 ⟨hss, ⟨K.temp id, trivial, hr⟩, trivial⟩
    have block : (Stmt.ifThen condition (ss ++ [.assign (.temp id) r])).Formed K.writable :=
      ⟨hcond, Stmt.endsInTemp_append ss id r, body⟩
    refine (ensures_emit block).bind ?_
    intro _ _
    exact .pure trivial
  have bound : Ensures K (pushTemp "result" span l) fun t => ∃ id, t = .temp id := by
    intro n
    rw [pushTemp_apply]
    exact ⟨⟨hl, trivial⟩, n, rfl⟩
  refine bound.bind ?_
  rintro _ ⟨id, rfl⟩
  exact block id

theorem ensures_shortCircuit {op : Source.LogicalOp} {ty : TypeId} {left right : Lower Expr}
    (hl : Ensures K left Expr.Formed) (hr : Ensures K right Expr.Formed) :
    Ensures K (shortCircuit pool op span ty left right) Expr.Formed := by
  refine hl.bind ?_
  intro l hl
  refine hr.capture.bind ?_
  rintro ⟨r, ss⟩ ⟨hr, hss⟩
  have checked (v : Expr) (hv : v.Formed) : Ensures K (truthiness pool ty span v) Expr.Formed :=
    ensures_truthiness hv
  cases op with
  | coalesce => exact ensures_shortCircuitBlock hl hr hss fun v hv => .pure ⟨hv, trivial⟩
  | and =>
    simp only
    split
    · exact .pure ⟨hl, hr⟩
    · exact ensures_shortCircuitBlock hl hr hss checked
  | or =>
    simp only
    split
    · exact .pure ⟨hl, hr⟩
    · exact ensures_shortCircuitBlock hl hr hss fun v hv =>
        (checked v hv).bind fun _ hc => .pure hc

/-! ### Places -/

abbrev Reference.Formed (r : Reference) : Prop := r.value.Formed

/-- A place that the contract lets be written to. -/
structure Place.Formed (K : Contract) (p : Place) : Prop where
  expr : p.toExpr.Formed
  writable : K.writable p.toExpr

theorem Reference.formed_place {r : Reference} (h : r.Formed) : r.place.toExpr.Formed := by
  induction r with
  | plain p => exact h
  | paren inner ih => exact ih h

theorem ensures_asValue {x : Lower Reference} (h : Ensures K x Reference.Formed) :
    Ensures K (asValue x) Expr.Formed := h.map fun _ h => h

theorem ensures_asReference {x : Lower Expr} (h : Ensures K x Expr.Formed) :
    Ensures K (asReference x) Reference.Formed := h.map fun _ h => h

theorem ensures_asPlace {x : Lower Reference} (h : Ensures K x Reference.Formed)
    (hm : MayWrite K.writable x) : Ensures K (asPlace x) (Place.Formed K) :=
  (h.and hm).map fun _ ⟨hr, hw⟩ => ⟨Reference.formed_place hr, hw⟩

theorem ensures_pinPart {pin : Pin} {hint : String} {e : Expr} (h : e.Formed) :
    Ensures K (pinPart pin hint span e) Expr.Formed := by
  cases pin with
  | repeated => exact ensures_pushTempIfComplex h
  | reordered => exact ensures_pushTempIfUnstable h

theorem ensures_pinPlace {pin : Pin} {p : Place} (h : p.Formed K) :
    Ensures K (pinPlace pin span p) (Place.Formed K) := by
  cases p with
  | whole e => exact .pure h
  | property o name =>
    refine (ensures_pinPart (e := o) h.expr).bind ?_
    intro o ho
    exact .pure ⟨ho, K.members.property o name⟩
  | index o i =>
    refine (ensures_pinPart h.expr.1).bind ?_
    intro o ho
    refine (ensures_pinPart h.expr.2).bind ?_
    intro i hi
    exact .pure ⟨⟨ho, hi⟩, K.members.index o i⟩

/-! ### Assignments and updates -/

/-- A target and the value to assign to it. -/
structure FormedAssignment (K : Contract) (t : WritableTarget) (v : Expr) : Prop where
  target : t.write.Formed
  writable : K.writable t.write
  readable : t.readable.Formed
  value : v.Formed

/-- The target may be given any formed value. -/
theorem FormedAssignment.assign {t : WritableTarget} {v w : Expr} (h : FormedAssignment K t v)
    (hw : w.Formed) : (Stmt.assign t.write w).Formed K.writable := ⟨h.writable, h.target, hw⟩

variable {target : Lower Reference} {value : Lower Expr} {b : Bool}

theorem ensures_targetAndValue (ht : Ensures K target Reference.Formed)
    (hm : MayWrite K.writable target) (hv : Ensures K value Expr.Formed) :
    Ensures K (targetAndValue span target value b) fun p => FormedAssignment K p.1 p.2 := by
  refine (ensures_asPlace ht hm).bind ?_
  intro p hp
  refine hv.capture.bind ?_
  rintro ⟨v, ss⟩ ⟨hv, hss⟩
  have rest (p : Place) (hp : p.Formed K) : Ensures K (do
      emitAll ss
      return (WritableTarget.ofPlace p b, v)) fun p => FormedAssignment K p.1 p.2 := by
    refine (ensures_emitAll hss).bind ?_
    intro _ _
    have hread : (WritableTarget.ofPlace p b).readable.Formed :=
      WritableTarget.readable_ofPlace p b ▸ hp.expr
    exact .pure ⟨hp.expr, hp.writable, hread, hv⟩
  cases hpin : pinFor ss b with
  | none => simpa only [hpin, pure_bind] using rest p hp
  | some pin => simpa only [hpin] using (ensures_pinPlace hp).bind rest

theorem ensures_assignValue (ht : Ensures K target Reference.Formed)
    (hm : MayWrite K.writable target) (hv : Ensures K value Expr.Formed) :
    Ensures K (assignValue span target value) Expr.Formed := by
  refine (ensures_targetAndValue ht hm hv).bind ?_
  rintro ⟨t, v⟩ h
  refine (ensures_emit (h.assign h.value)).bind ?_
  intro _ _
  exact .pure h.readable

variable {op : Source.ArithmeticOp} {info : Source.NodeInfo} {ty : TypeId}

theorem ensures_compoundValue (ht : Ensures K target Reference.Formed)
    (hm : MayWrite K.writable target) (hv : Ensures K value Expr.Formed) :
    Ensures K (compoundValue pool op info ty target value) Expr.Formed := by
  refine (ensures_targetAndValue ht hm hv).bind ?_
  rintro ⟨t, v⟩ h
  refine (ensures_emit (h.assign (formed_arithmetic h.readable h.value))).bind ?_
  intro _ _
  exact .pure h.readable

theorem ensures_assignStatement (ht : Ensures K target Reference.Formed)
    (hm : MayWrite K.writable target) (hv : Ensures K value Expr.Formed) :
    Ensures K (assignStatement span target value) (Stmt.Formed K.writable) := by
  refine (ensures_targetAndValue ht hm hv).bind ?_
  rintro ⟨t, v⟩ h
  exact .pure (h.assign h.value)

theorem ensures_compoundStatement (ht : Ensures K target Reference.Formed)
    (hm : MayWrite K.writable target) (hv : Ensures K value Expr.Formed) :
    Ensures K (compoundStatement pool op info ty target value) (Stmt.Formed K.writable) := by
  unfold compoundStatement
  split
  next native _ =>
    refine (ensures_targetAndValue ht hm hv).bind ?_
    rintro ⟨t, v⟩ h
    refine .pure ⟨h.writable, h.target, ?_⟩
    split
    · exact formed_concatOperand h.value
    · exact h.value
  next =>
    refine (ensures_targetAndValue ht hm hv).bind ?_
    rintro ⟨t, v⟩ h
    exact .pure (h.assign (formed_arithmetic h.readable h.value))

theorem formed_updateBy {p : Place} (h : p.Formed K) (op : Source.UpdateOp) :
    (updateBy op p.toExpr).Formed K.writable := ⟨h.writable, h.expr, trivial⟩

theorem ensures_updateStatement {op : Source.UpdateOp} (ht : Ensures K target Reference.Formed)
    (hm : MayWrite K.writable target) :
    Ensures K (updateStatement op target) (Stmt.Formed K.writable) := by
  refine (ensures_asPlace ht hm).bind ?_
  intro p hp
  exact .pure (formed_updateBy hp op)

theorem ensures_updateBefore {op : Source.UpdateOp} (ht : Ensures K target Reference.Formed)
    (hm : MayWrite K.writable target) :
    Ensures K (updateBefore op span target) Expr.Formed := by
  refine (ensures_asPlace ht hm).bind ?_
  intro p hp
  refine (ensures_pinPlace hp).bind ?_
  intro p hp
  refine (ensures_emit (formed_updateBy hp op)).bind ?_
  intro _ _
  exact .pure hp.expr

theorem ensures_updateAfter {op : Source.UpdateOp} (ht : Ensures K target Reference.Formed)
    (hm : MayWrite K.writable target) :
    Ensures K (updateAfter op span target) Expr.Formed := by
  refine (ensures_asPlace ht hm).bind ?_
  intro p hp
  refine (ensures_pinPlace hp).bind ?_
  intro p hp
  refine (ensures_pushTemp hp.expr).bind ?_
  intro copy hcopy
  refine (ensures_emit (formed_updateBy hp op)).bind ?_
  intro _ _
  exact .pure hcopy

/-! ### Calls -/

/-- Only a call is packed. -/
theorem formed_packReturn {ctx : CallContext} {e : Expr} (h : e.Formed) :
    (packReturn pool ctx ty e).Formed := by
  unfold packReturn
  split
  next hpack =>
    simp only [Bool.and_eq_true] at hpack
    exact ⟨hpack.1.2, h⟩
  next => exact h

theorem formed_build {form : CallForm} {member : String} {r : Expr} {args : List Expr}
    (hr : r.Formed) (ha : Expr.FormedList args) : (form.build member r args).Formed := by
  have hlast : (enclosed (args.getLastD .nil)).Formed := by
    have h : (args.getLastD .nil).Formed := by
      rw [List.getLastD_eq_getLast?]
      cases hl : args.getLast? with
      | none => trivial
      | some a => exact (Expr.formedList_iff args).1 ha a (List.mem_of_getLast? hl)
    unfold enclosed
    split <;> exact h
  cases form with
  | helper h => cases h <;> first | exact ⟨trivial, ha⟩ | exact ⟨trivial, hr, ha⟩
  | nativeString => exact ⟨trivial, hr, ha⟩
  | method name | field name => exact ⟨hr, ha⟩
  | superMethod className => exact ⟨trivial, trivial, ha⟩
  | operator op => exact ⟨hr, hlast⟩

theorem ensures_useHelperOf (form : CallForm) : Ensures K (useHelperOf form) fun _ => True := by
  unfold useHelperOf
  split
  · exact ensures_useHelper _
  · exact .pure trivial

theorem ensures_argument (h : Ensures K value Expr.Formed) :
    Ensures K (argument pool info value).lower Expr.Formed :=
  (ensures_checkNotAny pool info).bind fun _ _ => h

theorem ensures_spreadArgument {isLast : Bool} (h : Ensures K value Expr.Formed) :
    Ensures K (spreadArgument info isLast value).lower Expr.Formed := by
  unfold spreadArgument
  cases isLast with
  | false => exact .fail _
  | true =>
    refine h.bind ?_
    intro v hv
    exact .pure ⟨trivial, hv, trivial⟩

variable {ctx : CallContext} {calleeInfo : Source.NodeInfo} {args : List Operand}

theorem ensures_plainCall {callee : Lower Expr} (hf : Ensures K callee Expr.Formed)
    (ha : ∀ x ∈ args, Ensures K x.lower Expr.Formed) :
    Ensures K (plainCall pool ctx info calleeInfo callee args) Expr.Formed := by
  refine (ensures_checkNotAny pool calleeInfo).bind ?_
  intro _ _
  refine (ensures_inOrderCons hf ha).bind ?_
  rintro ⟨f, args⟩ h
  exact .pure (formed_packReturn h)

theorem ensures_superCall (ha : ∀ x ∈ args, Ensures K x.lower Expr.Formed) :
    Ensures K (superCall pool ctx info calleeInfo args) Expr.Formed := by
  refine (ensures_checkNotAny pool calleeInfo).bind ?_
  intro _ _
  refine (Ensures.ofError (Q := fun _ => True) fun _ _ => trivial).bind ?_
  intro name _
  refine (ensures_inOrder ha).bind ?_
  intro args ha
  exact .pure (formed_packReturn ⟨trivial, trivial, ha⟩)

theorem ensures_propertyCall {object : Source.Expr} {member : String} {receiver : Lower Expr}
    (hr : Ensures K receiver Expr.Formed) (ha : ∀ x ∈ args, Ensures K x.lower Expr.Formed) :
    Ensures K (propertyCall pool ctx info calleeInfo object member receiver args) Expr.Formed := by
  rw [propertyCall_eq]
  refine (ensures_checkNotAny pool calleeInfo).bind ?_
  intro _ _
  refine (Ensures.ofError (Q := fun _ => True) fun _ _ => trivial).bind ?_
  intro form _
  refine (ensures_inOrderCons hr ha).bind ?_
  rintro ⟨r, args⟩ ⟨hr, ha⟩
  refine (ensures_useHelperOf form).bind ?_
  intro _ _
  exact .pure (formed_packReturn (formed_build hr ha))

/-! ### Patterns -/

theorem ensures_indexableSource {ty : SubType} {source : Expr} (h : source.Formed) :
    Ensures K (indexableSource pool span ty source) Expr.Formed := by
  unfold indexableSource
  split
  · exact .pure h
  · refine (ensures_useHelper .array).bind ?_
    intro _ _
    exact ensures_pushTemp ⟨trivial, h, trivial⟩

/-- A part that is a pattern asks for a sub-type, which may be no sub-type of the source. -/
theorem ensures_assignPart {part : Source.Expr} {nested : Expr → SubType → Lower Unit}
    {slot : Expr} {ty : SubType} {index : SubIndex} (hs : slot.Formed)
    (hfault : part.isPattern = true → ∀ f, pool.subType ty index = .error f → K.allowed f)
    (hn : part.isPattern = true → ∀ source ty, source.Formed →
      Ensures K (nested source ty) fun _ => True)
    (ht : Ensures K target Reference.Formed)
    (hm : part.isPattern = false → part.isElided = false → MayWrite K.writable target) :
    Ensures K (assignPart pool part nested (asPlaceExpr target) slot ty index) fun _ => True := by
  unfold assignPart
  split
  next hp =>
    refine (Ensures.ofFault (Q := fun _ => True) (fun _ _ => trivial) (hfault hp)).bind ?_
    intro partTy _
    refine (ensures_pushTemp hs).bind ?_
    intro source hsource
    exact hn hp source partTy hsource
  next hp =>
    split
    · exact .pure trivial
    next hne =>
      have he : part.isElided = false := by
        cases part <;> first | rfl | exact absurd rfl (hne _)
      have place : Ensures K (asPlaceExpr target) fun t => K.writable t ∧ t.Formed :=
        (ht.and (hm (by simpa using hp) he)).map fun _ ⟨hr, hw⟩ => ⟨hw, Reference.formed_place hr⟩
      refine place.bind ?_
      rintro t ⟨hw, hf⟩
      exact ensures_emit ⟨hw, hf, hs⟩

theorem ensures_destructuring {assign : Expr → SubType → Lower Unit}
    (hv : Ensures K value Expr.Formed)
    (ha : ∀ source ty, source.Formed → Ensures K (assign source ty) fun _ => True) :
    Ensures K (destructuring span ty value assign) Expr.Formed := by
  refine hv.bind ?_
  intro v hv
  refine (ensures_pushTemp hv).bind ?_
  intro source hsource
  refine (ha source (.single ty) hsource).bind ?_
  intro _ _
  exact .pure hsource

end ScriptLowering.Lower
