import ScriptLowering.Proofs.Temporaries.Operations

/-!
# Tidy assignments

What is written to is a member access, whatever its parts are bound to, or the
target as it was lowered.

    target and value tidy → assigning the value is tidy       (tidy_assignValue)
    target tidy → updating it is tidy                          (tidy_updateBefore, tidy_updateAfter)
-/

namespace ScriptLowering.Lower

open Target (Expr Stmt)
open Target.Stmt (Scoped declared declaredWithin)

/-- A member access may always be written to. -/
structure AllowsMembers (writable : Expr → Prop) : Prop where
  property (object : Expr) (name : String) : writable (.property object name)
  index (object index : Expr) : writable (.index object index)

/-- The lowered target may be written to. -/
def MayWrite (writable : Expr → Prop) (target : Lower Reference) : Prop :=
  ∀ ⦃n r e⦄, target n = (.ok r, e) → writable r.place.toExpr

/-- A statement that may stand where `W` is visible and declares nothing. -/
structure LastIn (writable : Expr → Prop) (s : Stmt) (W : List Nat) : Prop where
  inScope : Scoped writable W [s]
  fresh : declaredWithin [s] = []

abbrev Reference.ReadsIn (r : Reference) (W : List Nat) : Prop := r.value.ReadsIn W

variable {writable : Expr → Prop} {V W : List Nat} {n : Nat}

/-! ### Places -/

theorem Reference.readsIn_place {r : Reference} (h : r.ReadsIn V) : r.place.toExpr.ReadsIn V := by
  induction r with
  | plain p => exact h
  | paren inner ih => exact ih (Expr.readsIn_paren.1 h)

theorem tidy_asValue {x : Lower Reference} (h : Tidy writable V x Reference.ReadsIn) :
    Tidy writable V (asValue x) Expr.ReadsIn :=
  h.map fun _ _ h => h

theorem tidy_asReference {x : Lower Expr} (h : Tidy writable V x Expr.ReadsIn) :
    Tidy writable V (asReference x) Reference.ReadsIn :=
  h.map fun _ _ h => h

theorem tidy_pinPart {pin : Pin} {hint : String} {span : Span} {e : Expr} (h : e.ReadsIn V) :
    Tidy writable V (pinPart pin hint span e) Expr.ReadsIn := by
  cases pin
  · exact tidy_pushTempIfComplex h
  · exact tidy_pushTempIfUnstable h

theorem tidy_pinPlace (hw : AllowsMembers writable) {pin : Pin} {span : Span} {p : Place}
    (hr : p.toExpr.ReadsIn V) (hp : writable p.toExpr) :
    Tidy writable V (pinPlace pin span p) fun p W => p.toExpr.ReadsIn W ∧ writable p.toExpr := by
  cases p with
  | whole e => exact .pure fun W hV => ⟨hr.mono hV, hp⟩
  | property o name =>
    have ho : o.ReadsIn V := Expr.readsIn_property.1 hr
    refine (tidy_pinPart ho).bind ?_
    intro o W _ ho
    refine .pure fun U hWU => ⟨?_, hw.property o name⟩
    exact Expr.readsIn_property.2 (ho.mono hWU)
  | index o i =>
    obtain ⟨ho, hi⟩ := Expr.readsIn_index.1 hr
    refine (tidy_pinPart ho).bind ?_
    intro o W hVW ho
    refine (tidy_pinPart (hi.mono hVW)).bind ?_
    intro i U hWU hi
    refine .pure fun X hUX => ⟨?_, hw.index o i⟩
    have hoX : o.ReadsIn X := ho.mono fun j hj => hUX j (hWU j hj)
    exact Expr.readsIn_index.2 ⟨hoX, hi.mono hUX⟩

theorem tidy_pinPlaceFor (hw : AllowsMembers writable) {pin : Option Pin} {span : Span} {p : Place}
    (hr : p.toExpr.ReadsIn V) (hp : writable p.toExpr) :
    Tidy writable V (pinPlaceFor pin span p)
      fun p W => p.toExpr.ReadsIn W ∧ writable p.toExpr := by
  cases pin with
  | none => exact .pure fun W hV => ⟨hr.mono hV, hp⟩
  | some pin => exact tidy_pinPlace hw hr hp

theorem tidy_asPlace {x : Lower Reference} (h : Tidy writable V x Reference.ReadsIn)
    (hm : MayWrite writable x) :
    Tidy writable V (asPlace x) fun p W => p.toExpr.ReadsIn W ∧ writable p.toExpr := by
  intro n p e hok
  obtain ⟨r, hr, rfl⟩ := map_eq_ok.1 hok
  obtain ⟨k, q⟩ := h hr
  exact ⟨k, fun W hV hd => ⟨Reference.readsIn_place (q W hV hd), hm hr⟩⟩

/-! ### Assignments and updates -/

theorem tidy_targetAndValue (hw : AllowsMembers writable) {span : Span} {b : Bool}
    {target : Lower Reference} {value : Lower Expr}
    (ht : Tidy writable V target Reference.ReadsIn) (hm : MayWrite writable target)
    (hv : Tidy writable V value Expr.ReadsIn) :
    Tidy writable V (targetAndValue span target value b) fun p W =>
      p.1.write.ReadsIn W ∧ writable p.1.write ∧ p.1.readable = p.1.write ∧ p.2.ReadsIn W := by
  rintro n ⟨t, v⟩ e h
  obtain ⟨r, e₁, e₂, p, e₃, hr, hv', hp, rfl, rfl⟩ := targetAndValue_eq_ok h
  have hV₁ : ∀ i ∈ V, i ∈ declared e₁.stmts ++ V := fun i hi => List.mem_append_right _ hi
  obtain ⟨k₁, q₁⟩ := ht hr
  have hread := Reference.readsIn_place (q₁ _ hV₁ fun i hi => List.mem_append_left _ hi)
  obtain ⟨k₂, q₂⟩ := (hv.mono hV₁) hv'
  obtain ⟨k₃, q₃⟩ := tidy_pinPlaceFor hw hread (hm hr) hp
  have hV₃ : ∀ i ∈ declared e₁.stmts ++ V, i ∈ declared e₃.stmts ++ (declared e₁.stmts ++ V) :=
    fun i hi => List.mem_append_right _ hi
  refine ⟨⟨?_, ?_⟩, fun W hV hd => ?_⟩
  · simpa using k₁.inScope.append (k₃.inScope.append (k₂.inScope.mono hV₃))
  · have := k₁.fresh.append ((k₂.fresh.append k₃.fresh).symm.trans List.perm_append_comm).symm
    simp only [Effects.stmts_append, Effects.temps_append, Effects.stmts_withoutStmts,
      Effects.temps_withoutStmts, Effects.stmts_ofStmts, Effects.temps_ofStmts, List.nil_append,
      List.append_nil, Stmt.declaredWithin_append, List.length_append]
    rwa [← List.range'_append_1, ← List.range'_append_1]
  · simp only [Effects.stmts_append, Effects.stmts_withoutStmts, Effects.stmts_ofStmts,
      List.nil_append, Stmt.declared_append, List.mem_append] at hd
    have hW : ∀ i ∈ declared e₁.stmts ++ V, i ∈ W := fun i hi =>
      (List.mem_append.1 hi).elim (fun h => hd i (.inl h)) (hV i)
    obtain ⟨hpr, hpw⟩ := q₃ W hW fun i hi => hd i (.inr (.inl hi))
    exact ⟨hpr, hpw, WritableTarget.readable_ofPlace p b,
      q₂ W hW fun i hi => hd i (.inr (.inr hi))⟩

/-- The location is written, and then stands for the value. -/
theorem tidy_emit_assign_then {t : WritableTarget} {v : Expr} (hr : t.write.ReadsIn V)
    (hw : writable t.write) (hread : t.readable = t.write) (hv : v.ReadsIn V) :
    Tidy writable V (emit (.assign t.write v) >>= fun _ => pure t.readable) Expr.ReadsIn := by
  refine (tidy_emit_assign hr hw hv).bind ?_
  intro _ W hVW _
  refine .pure fun U hWU => ?_
  rw [hread]
  exact hr.mono fun i hi => hWU i (hVW i hi)

theorem tidy_assignValue (hw : AllowsMembers writable) {span : Span} {target : Lower Reference}
    {value : Lower Expr} (ht : Tidy writable V target Reference.ReadsIn)
    (hm : MayWrite writable target) (hv : Tidy writable V value Expr.ReadsIn) :
    Tidy writable V (assignValue span target value) Expr.ReadsIn := by
  refine (tidy_targetAndValue hw ht hm hv).bind ?_
  rintro ⟨t, v⟩ W _ ⟨hr, hwr, hread, hv⟩
  exact tidy_emit_assign_then hr hwr hread hv

theorem tidy_compoundValue (hw : AllowsMembers writable) {pool : TypePool}
    {op : Source.ArithmeticOp} {info : Source.NodeInfo} {ty : TypeId} {target : Lower Reference}
    {value : Lower Expr} (ht : Tidy writable V target Reference.ReadsIn)
    (hm : MayWrite writable target) (hv : Tidy writable V value Expr.ReadsIn) :
    Tidy writable V (compoundValue pool op info ty target value) Expr.ReadsIn := by
  refine (tidy_targetAndValue hw ht hm hv).bind ?_
  rintro ⟨t, v⟩ W _ ⟨hr, hwr, hread, hv⟩
  have hleft : t.readable.ReadsIn W := hread ▸ hr
  exact tidy_emit_assign_then hr hwr hread (readsIn_arithmetic hleft hv)

theorem tidy_assignStatement (hw : AllowsMembers writable) {span : Span}
    {target : Lower Reference} {value : Lower Expr}
    (ht : Tidy writable V target Reference.ReadsIn) (hm : MayWrite writable target)
    (hv : Tidy writable V value Expr.ReadsIn) :
    Tidy writable V (assignStatement span target value) (LastIn writable) := by
  refine (tidy_targetAndValue hw ht hm hv).bind ?_
  rintro ⟨t, v⟩ W _ ⟨hr, hwr, -, hv⟩
  refine .pure fun U hWU => ?_
  exact ⟨.assign (hr.mono hWU) hwr (hv.mono hWU) .nil, rfl⟩

theorem tidy_compoundStatement (hw : AllowsMembers writable) {pool : TypePool}
    {op : Source.ArithmeticOp} {info : Source.NodeInfo} {ty : TypeId} {target : Lower Reference}
    {value : Lower Expr} (ht : Tidy writable V target Reference.ReadsIn)
    (hm : MayWrite writable target) (hv : Tidy writable V value Expr.ReadsIn) :
    Tidy writable V (compoundStatement pool op info ty target value) (LastIn writable) := by
  unfold compoundStatement
  split
  next native _ =>
    refine (tidy_targetAndValue hw ht hm hv).bind ?_
    rintro ⟨t, v⟩ W _ ⟨hr, hwr, -, hv⟩
    refine .pure fun U hWU => ⟨?_, rfl⟩
    have hvU : v.ReadsIn U := hv.mono hWU
    have hc : (concatOperand pool ⟨v, ty⟩).ReadsIn U := readsIn_concatOperand hvU
    by_cases hnative : native = .concat
    · rw [if_pos hnative]
      exact .compound (hr.mono hWU) hwr hc .nil
    · rw [if_neg hnative]
      exact .compound (hr.mono hWU) hwr hvU .nil
  next =>
    refine (tidy_targetAndValue hw ht hm hv).bind ?_
    rintro ⟨t, v⟩ W _ ⟨hr, hwr, hread, hv⟩
    refine .pure fun U hWU => ⟨?_, rfl⟩
    have hleft : t.readable.ReadsIn U := hread ▸ hr.mono hWU
    exact .assign (hr.mono hWU) hwr (readsIn_arithmetic hleft (hv.mono hWU)) .nil

theorem tidy_updateStatement {op : Source.UpdateOp} {target : Lower Reference}
    (ht : Tidy writable V target Reference.ReadsIn) (hm : MayWrite writable target) :
    Tidy writable V (updateStatement op target) (LastIn writable) := by
  refine (tidy_asPlace ht hm).bind ?_
  rintro p W _ ⟨hr, hwr⟩
  refine .pure fun U hWU => ?_
  exact ⟨.compound (hr.mono hWU) hwr (by simp) .nil, rfl⟩

/-- An update of a place, and what is read after it. -/
theorem tidy_updateBy {op : Source.UpdateOp} {t v : Expr} (hr : t.ReadsIn V) (hw : writable t)
    (hv : v.ReadsIn V) :
    Tidy writable V (emit (updateBy op t) >>= fun _ => pure v) Expr.ReadsIn := by
  refine (tidy_emit_compound hr hw (by simp)).bind ?_
  intro _ W hVW _
  refine .pure fun U hWU => ?_
  exact hv.mono fun i hi => hWU i (hVW i hi)

theorem tidy_updateBefore (hw : AllowsMembers writable) {op : Source.UpdateOp} {span : Span}
    {target : Lower Reference} (ht : Tidy writable V target Reference.ReadsIn)
    (hm : MayWrite writable target) :
    Tidy writable V (updateBefore op span target) Expr.ReadsIn := by
  refine (tidy_asPlace ht hm).bind ?_
  rintro p W _ ⟨hr, hwr⟩
  refine (tidy_pinPlace hw hr hwr).bind ?_
  rintro p U _ ⟨hr, hwr⟩
  exact tidy_updateBy hr hwr hr

theorem tidy_updateAfter (hw : AllowsMembers writable) {op : Source.UpdateOp} {span : Span}
    {target : Lower Reference} (ht : Tidy writable V target Reference.ReadsIn)
    (hm : MayWrite writable target) :
    Tidy writable V (updateAfter op span target) Expr.ReadsIn := by
  refine (tidy_asPlace ht hm).bind ?_
  rintro p W _ ⟨hr, hwr⟩
  refine (tidy_pinPlace hw hr hwr).bind ?_
  rintro p U _ ⟨hr, hwr⟩
  refine (tidy_pushTemp hr).bind ?_
  intro copy X hUX hcopy
  exact tidy_updateBy (hr.mono hUX) hwr hcopy

end ScriptLowering.Lower
