import ScriptLowering.Lowering.Statement

/-!
# What actions emit

For each action that sets statements apart and puts them back: the runs of its
parts, and the place of their statements in its own.  Everything that is proved
of lowered code goes through these, and not through the actions themselves.

    captureAll, settleAll    one operand and those after it
    shortCircuit             an operator in place, or a temporary and its block
    targetAndValue           target, bindings of its parts, then the value's statements
-/

namespace ScriptLowering

@[simp] theorem Effects.temps_withoutStmts (e : Effects) : e.withoutStmts.temps = e.temps := rfl

@[simp] theorem Effects.stmts_withoutStmts (e : Effects) : e.withoutStmts.stmts = [] := rfl

@[simp] theorem Effects.stmts_ofStmts (ss : List Target.Stmt) : (ofStmts ss).stmts = ss := rfl

@[simp] theorem Effects.temps_ofStmts (ss : List Target.Stmt) : (ofStmts ss).temps = [] := rfl

@[simp] theorem Effects.stmts_none : none.stmts = [] := rfl

@[simp] theorem Effects.temps_none : none.temps = [] := rfl

/-- Statements that are put back where they were taken out. -/
theorem Effects.withoutStmts_append_ofStmts (e : Effects) :
    e.withoutStmts ++ ofStmts e.stmts = e :=
  ext_fields (List.nil_append _) (List.append_nil _) (List.append_nil _)
    (HelperSet.union_empty _)

namespace Lower

open Target (Expr Stmt)

/-! ## Algorithm -/

/-- The condition on a simple value that `truthiness` answers. -/
def truthTest (pool : TypePool) (ty : TypeId) (v : Expr) : Expr :=
  conjunction
    ((if (needsChecks pool ty).1 then numberChecks v else []) ++
      (if (needsChecks pool ty).2 then stringChecks v else [])) v

/-- When the block of a short-circuit operator runs, by the temporary of its left value. -/
def blockTest (pool : TypePool) (op : Source.LogicalOp) (leftTy : TypeId) (result : Expr) : Expr :=
  match op with
  | .coalesce => .binary .eq result .nil
  | .and => truthTest pool leftTy result
  | .or => .unary .not (truthTest pool leftTy result)

def nativeLogical : Source.LogicalOp → Option Target.BinaryOp
  | .and => some .and
  | .or => some .or
  | .coalesce => none

/-- The key as `in` uses it: bound where the target would read it too late. -/
def membershipKey (span : Span) (key object : Expr) : Lower Expr :=
  if (key.isSimple && object.isSimple) || object.isStable then pure key
  else pushTempIfUnstable "exp" span key

/-- Notes the helper namespace that a form refers to, if any. -/
def useHelperOf (form : CallForm) : Lower Unit :=
  match form.helper? with
  | some h => useHelper h
  | none => pure ()

/-- Binds the parts of a place if there is a reason to. -/
def pinPlaceFor (pin : Option Pin) (span : Span) (p : Place) : Lower Place :=
  match pin with
  | some pin => pinPlace pin span p
  | none => pure p

/-! ## Lemmas -/

theorem truthTest_of_no_checks {pool : TypePool} {ty : TypeId}
    (h : needsChecks pool ty = (false, false)) (v : Expr) : truthTest pool ty v = v := by
  simp [truthTest, h, conjunction]

theorem truthiness_eq (pool : TypePool) (ty : TypeId) (span : Span) (v : Expr) :
    truthiness pool ty span v =
      if needsChecks pool ty = (false, false) then pure v
      else do
        let v ← pushTempIfComplex "exp" span v
        return truthTest pool ty v := by
  unfold truthiness truthTest
  rcases needsChecks pool ty with ⟨_ | _, _ | _⟩ <;> rfl

theorem membership_eq (span : Span) (key object : Expr) :
    membership span key object = (do
      let key ← membershipKey span key object
      return .binary .ne (.index object key) .nil) := by
  unfold membership membershipKey
  split <;> rfl

/-- On a simple value no statement is needed. -/
theorem truthiness_of_isSimple {v : Expr} (h : v.isSimple) (pool : TypePool) (ty : TypeId)
    (span : Span) : truthiness pool ty span v = pure (truthTest pool ty v) := by
  rw [truthiness_eq]
  split
  next hn => rw [truthTest_of_no_checks hn]
  next => rw [pushTempIfComplex_of_isSimple h, pure_bind]

theorem stmts_checkNotAny {pool : TypePool} {info : Source.NodeInfo} {n : Nat} {e : Effects}
    (h : checkNotAny pool info n = (.ok (), e)) : e.stmts = [] := by
  unfold checkNotAny at h
  split at h <;> cases h <;> rfl

/-- A report runs nothing and allocates nothing. -/
theorem quiet_checkNotAny {pool : TypePool} {info : Source.NodeInfo} {n : Nat} {e : Effects}
    (h : checkNotAny pool info n = (.ok (), e)) : e.stmts = [] ∧ e.temps = [] := by
  refine ⟨stmts_checkNotAny h, ?_⟩
  unfold checkNotAny at h
  split at h <;> cases h <;> rfl

theorem ofError_eq_ok {α : Type} {x : Except LowerError α} {n : Nat} {a : α} {e : Effects} :
    ofError x n = (.ok a, e) ↔ x = .ok a ∧ e = .none := by
  cases x with
  | error err => exact iff_of_false nofun nofun
  | ok b =>
    constructor
    · rintro ⟨⟩
      exact ⟨rfl, rfl⟩
    · rintro ⟨⟨⟩, rfl⟩
      rfl

/-- A condition is the value, a test on it, or a test on a temporary that holds it. -/
theorem truthiness_eq_ok {pool : TypePool} {ty : TypeId} {span : Span} {v c : Expr} {n : Nat}
    {e : Effects} (h : truthiness pool ty span v n = (.ok c, e)) :
    (needsChecks pool ty = (false, false) ∧ c = v ∧ e = .none) ∨
      (v.isSimple ∧ c = truthTest pool ty v ∧ e = .none) ∨
      (c = truthTest pool ty (.temp n) ∧
        e = ⟨[.declareTemp n v], [], [⟨"exp", span⟩], .empty⟩) := by
  rw [truthiness_eq] at h
  split at h
  next hn =>
    cases h
    exact .inl ⟨hn, rfl, rfl⟩
  next =>
    rw [← map_eq_pure_bind] at h
    obtain ⟨u, hu, rfl⟩ := map_eq_ok.1 h
    unfold pushTempIfComplex at hu
    split at hu
    next hv =>
      cases hu
      exact .inr (.inl ⟨hv, rfl, rfl⟩)
    next =>
      cases (pushTemp_apply "exp" span v n).symm.trans hu
      exact .inr (.inr ⟨rfl, rfl⟩)

theorem propertyCall_eq (pool : TypePool) (ctx : CallContext) (info calleeInfo : Source.NodeInfo)
    (object : Source.Expr) (member : String) (receiver : Lower Expr) (args : List Operand) :
    propertyCall pool ctx info calleeInfo object member receiver args = (do
      checkNotAny pool calleeInfo
      let form ←
        ofError (CallForm.resolve pool ctx info.span calleeInfo.ty object member args.length)
      let (r, args) ← inOrderCons ⟨object.span, receiver⟩ args
      useHelperOf form
      return packReturn pool ctx info.ty (form.build member r args)) := by
  unfold propertyCall useHelperOf
  congr 1
  funext _
  congr 1
  funext form
  congr 1
  funext ⟨r, as⟩
  simp only
  cases form.helper? <;> simp only [pure_bind]

theorem shortCircuitBlock_apply {check : Expr → Lower Expr} {n : Nat} {condition : Expr}
    (h : check (.temp n) = pure condition) (span : Span) (left right : Expr) (stmts : List Stmt) :
    shortCircuitBlock span left right stmts check n =
      (.ok (.temp n),
        ⟨[.declareTemp n left, .ifThen condition (stmts ++ [.assign (.temp n) right])], [],
          [⟨"result", span⟩], .empty⟩) := by
  have hp := pushTemp_apply "result" span left n
  rw [shortCircuitBlock, bind_of_ok hp]
  simp only [h, pure_bind]
  rfl

/-- A short-circuit operator is written in place, or its right side goes into
the block of a temporary that holds the left value. -/
theorem shortCircuit_eq_ok {pool : TypePool} {op : Source.LogicalOp} {span : Span}
    {leftTy : TypeId} {left right : Lower Expr} {n : Nat} {v : Expr} {e : Effects}
    (h : shortCircuit pool op span leftTy left right n = (.ok v, e)) :
    ∃ l e₁ r e₂, left n = (.ok l, e₁) ∧ right (n + e₁.temps.length) = (.ok r, e₂) ∧
      ((∃ native, nativeLogical op = some native ∧ needsChecks pool leftTy = (false, false) ∧
          e₂.stmts = [] ∧ v = .binary native l r ∧ e = e₁ ++ e₂) ∨
        ∃ id, id = n + e₁.temps.length + e₂.temps.length ∧ v = .temp id ∧
          e = e₁ ++ (e₂.withoutStmts ++ ⟨[.declareTemp id l,
            .ifThen (blockTest pool op leftTy (.temp id))
              (e₂.stmts ++ [.assign (.temp id) r])], [], [⟨"result", span⟩], .empty⟩)) := by
  rw [shortCircuit, bind_eq_ok] at h
  obtain ⟨l, e₁, e', hl, h, rfl⟩ := h
  obtain ⟨⟨r, stmts⟩, e₂', e₃, hc, h, rfl⟩ := bind_eq_ok.1 h
  obtain ⟨e₂, hr, rfl, rfl⟩ := capture_eq_ok.1 hc
  refine ⟨l, e₁, r, e₂, hl, hr, ?_⟩
  simp only [Effects.temps_withoutStmts] at h
  have hsimple : (Expr.temp (n + e₁.temps.length + e₂.temps.length)).isSimple := rfl
  have native {op'} (hop : nativeLogical op = some op') (hn : isNativeLogical pool leftTy e₂.stmts)
      (hv : (pure (.binary op' l r) : Lower Expr) (n + e₁.temps.length + e₂.temps.length) =
        (.ok v, e₃)) :
      ∃ native, nativeLogical op = some native ∧ needsChecks pool leftTy = (false, false) ∧
        e₂.stmts = [] ∧ v = .binary native l r ∧ e₁ ++ (e₂.withoutStmts ++ e₃) = e₁ ++ e₂ := by
    simp only [isNativeLogical, Bool.and_eq_true, beq_iff_eq, List.isEmpty_iff] at hn
    cases hv
    refine ⟨op', hop, hn.1, hn.2, rfl, ?_⟩
    rw [Effects.append_none]
    exact congrArg (e₁ ++ ·) (Effects.ext_fields hn.2.symm rfl rfl rfl)
  have block {f : Expr → Lower Expr} {condition : Expr}
      (hc : f (.temp (n + e₁.temps.length + e₂.temps.length)) = pure condition)
      (hv : shortCircuitBlock span l r e₂.stmts f (n + e₁.temps.length + e₂.temps.length) =
        (.ok v, e₃)) :
      v = .temp (n + e₁.temps.length + e₂.temps.length) ∧
        e₃ = ⟨[.declareTemp (n + e₁.temps.length + e₂.temps.length) l,
          .ifThen condition (e₂.stmts ++
            [.assign (.temp (n + e₁.temps.length + e₂.temps.length)) r])], [],
          [⟨"result", span⟩], .empty⟩ := by
    cases (shortCircuitBlock_apply hc span l r e₂.stmts).symm.trans hv
    exact ⟨rfl, rfl⟩
  cases op with
  | coalesce =>
    obtain ⟨rfl, rfl⟩ := block (f := fun result => pure (.binary .eq result .nil)) rfl h
    exact .inr ⟨_, rfl, rfl, rfl⟩
  | and =>
    simp only at h
    split at h
    next hn => exact .inl (native rfl hn h)
    next =>
      obtain ⟨rfl, rfl⟩ := block (truthiness_of_isSimple hsimple ..) h
      exact .inr ⟨_, rfl, rfl, rfl⟩
  | or =>
    simp only at h
    split at h
    next hn => exact .inl (native rfl hn h)
    next =>
      obtain ⟨rfl, rfl⟩ := block (by rw [truthiness_of_isSimple hsimple, pure_bind]) h
      exact .inr ⟨_, rfl, rfl, rfl⟩

theorem captureAll_cons_eq_ok {x : Operand} {xs : List Operand} {n : Nat} {cs : List Captured}
    {e : Effects} :
    captureAll (x :: xs) n = (.ok cs, e) ↔ ∃ v e₁ cs' e₂, x.lower n = (.ok v, e₁) ∧
      captureAll xs (n + e₁.temps.length) = (.ok cs', e₂) ∧
      cs = ⟨x.span, v, e₁.stmts⟩ :: cs' ∧ e = e₁.withoutStmts ++ e₂ := by
  simp only [captureAll, Operand.capture, bind_assoc, pure_bind]
  constructor
  · intro h
    obtain ⟨⟨v, stmts⟩, e₁', e₂, hc, h, rfl⟩ := bind_eq_ok.1 h
    obtain ⟨e₁, hv, rfl, rfl⟩ := capture_eq_ok.1 hc
    obtain ⟨cs', hcs, rfl⟩ := map_eq_ok.1 (by rw [map_eq_pure_bind]; exact h)
    exact ⟨v, e₁, cs', e₂, hv, hcs, rfl, rfl⟩
  · rintro ⟨v, e₁, cs', e₂, hv, hcs, rfl, rfl⟩
    refine bind_eq_ok.2 ⟨_, _, _, capture_of_ok hv, ?_, rfl⟩
    rw [Effects.temps_withoutStmts, ← map_eq_pure_bind]
    exact map_eq_ok.2 ⟨cs', hcs, rfl⟩

theorem settle_eq_ok {c : Captured} {later : List Captured} {n : Nat} {v : Expr} {e : Effects}
    (h : settle c later n = (.ok v, e)) :
    (((∀ d ∈ later, d.stmts = []) ∨ c.value.isStable) ∧ v = c.value ∧ e = .ofStmts c.stmts) ∨
      (c.value.isStable = false ∧ v = .temp n ∧
        e = ⟨c.stmts ++ [.declareTemp n c.value], [], [⟨"exp", c.span⟩], .empty⟩) := by
  rw [settle, bind_eq_ok] at h
  obtain ⟨_, _, e₂, he, h, rfl⟩ := h
  cases he
  by_cases hl : ∀ d ∈ later, d.stmts = []
  · have hany : later.any (!·.stmts.isEmpty) = false := by simpa using hl
    simp only [hany, Bool.false_eq_true, if_false] at h
    cases h
    exact .inl ⟨.inl hl, rfl, Effects.append_none _⟩
  · have hany : later.any (!·.stmts.isEmpty) = true := by simpa using hl
    simp only [hany, if_true, pushTempIfUnstable] at h
    cases hs : c.value.isStable with
    | true =>
      simp only [hs, if_true] at h
      cases h
      exact .inl ⟨.inr rfl, rfl, Effects.append_none _⟩
    | false =>
      simp only [hs, Bool.false_eq_true, if_false] at h
      cases h
      exact .inr ⟨rfl, rfl, rfl⟩

theorem settleAll_cons_eq_ok {c : Captured} {later : List Captured} {n : Nat} {vs : List Expr}
    {e : Effects} :
    settleAll (c :: later) n = (.ok vs, e) ↔ ∃ v e₁ vs' e₂, settle c later n = (.ok v, e₁) ∧
      settleAll later (n + e₁.temps.length) = (.ok vs', e₂) ∧ vs = v :: vs' ∧ e = e₁ ++ e₂ := by
  simp only [settleAll, ← map_eq_pure_bind]
  rw [bind_eq_ok]
  constructor
  · rintro ⟨v, e₁, e₂, hv, h, rfl⟩
    obtain ⟨vs', hvs, rfl⟩ := map_eq_ok.1 h
    exact ⟨v, e₁, vs', e₂, hv, hvs, rfl, rfl⟩
  · rintro ⟨v, e₁, vs', e₂, hv, hvs, rfl, rfl⟩
    exact ⟨v, e₁, e₂, hv, map_eq_ok.2 ⟨vs', hvs, rfl⟩, rfl⟩

/-- Operands without statements are settled without any. -/
theorem stmts_settleAll_of_no_stmts {cs : List Captured} (h : ∀ c ∈ cs, c.stmts = []) {n : Nat}
    {vs : List Expr} {e : Effects} (hok : settleAll cs n = (.ok vs, e)) : e.stmts = [] := by
  induction cs generalizing n vs e with
  | nil =>
    cases hok
    rfl
  | cons c later ih =>
    obtain ⟨v, e₁, vs', e₂, hv, hvs, -, he⟩ := settleAll_cons_eq_ok.1 hok
    have hlater := fun d hd => h d (List.mem_cons_of_mem _ hd)
    have h₁ : e₁.stmts = [] := by
      rw [settle_of_no_stmts hlater, h c List.mem_cons_self] at hv
      cases hv
      rfl
    rw [he, Effects.stmts_append, h₁, ih hlater hvs, List.append_nil]

theorem length_of_captureAll {xs : List Operand} {n : Nat} {cs : List Captured} {e : Effects}
    (h : captureAll xs n = (.ok cs, e)) : cs.length = xs.length := by
  induction xs generalizing n cs e with
  | nil =>
    cases h
    rfl
  | cons x xs ih =>
    obtain ⟨v, e₁, cs', e₂, -, hcs, rfl, -⟩ := captureAll_cons_eq_ok.1 h
    simp [ih hcs]

theorem length_of_settleAll {cs : List Captured} {n : Nat} {vs : List Expr} {e : Effects}
    (h : settleAll cs n = (.ok vs, e)) : vs.length = cs.length := by
  induction cs generalizing n vs e with
  | nil =>
    cases h
    rfl
  | cons c later ih =>
    obtain ⟨v, e₁, vs', e₂, -, hvs, rfl, -⟩ := settleAll_cons_eq_ok.1 h
    simp [ih hvs]

/-- Each operand has its value. -/
theorem length_of_inOrder {xs : List Operand} {n : Nat} {vs : List Expr} {e : Effects}
    (h : inOrder xs n = (.ok vs, e)) : vs.length = xs.length := by
  obtain ⟨cs, e₁, e₂, hcs, hvs, -⟩ := bind_eq_ok.1 h
  rw [length_of_settleAll hvs, length_of_captureAll hcs]

theorem inOrderPair_eq_ok {x y : Operand} {n : Nat} {p : Expr × Expr} {e : Effects}
    (h : inOrderPair x y n = (.ok p, e)) : inOrder [x, y] n = (.ok [p.1, p.2], e) := by
  rw [inOrder_pair]
  exact map_eq_ok.2 ⟨p, h, rfl⟩

theorem inOrderCons_eq_ok {x : Operand} {xs : List Operand} {n : Nat} {p : Expr × List Expr}
    {e : Effects} (h : inOrderCons x xs n = (.ok p, e)) :
    inOrder (x :: xs) n = (.ok (p.1 :: p.2), e) := by
  rw [inOrder_cons]
  exact map_eq_ok.2 ⟨p, h, rfl⟩

/-- The target's statements come first, then the bindings of its parts, then
the statements of the value. -/
theorem targetAndValue_eq_ok {span : Span} {target : Lower Reference} {value : Lower Expr}
    {b : Bool} {n : Nat} {t : WritableTarget} {v : Expr} {e : Effects}
    (h : targetAndValue span target value b n = (.ok (t, v), e)) :
    ∃ r e₁ e₂ p e₃, target n = (.ok r, e₁) ∧ value (n + e₁.temps.length) = (.ok v, e₂) ∧
      pinPlaceFor (pinFor e₂.stmts b) span r.place (n + e₁.temps.length + e₂.temps.length) =
        (.ok p, e₃) ∧
      t = .ofPlace p b ∧ e = e₁ ++ (e₂.withoutStmts ++ (e₃ ++ .ofStmts e₂.stmts)) := by
  rw [targetAndValue, bind_eq_ok] at h
  obtain ⟨place, e₁, e', hp, h, rfl⟩ := h
  obtain ⟨r, hr, rfl⟩ := map_eq_ok.1 hp
  rw [bind_eq_ok] at h
  obtain ⟨⟨v', stmts⟩, e₂', e'', hc, h, rfl⟩ := h
  obtain ⟨e₂, hv, rfl, rfl⟩ := capture_eq_ok.1 hc
  have hpin : (pinPlaceFor (pinFor e₂.stmts b) span r.place >>= fun p => do
      emitAll e₂.stmts
      return (WritableTarget.ofPlace p b, v')) (n + e₁.temps.length + e₂.temps.length) =
      (.ok (t, v), e'') := by
    rw [Effects.temps_withoutStmts] at h
    cases hp : pinFor e₂.stmts b <;> simp only [hp] at h <;> exact h
  obtain ⟨p, e₃, e₄, hp, hrest, rfl⟩ := bind_eq_ok.1 hpin
  cases hrest
  refine ⟨r, e₁, e₂, p, e₃, hr, hv, hp, rfl, ?_⟩
  exact congrArg (fun x => e₁ ++ (e₂.withoutStmts ++ (e₃ ++ x))) (Effects.append_none _)

/-- A whole target has no parts to bind. -/
theorem targetAndValue_whole_eq_ok {span : Span} {r : Reference} {u : Expr} {value : Lower Expr}
    {b : Bool} {n : Nat} {t : WritableTarget} {v : Expr} {e : Effects} (hr : r.place = .whole u)
    (h : targetAndValue span (pure r) value b n = (.ok (t, v), e)) :
    value n = (.ok v, e) ∧ t = .ofPlace (.whole u) b := by
  obtain ⟨r', e₁, e₂, p, e₃, hr', hv, hp, rfl, rfl⟩ := targetAndValue_eq_ok h
  cases hr'
  obtain ⟨rfl, rfl⟩ : p = .whole u ∧ e₃ = .none := by
    rw [hr] at hp
    cases hpin : pinFor e₂.stmts b <;> rw [hpin] at hp <;> cases hp <;> exact ⟨rfl, rfl⟩
  refine ⟨?_, rfl⟩
  rw [Effects.none_append, Effects.none_append, Effects.withoutStmts_append_ofStmts]
  exact hv

end Lower

end ScriptLowering
