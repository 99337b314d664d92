import ScriptLowering.Proofs.Temporaries.Tidy

/-!
# Tidy operations

Each operation of lowering is tidy when its operands are.  Where statements are
set apart, the temporaries they declare are declared where they are put back.

    all operands tidy → inOrder of them is tidy                    (tidy_inOrder)
    left and right tidy → the short-circuit operator is tidy        (tidy_shortCircuit)
-/

namespace ScriptLowering.Lower

open Target (Expr Stmt)
open Target.Stmt (Scoped declared declaredWithin)

variable {writable : Expr → Prop} {V W : List Nat} {n : Nat}

/-! ### Operands -/

/-- Statements set apart where `V` is visible, and the value read after them. -/
structure CapturedIn (writable : Expr → Prop) (V : List Nat) (c : Captured) : Prop where
  inScope : Scoped writable V c.stmts
  reads : c.value.ReadsIn (declared c.stmts ++ V)

theorem CapturedIn.mono {c : Captured} (h : CapturedIn writable V c) (hVW : ∀ i ∈ V, i ∈ W) :
    CapturedIn writable W c := by
  refine ⟨h.inScope.mono hVW, h.reads.mono fun i hi => ?_⟩
  rw [List.mem_append] at hi ⊢
  exact hi.imp_right (hVW i)

theorem keeps_captureAll {xs : List Operand}
    (hx : ∀ x ∈ xs, Tidy writable V x.lower Expr.ReadsIn) {cs : List Captured} {e : Effects}
    (h : captureAll xs n = (.ok cs, e)) :
    e.stmts = [] ∧ (∀ c ∈ cs, CapturedIn writable V c) ∧
      (cs.flatMap (declaredWithin ·.stmts)).Perm (List.range' n e.temps.length) := by
  induction xs generalizing n cs e with
  | nil =>
    cases h
    exact ⟨rfl, by simp, .refl _⟩
  | cons x xs ih =>
    obtain ⟨v, e₁, cs', e₂, hv, hcs, rfl, rfl⟩ := captureAll_cons_eq_ok.1 h
    obtain ⟨k, hreads⟩ := hx x List.mem_cons_self hv
    obtain ⟨hs, hc, hp⟩ := ih (fun x h => hx x (List.mem_cons_of_mem _ h)) hcs
    refine ⟨by simpa using hs, ?_, ?_⟩
    · rintro c (_ | ⟨_, hm⟩)
      · exact ⟨k.inScope, hreads _ (fun i hi => List.mem_append_right _ hi)
          fun i hi => List.mem_append_left _ hi⟩
      · exact hc c hm
    · have := k.fresh.append hp
      rw [List.range'_append_1] at this
      simpa using this

theorem keeps_settleAll {cs : List Captured} (hc : ∀ c ∈ cs, CapturedIn writable V c)
    {vs : List Expr} {e : Effects} (h : settleAll cs n = (.ok vs, e)) :
    Scoped writable V e.stmts ∧ ReadsAll vs (declared e.stmts ++ V) ∧
      (declaredWithin e.stmts).Perm
        (cs.flatMap (declaredWithin ·.stmts) ++ List.range' n e.temps.length) := by
  induction cs generalizing n vs e V with
  | nil =>
    cases h
    exact ⟨.nil, by simp [ReadsAll], .refl _⟩
  | cons c later ih =>
    obtain ⟨v, e₁, vs', e₂, hv, hvs, rfl, rfl⟩ := settleAll_cons_eq_ok.1 h
    obtain ⟨hs, hr⟩ := hc c List.mem_cons_self
    -- what the first operand emits, whether its value is bound or not
    obtain ⟨hs₁, hr₁, hp₁⟩ : Scoped writable V e₁.stmts ∧ v.ReadsIn (declared e₁.stmts ++ V) ∧
        (declaredWithin e₁.stmts).Perm
          (declaredWithin c.stmts ++ List.range' n e₁.temps.length) := by
      rcases settle_eq_ok hv with ⟨-, rfl, rfl⟩ | ⟨-, rfl, rfl⟩
      · exact ⟨hs, hr, by simp⟩
      · refine ⟨hs.append (.declare (by simpa using hr) .nil), ?_, ?_⟩
        · simp [Stmt.declareTemp, Stmt.declares, Target.Binding.temps]
        · simp [Stmt.declareTemp, Stmt.declaredWithin, Stmt.declaresWithin, Target.Binding.temps]
    have hlater : ∀ d ∈ later, CapturedIn writable (declared e₁.stmts ++ V) d := fun d hd =>
      (hc d (List.mem_cons_of_mem _ hd)).mono fun i hi => List.mem_append_right _ hi
    obtain ⟨hs₂, hr₂, hp₂⟩ := ih hlater hvs
    refine ⟨hs₁.append hs₂, ?_, ?_⟩
    · rintro w (_ | ⟨_, hm⟩)
      · exact hr₁.mono (by simp; grind)
      · exact (hr₂ w hm).mono (by simp; grind)
    · rw [Effects.stmts_append, Stmt.declaredWithin_append, Effects.temps_append,
        List.length_append, ← List.range'_append_1]
      refine (hp₁.append hp₂).trans ?_
      simp only [List.flatMap_cons, List.append_assoc]
      exact .append_left _ (List.perm_append_comm_assoc ..)

theorem tidy_inOrder {xs : List Operand} (hx : ∀ x ∈ xs, Tidy writable V x.lower Expr.ReadsIn) :
    Tidy writable V (inOrder xs) ReadsAll := by
  intro n vs e h
  obtain ⟨cs, e₁, e₂, hcs, hvs, rfl⟩ := bind_eq_ok.1 h
  obtain ⟨hnil, hc, hp⟩ := keeps_captureAll hx hcs
  obtain ⟨hs, hr, hp'⟩ := keeps_settleAll hc hvs
  refine ⟨⟨by simpa [hnil] using hs, ?_⟩, fun W hV hd v hv => (hr v hv).mono fun i hi => ?_⟩
  · rw [Effects.stmts_append, hnil, List.nil_append, Effects.temps_append, List.length_append,
      ← List.range'_append_1]
    exact hp'.trans (hp.append_right _)
  · rw [Effects.stmts_append, hnil, List.nil_append] at hd
    exact (List.mem_append.1 hi).elim (hd i) (hV i)

theorem tidy_inOrderCons {x : Operand} {xs : List Operand}
    (hx : ∀ y ∈ x :: xs, Tidy writable V y.lower Expr.ReadsIn) :
    Tidy writable V (inOrderCons x xs) fun p W => p.1.ReadsIn W ∧ ReadsAll p.2 W := by
  intro n p e h
  obtain ⟨k, hr⟩ := tidy_inOrder hx (inOrderCons_eq_ok h)
  exact ⟨k, fun W hV hd => List.forall_mem_cons.1 (hr W hV hd)⟩

theorem tidy_inOrderPair {x y : Operand} (hx : Tidy writable V x.lower Expr.ReadsIn)
    (hy : Tidy writable V y.lower Expr.ReadsIn) :
    Tidy writable V (inOrderPair x y) fun p W => p.1.ReadsIn W ∧ p.2.ReadsIn W := by
  intro n p e h
  obtain ⟨k, hr⟩ := tidy_inOrder (by simpa using ⟨hx, hy⟩) (inOrderPair_eq_ok h)
  exact ⟨k, fun W hV hd => by simpa [ReadsAll] using hr W hV hd⟩

/-! ### Operators -/

theorem readsIn_concatOperand {pool : TypePool} {v : TypedValue} (h : v.expr.ReadsIn V) :
    (concatOperand pool v).ReadsIn V := by
  unfold concatOperand
  split
  · exact h
  · simp [h]

theorem readsIn_arithmetic {pool : TypePool} {op : Source.ArithmeticOp} {l r : TypedValue}
    (hl : l.expr.ReadsIn V) (hr : r.expr.ReadsIn V) : (arithmetic pool op l r).ReadsIn V := by
  cases op <;> simp only [arithmetic, bitOperation, libraryMember]
  case add => split <;> simp [hl, hr, readsIn_concatOperand]
  all_goals simp [hl, hr]

theorem readsIn_offset {e : Expr} {amount : Number} (h : e.ReadsIn V) :
    (offset e amount).ReadsIn V := by
  unfold offset
  split <;> simp_all

theorem readsIn_negate {e : Expr} (h : e.ReadsIn V) : (negate e).ReadsIn V := by
  unfold negate
  split <;> simp_all

theorem readsIn_shiftIndex {pool : TypePool} {ty : TypeId} {e : Expr} (h : e.ReadsIn V) :
    (shiftIndex pool ty e).ReadsIn V := by
  unfold shiftIndex
  split
  · exact readsIn_offset h
  · exact h

theorem tidy_membership {span : Span} {key object : Expr} (hk : key.ReadsIn V)
    (ho : object.ReadsIn V) : Tidy writable V (membership span key object) Expr.ReadsIn := by
  have hkey : Tidy writable V (membershipKey span key object) Expr.ReadsIn := by
    unfold membershipKey
    split
    · exact .pure fun W hV => hk.mono hV
    · exact tidy_pushTempIfUnstable hk
  rw [membership_eq]
  refine hkey.bind ?_
  intro k W hVW hk
  refine .pure fun U hWU => ?_
  have hoU : object.ReadsIn U := ho.mono fun i hi => hWU i (hVW i hi)
  simp [hk.mono hWU, hoU]

theorem tidy_relation {op : Source.RelationOp} {span : Span} {l r : Expr} (hl : l.ReadsIn V)
    (hr : r.ReadsIn V) : Tidy writable V (relation op span l r) Expr.ReadsIn := by
  have direct : ∀ op', Tidy writable V (pure (.binary op' l r)) Expr.ReadsIn := fun op' =>
    .pure fun W hV => by simp [hl.mono hV, hr.mono hV]
  cases op <;> simp only [relation]
  case isIn => exact tidy_membership hl hr
  case instanceOf =>
    refine (tidy_useHelper .runtime).bind ?_
    intro _ W hVW _
    refine .pure fun U hWU => ?_
    have hVU : ∀ i ∈ V, i ∈ U := fun i hi => hWU i (hVW i hi)
    simp [helperMember, hl.mono hVU, hr.mono hVU]
  all_goals exact direct _

theorem tidy_looseEquality (op : Source.LooseOp) (span : Span) :
    Tidy writable V (looseEquality op span) Expr.ReadsIn := by
  have placeholder (W : List Nat) : Tidy writable W (pure .placeholder) Expr.ReadsIn :=
    .pure fun _ _ => Expr.readsIn_placeholder
  cases op <;> exact (tidy_report ..).bind fun _ W _ _ => placeholder W

/-! ### Truth -/

theorem readsIn_foldl_and {cs : List Expr} {c : Expr} (hc : c.ReadsIn V) (hcs : ReadsAll cs V) :
    (cs.foldl (.binary .and) c).ReadsIn V := by
  induction cs generalizing c with
  | nil => exact hc
  | cons d ds ih =>
    obtain ⟨hd, hds⟩ := List.forall_mem_cons.1 hcs
    exact ih (by simp [hc, hd]) hds

theorem readsIn_truthTest {pool : TypePool} {ty : TypeId} {v : Expr} (h : v.ReadsIn V) :
    (truthTest pool ty v).ReadsIn V := by
  have hchecks : ReadsAll
      ((if (needsChecks pool ty).1 then numberChecks v else []) ++
        (if (needsChecks pool ty).2 then stringChecks v else [])) V := by
    intro c hc
    rcases List.mem_append.1 hc with hc | hc <;> split at hc <;>
      simp only [numberChecks, stringChecks, List.mem_cons, List.not_mem_nil, or_false] at hc
    · rcases hc with rfl | rfl <;> simp [h]
    · subst hc
      simp [h]
  unfold truthTest
  generalize (if (needsChecks pool ty).1 then numberChecks v else []) ++
    (if (needsChecks pool ty).2 then stringChecks v else []) = checks at hchecks
  cases checks with
  | nil => exact h
  | cons c cs =>
    obtain ⟨hc, hcs⟩ := List.forall_mem_cons.1 hchecks
    rw [conjunction_cons]
    simp [readsIn_foldl_and hc hcs, h]

theorem readsIn_blockTest {pool : TypePool} {op : Source.LogicalOp} {ty : TypeId} {v : Expr}
    (h : v.ReadsIn V) : (blockTest pool op ty v).ReadsIn V := by
  cases op <;> simp [blockTest, h, readsIn_truthTest]

theorem tidy_truthiness {pool : TypePool} {ty : TypeId} {span : Span} {v : Expr}
    (h : v.ReadsIn V) : Tidy writable V (truthiness pool ty span v) Expr.ReadsIn := by
  rw [truthiness_eq]
  split
  · exact .pure fun W hV => h.mono hV
  · refine (tidy_pushTempIfComplex h).bind ?_
    intro v W _ hv
    refine .pure fun U hWU => ?_
    exact readsIn_truthTest (hv.mono hWU)

theorem tidy_shortCircuit {pool : TypePool} {op : Source.LogicalOp} {span : Span} {ty : TypeId}
    {left right : Lower Expr} (hl : Tidy writable V left Expr.ReadsIn)
    (hr : Tidy writable V right Expr.ReadsIn) :
    Tidy writable V (shortCircuit pool op span ty left right) Expr.ReadsIn := by
  intro n v e h
  obtain ⟨l, e₁, r, e₂, hl', hr', hcase⟩ := shortCircuit_eq_ok h
  obtain ⟨k₁, q₁⟩ := hl hl'
  obtain ⟨k₂, q₂⟩ := (hr.mono fun i hi => List.mem_append_right (declared e₁.stmts) hi) hr'
  have hlV : l.ReadsIn (declared e₁.stmts ++ V) :=
    q₁ _ (fun i hi => List.mem_append_right _ hi) fun i hi => List.mem_append_left _ hi
  rcases hcase with ⟨native, -, -, hnil, rfl, rfl⟩ | ⟨id, hid, rfl, rfl⟩
  · refine ⟨k₁.append k₂, fun W hV hd => ?_⟩
    rw [Effects.stmts_append, hnil, List.append_nil] at hd
    have hW : ∀ i ∈ declared e₁.stmts ++ V, i ∈ W := fun i hi =>
      (List.mem_append.1 hi).elim (hd i) (hV i)
    exact Expr.readsIn_binary.2 ⟨hlV.mono hW, q₂ W hW (by simp [hnil])⟩
  · have hcons : ∀ i ∈ declared e₁.stmts ++ V, i ∈ id :: (declared e₁.stmts ++ V) := fun i hi =>
      List.mem_cons_of_mem _ hi
    have hblock : Scoped writable (declared e₁.stmts ++ V) [.declareTemp id l,
        .ifThen (blockTest pool op ty (.temp id)) (e₂.stmts ++ [.assign (.temp id) r])] := by
      refine .block hlV (readsIn_blockTest (by simp)) (k₂.inScope.mono hcons) ?_ .nil
      exact q₂ _ (fun i hi => List.mem_append_right _ (hcons i hi)) fun i hi =>
        List.mem_append_left _ hi
    refine ⟨⟨by simpa using k₁.inScope.append hblock, ?_⟩, fun W _ hd => ?_⟩
    · -- the right side's temporaries come before the result's, and are declared after it
      have hp := k₁.fresh.append ((k₂.fresh.append_right [id]).symm.trans
        List.perm_append_comm).symm
      simp only [Effects.stmts_append, Effects.stmts_withoutStmts, List.nil_append,
        Stmt.declaredWithin_append, Stmt.declaredWithin_block, Effects.temps_append,
        Effects.temps_withoutStmts, List.length_append, List.length_singleton]
      rw [← List.range'_append_1, ← List.range'_append_1, List.range'_one, ← hid]
      simpa using hp
    · refine Expr.readsIn_temp.2 (hd id ?_)
      simp [Stmt.declareTemp, Stmt.declares, Target.Binding.temps]

end ScriptLowering.Lower
