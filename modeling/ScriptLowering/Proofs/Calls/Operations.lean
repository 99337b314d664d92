import ScriptLowering.Proofs.Calls.Meets

/-!
# Names met by operations

Each operation meets the names of its operands in their order.  The names that
lowering writes itself are not counted.

    left meets ms, right meets ns → the operator on them meets ms ++ ns      (meets_shortCircuit)
    target meets ms, value meets ns → the assignment meets ms ++ ns             (meets_assignValue)
-/

namespace ScriptLowering.Lower

open Target (Expr Stmt)
open Target.Stmt (mentionsAll)

/-- The identifiers that lowering writes whatever the source says. -/
def writtenNames : List String :=
  ["self", "TS", "math", "bit32", "string", "tostring", "tonumber", "unpack"]

/-- None of the names is one that lowering writes itself. -/
def Unwritten (N : List String) : Prop := ∀ x ∈ writtenNames, x ∉ N

/-- What is left of a place whose parts are apart.  One that has no parts may be
written any number of times. -/
def PlaceLeft (N : List String) : Place → List String → Prop
  | .whole e, ps => NoneLeft N e ps
  | .property o _, ps => ValueLeft N o ps
  | .index o i, ps => ∃ qs rs, ValueLeft N o qs ∧ ValueLeft N i rs ∧ ps = qs ++ rs

/-- The place may be written any number of times. -/
abbrev PinnedLeft (N : List String) (p : Place) (ps : List String) : Prop := NoneLeft N p.toExpr ps

/-- A target and its value: the target comes first, and has no name left if it is read again. -/
structure AssignmentLeft (N : List String) (readAfterWrite : Bool) (p : WritableTarget × Expr)
    (ps : List String) : Prop where
  readable : p.1.readable = p.1.write
  again : readAfterWrite = true → p.1.write.mentions N = []
  left : p.1.write.mentions N ++ p.2.mentions N = ps

/-- A statement is left to be read. -/
def StmtLeft (N : List String) (s : Stmt) (ps : List String) : Prop :=
  s.mentions N = ps

variable {N ms ns : List String} {pool : TypePool}

/-! ### Operators -/

theorem mentions_written (hN : Unwritten N) (x : String) (hx : x ∈ writtenNames) :
    (Expr.ident x).mentions N = [] := Expr.mentions_ident_of_not_mem (hN x hx)

theorem mentions_libraryMember (hN : Unwritten N) (table : String) (ht : table ∈ writtenNames)
    (member : String) : (libraryMember table member).mentions N = [] := mentions_written hN table ht

theorem mentions_helperMember (hN : Unwritten N) (h : Helper) (member : String) :
    (helperMember h member).mentions N = [] := mentions_written hN "TS" (by decide)

theorem mentions_concatOperand (hN : Unwritten N) (v : TypedValue) :
    (concatOperand pool v).mentions N = v.expr.mentions N := by
  unfold concatOperand
  split
  · rfl
  · simp [mentions_written hN "tostring" (by decide)]

theorem mentions_operation (hN : Unwritten N) (op : Source.ArithmeticOp) (l r : TypedValue) :
    (arithmetic pool op l r).mentions N = l.expr.mentions N ++ r.expr.mentions N := by
  have call {f : Expr} (hf : f.mentions N = []) : (Expr.call f [l.expr, r.expr]).mentions N =
      l.expr.mentions N ++ r.expr.mentions N := by simp [hf]
  cases op <;> simp only [arithmetic, bitOperation]
  case add => split <;> simp [mentions_concatOperand hN]
  case mod => exact call (mentions_libraryMember hN _ (by decide) _)
  case bitAnd | bitOr | bitXor | shl | shr | ushr =>
    exact call (mentions_libraryMember hN _ (by decide) _)
  all_goals exact Expr.mentions_arithmetic ..

theorem isSimple_operation (op : Source.ArithmeticOp) (l r : TypedValue) :
    (arithmetic pool op l r).isSimple = false := by
  cases op <;> simp only [arithmetic, bitOperation]
  case add => split <;> rfl
  all_goals rfl

theorem left_offset {v : Expr} {amount : Number} (h : ValueLeft N v ns) :
    ValueLeft N (offset v amount) ns := by
  unfold offset
  split
  next n => exact ⟨h.left, h.simple⟩
  next => exact .of_not_simple (by simpa using h.left) rfl

theorem left_shiftIndex {ty : TypeId} {v : Expr} (h : ValueLeft N v ns) :
    ValueLeft N (shiftIndex pool ty v) ns := by
  unfold shiftIndex
  split
  · exact left_offset h
  · exact h

theorem left_negate {v : Expr} (h : ValueLeft N v ns) : ValueLeft N (negate v) ns := by
  unfold negate
  split
  next n => exact ⟨h.left, h.simple⟩
  next => exact .of_not_simple h.left rfl

theorem meets_membership {span : Span} {key object : Expr} (hk : ValueLeft N key ms)
    (ho : ValueLeft N object ns) :
    Meets N (ValueLeft N) (membership span key object) (ms ++ ns) := by
  have index {k : Expr} {ps : List String} (h : object.mentions N ++ k.mentions N = ps) :
      Meets N (ValueLeft N) (pure (.binary .ne (.index object k) .nil)) ps :=
    .pure (.of_not_simple (by simpa using h) rfl)
  have hobject := ho.left
  rw [membership_eq]
  unfold membershipKey
  split
  next h =>
    rw [pure_bind]
    refine index ?_
    rw [hk.left, hobject]
    -- the key may follow the object when one of the two has no name
    rcases Bool.or_eq_true_iff.1 h with h | h
    · obtain ⟨hks, hos⟩ := (Bool.and_eq_true_iff).1 h
      rw [hk.simple hks, ho.simple hos]
    · obtain rfl : [] = ns := (Expr.mentions_of_isStable h).symm.trans hobject
      rw [List.append_nil, List.nil_append]
  next =>
    refine (meets_pushTempIfUnstable hk.left).bind fun k ps ⟨hk, hps⟩ => index ?_
    rw [hk, hps, List.append_nil, List.nil_append, hobject]

theorem meets_relation (hN : Unwritten N) {op : Source.RelationOp} {span : Span} {l r : Expr}
    (hl : ValueLeft N l ms) (hr : ValueLeft N r ns) :
    Meets N (ValueLeft N) (relation op span l r) (ms ++ ns) := by
  have direct (op' : Target.BinaryOp) :
      Meets N (ValueLeft N) (pure (.binary op' l r)) (ms ++ ns) :=
    .pure (.of_not_simple (by simp [hl.left, hr.left]) rfl)
  cases op <;> simp only [relation]
  case isIn => exact meets_membership hl hr
  case instanceOf =>
    refine (meets_useHelper .runtime).bind_quiet (.pure (.of_not_simple ?_ rfl))
    simp [mentions_helperMember hN, hl.left, hr.left]
  all_goals exact direct _

/-! ### Truth -/

theorem mentions_foldl_and {cs : List Expr} (hcs : ∀ c ∈ cs, c.mentions N = []) (c : Expr) :
    (cs.foldl (.binary .and) c).mentions N = c.mentions N := by
  induction cs generalizing c with
  | nil => rfl
  | cons d ds ih =>
    obtain ⟨hd, hds⟩ := List.forall_mem_cons.1 hcs
    simp [ih hds, hd]

/-- All checks are on the value itself. -/
theorem mentions_truthTest {ty : TypeId} {v : Expr} (h : v.mentions N = []) :
    (truthTest pool ty v).mentions N = [] := by
  have hchecks : ∀ c ∈ (if (needsChecks pool ty).1 then numberChecks v else []) ++
      (if (needsChecks pool ty).2 then stringChecks v else []), c.mentions N = [] := by
    intro c hc
    rcases List.mem_append.1 hc with hc | hc <;> split at hc <;>
      simp only [numberChecks, stringChecks, List.mem_cons, List.not_mem_nil, or_false] at hc
    · rcases hc with rfl | rfl <;> simp [h]
    · simp [hc, h]
  unfold truthTest
  generalize (if (needsChecks pool ty).1 then numberChecks v else []) ++
    (if (needsChecks pool ty).2 then stringChecks v else []) = checks at hchecks
  cases checks with
  | nil => exact h
  | cons c cs =>
    obtain ⟨hc, hcs⟩ := List.forall_mem_cons.1 hchecks
    rw [conjunction_cons, Expr.mentions_binary, mentions_foldl_and hcs, hc, h]
    rfl

theorem mentions_blockTest {op : Source.LogicalOp} {ty : TypeId} (id : Nat) :
    (blockTest pool op ty (.temp id)).mentions N = [] := by
  have htest : (truthTest pool ty (.temp id)).mentions N = [] :=
    mentions_truthTest (Expr.mentions_temp id)
  cases op <;> simp [blockTest, htest]

theorem meets_truthiness {ty : TypeId} {span : Span} {v : Expr} (h : ValueLeft N v ns) :
    Meets N (Left N) (truthiness pool ty span v) ns := by
  rw [truthiness_eq]
  split
  · exact .pure h.left
  · refine (meets_pushTempIfComplex h).bind_last fun v ps ⟨hv, hps⟩ => .pure ?_
    rw [hps]
    exact mentions_truthTest hv

theorem meets_shortCircuit {op : Source.LogicalOp} {span : Span} {ty : TypeId}
    {left right : Lower Expr} (hl : Meets N (ValueLeft N) left ms)
    (hr : Meets N (ValueLeft N) right ns) :
    Meets N (ValueLeft N) (shortCircuit pool op span ty left right) (ms ++ ns) := by
  intro n v e h
  obtain ⟨l, e₁, r, e₂, hl', hr', hcase⟩ := shortCircuit_eq_ok h
  obtain ⟨ps, hps, rfl⟩ := hl hl'
  obtain ⟨qs, hqs, rfl⟩ := hr hr'
  have hl := hps.left
  have hr := hqs.left
  rcases hcase with ⟨native, -, -, hnil, rfl, rfl⟩ | ⟨id, -, rfl, rfl⟩
  · exact ⟨ps ++ qs, .of_not_simple (by simp [hl, hr]) rfl, by simp [hnil]⟩
  · refine ⟨[], valueLeft_temp id, ?_⟩
    simp [mentions_blockTest, hl, hr]

/-! ### Places -/

theorem PlaceLeft.left {p : Place} {ps : List String} (h : PlaceLeft N p ps) :
    p.toExpr.mentions N = ps := by
  cases p with
  | whole e =>
    obtain ⟨he, rfl⟩ := h
    exact he
  | property o name => exact (show ValueLeft N o ps from h).left
  | index o i =>
    obtain ⟨qs, rs, ho, hi, rfl⟩ := h
    simp [Place.toExpr, ho.left, hi.left]

/-- A place without names, whatever it is. -/
theorem PlaceLeft.of_no_mentions {p : Place} (h : p.toExpr.mentions N = []) :
    PlaceLeft N p [] := by
  cases p with
  | whole e => exact ⟨h, rfl⟩
  | property o name => exact ⟨h, fun _ => rfl⟩
  | index o i =>
    obtain ⟨ho, hi⟩ := List.append_eq_nil_iff.1 ((Expr.mentions_index o i).symm.trans h)
    exact ⟨[], [], ⟨ho, fun _ => rfl⟩, ⟨hi, fun _ => rfl⟩, rfl⟩

theorem Reference.mentions_place (r : Reference) :
    r.place.toExpr.mentions N = r.value.mentions N := by
  induction r with
  | plain p => rfl
  | paren inner ih => exact ih

theorem meets_pinPart {pin : Pin} {hint : String} {span : Span} {v : Expr}
    (h : ValueLeft N v ns) : Meets N (NoneLeft N) (pinPart pin hint span v) ns := by
  cases pin
  · exact meets_pushTempIfComplex h
  · exact meets_pushTempIfUnstable h.left

theorem meets_pinPlace {pin : Pin} {span : Span} {p : Place} (h : PlaceLeft N p ns) :
    Meets N (PinnedLeft N) (pinPlace pin span p) ns := by
  cases p with
  | whole e => exact .pure h
  | property o name =>
    have h : ValueLeft N o ns := h
    exact (meets_pinPart h).bind_last fun o ps ho => .pure ho
  | index o i =>
    obtain ⟨qs, rs, ho, hi, rfl⟩ := h
    refine (meets_pinPart ho).bind fun o ps ⟨ho, hps⟩ => ?_
    obtain rfl := hps
    refine (meets_pinPart hi).bind_last fun i ps ⟨hi, hps⟩ => .pure ⟨?_, hps⟩
    simp [Place.toExpr, ho, hi]

/-! ### Assignments and updates -/

theorem meets_targetAndValue {span : Span} {b : Bool} {target : Lower Reference}
    {value : Lower Expr} (ht : Meets N (PlaceLeft N) (asPlace target) ms)
    (hv : Meets N (ValueLeft N) value ns) :
    Meets N (AssignmentLeft N b) (targetAndValue span target value b) (ms ++ ns) := by
  rintro n ⟨t, v⟩ e h
  obtain ⟨r, e₁, e₂, p, e₃, hr, hv', hp, rfl, rfl⟩ := targetAndValue_eq_ok h
  obtain ⟨ps, hps, rfl⟩ := ht (map_eq_ok.2 ⟨r, hr, rfl⟩)
  obtain ⟨qs, hqs, rfl⟩ := hv hv'
  have hread := WritableTarget.readable_ofPlace p b
  cases hpin : pinFor e₂.stmts b with
  | none =>
    obtain ⟨hnil, rfl⟩ := (pinFor_eq_none_iff _ _).1 hpin
    rw [hpin] at hp
    cases hp
    refine ⟨ps ++ qs, ⟨hread, nofun, ?_⟩, by simp [hnil]⟩
    exact congrArg₂ (· ++ ·) hps.left hqs.left
  | some pin =>
    rw [hpin] at hp
    obtain ⟨_, ⟨hp, rfl⟩, rfl⟩ := meets_pinPlace hps hp
    refine ⟨qs, ⟨hread, fun _ => hp, ?_⟩, by simp⟩
    exact congrArg₂ (· ++ ·) hp hqs.left

/-- A target that is read again has no name left. -/
theorem AssignmentLeft.mentions_readable {p : WritableTarget × Expr} {ps : List String}
    (h : AssignmentLeft N true p ps) : p.1.readable.mentions N = [] := by
  rw [h.readable]
  exact h.again rfl

theorem AssignmentLeft.meets_emit_assign {b : Bool} {t : WritableTarget} {v w : Expr}
    {ps : List String} (h : AssignmentLeft N b (t, v) ps) (hw : w.mentions N = v.mentions N) :
    Meets N Done (emit (.assign t.write w)) ps := by
  have := meets_emit (N := N) (.assign t.write w)
  rwa [Stmt.mentions_assign, hw, h.left] at this

theorem meets_assignValue {span : Span} {target : Lower Reference} {value : Lower Expr}
    (ht : Meets N (PlaceLeft N) (asPlace target) ms) (hv : Meets N (ValueLeft N) value ns) :
    Meets N (ValueLeft N) (assignValue span target value) (ms ++ ns) := by
  refine (meets_targetAndValue ht hv).bind_last fun ⟨t, v⟩ ps h => ?_
  have hread : t.readable.mentions N = [] := h.mentions_readable
  refine (h.meets_emit_assign rfl).bind_last fun _ ps hdone => ?_
  exact .pure (.of_noneLeft ⟨hread, hdone⟩)

theorem meets_compoundValue (hN : Unwritten N) {op : Source.ArithmeticOp}
    {info : Source.NodeInfo} {ty : TypeId} {target : Lower Reference} {value : Lower Expr}
    (ht : Meets N (PlaceLeft N) (asPlace target) ms) (hv : Meets N (ValueLeft N) value ns) :
    Meets N (ValueLeft N) (compoundValue pool op info ty target value) (ms ++ ns) := by
  refine (meets_targetAndValue ht hv).bind_last fun ⟨t, v⟩ ps h => ?_
  have hread : t.readable.mentions N = [] := h.mentions_readable
  have hw : (arithmetic pool op ⟨t.readable, info.ty⟩ ⟨v, ty⟩).mentions N = v.mentions N := by
    rw [mentions_operation hN, hread]
    rfl
  refine (h.meets_emit_assign hw).bind_last fun _ ps hdone => ?_
  exact .pure (.of_noneLeft ⟨hread, hdone⟩)

theorem meets_assignStatement {span : Span} {target : Lower Reference} {value : Lower Expr}
    (ht : Meets N (PlaceLeft N) (asPlace target) ms) (hv : Meets N (ValueLeft N) value ns) :
    Meets N (StmtLeft N) (assignStatement span target value) (ms ++ ns) := by
  refine (meets_targetAndValue ht hv).bind_last fun ⟨t, v⟩ ps h => .pure ?_
  rw [StmtLeft, Stmt.mentions_assign]
  exact h.left

theorem meets_compoundStatement (hN : Unwritten N) {op : Source.ArithmeticOp}
    {info : Source.NodeInfo} {ty : TypeId} {target : Lower Reference} {value : Lower Expr}
    (ht : Meets N (PlaceLeft N) (asPlace target) ms) (hv : Meets N (ValueLeft N) value ns) :
    Meets N (StmtLeft N) (compoundStatement pool op info ty target value) (ms ++ ns) := by
  unfold compoundStatement
  split
  · refine (meets_targetAndValue ht hv).bind_last fun ⟨t, v⟩ ps h => .pure ?_
    rw [StmtLeft, Stmt.mentions_compound, ← h.left]
    split
    · rw [mentions_concatOperand hN]
    · rfl
  · refine (meets_targetAndValue ht hv).bind_last fun ⟨t, v⟩ ps h => .pure ?_
    have hread : t.readable.mentions N = [] := h.mentions_readable
    rw [StmtLeft, Stmt.mentions_assign, mentions_operation hN, hread, ← h.left]
    rfl

theorem mentions_updateBy (op : Source.UpdateOp) (t : Expr) :
    (updateBy op t).mentions N = t.mentions N := by
  simp [updateBy]

theorem meets_updateStatement {op : Source.UpdateOp} {target : Lower Reference}
    (ht : Meets N (PlaceLeft N) (asPlace target) ns) :
    Meets N (StmtLeft N) (updateStatement op target) ns := by
  refine ht.bind_last fun p ps h => .pure ?_
  rw [StmtLeft, mentions_updateBy]
  exact h.left

/-- An update of a place that may be written again, and what is read after it. -/
theorem meets_updateBy {op : Source.UpdateOp} {p : Place} {v : Expr} (hp : PinnedLeft N p ns)
    (hv : NoneLeft N v []) :
    Meets N (ValueLeft N) (emit (updateBy op p.toExpr) >>= fun _ => pure v) ns := by
  have hemit := meets_emit (N := N) (updateBy op p.toExpr)
  rw [mentions_updateBy, hp.1] at hemit
  rw [hp.2]
  exact hemit.bind_last fun _ _ hdone => .pure (.of_noneLeft ⟨hv.1, hdone⟩)

theorem meets_updateBefore {op : Source.UpdateOp} {span : Span} {target : Lower Reference}
    (ht : Meets N (PlaceLeft N) (asPlace target) ns) :
    Meets N (ValueLeft N) (updateBefore op span target) ns := by
  refine ht.bind_last fun p ps h => ?_
  refine (meets_pinPlace h).bind_last fun p ps hp => ?_
  exact meets_updateBy hp ⟨hp.1, rfl⟩

theorem meets_updateAfter {op : Source.UpdateOp} {span : Span} {target : Lower Reference}
    (ht : Meets N (PlaceLeft N) (asPlace target) ns) :
    Meets N (ValueLeft N) (updateAfter op span target) ns := by
  refine ht.bind_last fun p ps h => ?_
  refine (meets_pinPlace h).bind_last fun p ps ⟨hp, hps⟩ => ?_
  rw [hps]
  refine (meets_pushTemp hp).bind_last fun copy ps ⟨hcopy, hps⟩ => ?_
  rw [hps]
  exact meets_updateBy ⟨hp, rfl⟩ ⟨hcopy, rfl⟩

end ScriptLowering.Lower
