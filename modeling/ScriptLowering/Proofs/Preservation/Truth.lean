import ScriptLowering.Proofs.Preservation.Operands
import ScriptLowering.Proofs.Semantics.Source

/-!
# Truth runs as in the source

A condition on a value passes in the target exactly when the value is true in
the source, whatever the value is, as long as its type admits it.  With that,
negation and the short-circuit operators run as in the source.

    a is admitted → the test on a passes iff a is true                    (passes_truthTest)
    left and right run as their meanings → so does the operator on them      (shortCircuit_runs)
-/

namespace ScriptLowering.Lower

open Run (After)
open Target (Expr Stmt Temps eval evalList execAll)

variable {w : World} {pool : TypePool} {ty : TypeId} {τ : Temps w} {s : w.State}

/-- The expression can be read without a change and holds or not, as said. -/
def Passes (τ : Temps w) (s : w.State) (e : Expr) (p : Bool) : Prop :=
  ∃ a, eval τ e s = (.ok a, s) ∧ a.holds = p

/-! ### Tests -/

theorem Passes.and {x y : Expr} {p q : Bool} (hx : Passes τ s x p) (hy : Passes τ s y q) :
    Passes τ s (.binary .and x y) (p && q) := by
  obtain ⟨a, ha, rfl⟩ := hx
  obtain ⟨b, hb, rfl⟩ := hy
  have : eval τ (.binary .and x y) s = (if a.holds then eval τ y else pure a) s :=
    Run.bind_of_ok ha _
  cases h : a.holds with
  | true => exact ⟨b, by rw [this, h, if_pos rfl, hb], rfl⟩
  | false => exact ⟨a, by rw [this, h, if_neg Bool.false_ne_true, Run.pure_apply], h⟩

theorem Passes.not {x : Expr} {p : Bool} (hx : Passes τ s x p) :
    Passes τ s (.unary .not x) (!p) := by
  obtain ⟨a, ha, rfl⟩ := hx
  exact ⟨.bool (!a.holds), Run.bind_of_ok ha _, rfl⟩

/-- Two values read without a change are compared without one. -/
theorem eval_equality {x y : Expr} {a b : w.Val} (hx : eval τ x s = (.ok a, s))
    (hy : eval τ y s = (.ok b, s)) :
    Passes τ s (.binary .eq x y) (a.same b) ∧ Passes τ s (.binary .ne x y) (!a.same b) := by
  have (op : Target.BinaryOp) (hop : Target.operate op a (eval τ y) =
      eval τ y >>= Run.binary op a) :
      eval τ (.binary op x y) s = Run.binary op a b s := by
    rw [eval, Run.bind_of_ok hx, hop, Run.bind_of_ok hy]
  exact ⟨⟨_, this .eq rfl, rfl⟩, ⟨_, this .ne rfl, rfl⟩⟩

/-- The test on an admitted value passes exactly if the source counts it as true. -/
theorem passes_truthTest {u : Expr} {a : w.Val} (hu : eval τ u s = (.ok a, s))
    (ha : a.AdmittedBy pool ty) : Passes τ s (truthTest pool ty u) a.truthy := by
  have hval : Passes τ s u a.holds := ⟨a, hu, rfl⟩
  have hzero := (eval_equality hu (y := .number .zero) rfl).2
  have hself := (eval_equality hu hu).1
  have hempty := (eval_equality hu (y := .string "") rfl).2
  unfold truthTest needsChecks
  rw [Value.truthy_eq]
  -- a check that the type does not ask for would pass on every value that it admits
  cases hn : pool.isPossiblyA ty .number <;> cases hs : pool.isPossiblyA ty .string
  · rw [ha.numberChecks hn, ha.stringChecks hs]
    exact hval
  · rw [ha.numberChecks hn]
    exact hempty.and hval
  · rw [ha.stringChecks hs, Bool.and_true]
    exact (hzero.and hself).and hval
  · exact ((hzero.and hself).and hempty).and hval

/-- The block of a short-circuit operator runs unless the left operand settles it. -/
theorem passes_blockTest (op : Source.LogicalOp) {u : Expr} {a : w.Val}
    (hu : eval τ u s = (.ok a, s)) (ha : a.AdmittedBy pool ty) :
    Passes τ s (blockTest pool op ty u) (!op.settledBy a) := by
  cases op with
  | and => simpa [Source.LogicalOp.settledBy, blockTest] using passes_truthTest hu ha
  | or => exact (passes_truthTest hu ha).not
  | coalesce =>
    have := (eval_equality hu (y := .nil) rfl).1
    rw [Value.same_nil] at this
    simpa [Source.LogicalOp.settledBy, blockTest] using this

/-! ### Operators -/

/-- A short-circuit operator, its left operand of the given type. -/
def Meaning.logical (pool : TypePool) (ty : TypeId) (op : Source.LogicalOp) (l r : Meaning w) :
    Meaning w where
  run := l.run >>= fun x => if op.settledBy x then pure x else r.run
  pre s := l.pre s ∧ After l.run s fun v s =>
    v.AdmittedBy pool ty ∧ (op.settledBy v = false → r.pre s)

def Meaning.not (pool : TypePool) (ty : TypeId) (m : Meaning w) : Meaning w where
  run := m.run >>= fun v => pure (.bool (!v.truthy))
  pre s := m.pre s ∧ After m.run s fun v _ => v.AdmittedBy pool ty

/-- On an admitted value without checks the target's own truth is the source's. -/
theorem holds_of_no_checks (hc : needsChecks pool ty = (false, false)) {a : w.Val}
    (ha : a.AdmittedBy pool ty) : a.holds = a.truthy := by
  obtain ⟨hnumber, hstring⟩ := Prod.mk.inj hc
  rw [Value.truthy_eq, ha.numberChecks hnumber, ha.stringChecks hstring, Bool.true_and,
    Bool.true_and]

/-- Without checks the target's own operator settles the same values. -/
theorem operate_native {op : Source.LogicalOp} {native : Target.BinaryOp}
    (hn : nativeLogical op = some native) (hc : needsChecks pool ty = (false, false)) {a : w.Val}
    (ha : a.AdmittedBy pool ty) (r : w.Run w.Val) :
    Target.operate native a r = if op.settledBy a then pure a else r := by
  have htruth := holds_of_no_checks hc ha
  cases op <;> cases hn
  all_goals
    simp only [Target.operate, Source.LogicalOp.settledBy, htruth]
    by_cases h : a.truthy = true <;> simp [h]

/-- The block leaves the temporary as it is, or with the value of the right operand. -/
theorem exec_block {op : Source.LogicalOp} {right : Lower Expr} {r : Meaning w}
    (hr : Runs right r) {n : Nat} {v : Expr} {e : Effects} (h : right n = (.ok v, e)) {id : Nat}
    {a : w.Val} (hid : τ id = a) (ha : a.AdmittedBy pool ty)
    (hpre : op.settledBy a = false → r.pre s) :
    (Target.exec (.ifThen (blockTest pool op ty (.temp id)) (e.stmts ++ [.assign (.temp id) v])) τ
      >>= fun τ => pure (τ id)) s = (if op.settledBy a then pure a else r.run) s := by
  have hread : eval τ (.temp id) s = (.ok a, s) := by rw [eval, hid, Run.pure_apply]
  obtain ⟨b, hb, hpass⟩ := passes_blockTest op hread ha
  rw [Target.exec, Run.bind_assoc, Run.bind_of_ok hb, hpass]
  cases hs : op.settledBy a with
  | true => simp [hid]
  | false =>
    simp only [Bool.not_false, if_true, Bool.false_eq_true, if_false]
    rw [← hr h τ s (hpre hs), runValue, Target.execAll_append, Run.bind_assoc]
    simp only [Target.execAll_single, Target.exec, Target.locate, Run.pure_bind, Run.bind_assoc,
      Target.Location.write, Temps.set_self, Run.bind_pure]

theorem shortCircuit_runs {op : Source.LogicalOp} {span : Span} {left right : Lower Expr}
    {l r : Meaning w} (hl : Runs left l) (hr : Runs right r) :
    Runs (shortCircuit pool op span ty left right) (.logical pool ty op l r) := by
  intro n v e h τ s ⟨hpre, hafter⟩
  obtain ⟨x, e₁, y, e₂, hx, hy, hcase⟩ := shortCircuit_eq_ok h
  have hleft := hl hx τ s hpre
  rcases hcase with ⟨native, hn, hc, hnil, rfl, rfl⟩ | ⟨id, -, rfl, rfl⟩
  · rw [runValue, Effects.stmts_append, hnil, List.append_nil]
    refine Run.bind_through hleft fun τ₁ a s₁ ha => ?_
    obtain ⟨hadm, hrpre⟩ := hafter a s₁ ha
    rw [operate_native hn hc hadm]
    cases hs : op.settledBy a with
    | true => rfl
    | false =>
      have := hr hy τ₁ s₁ (hrpre hs)
      rwa [hnil] at this
  · rw [runValue, Effects.stmts_append, Target.execAll_append, Run.bind_assoc]
    simp only [Effects.stmts_append, Effects.stmts_withoutStmts, List.nil_append, execAll,
      Target.exec_declareTemp, Run.bind_assoc, Run.pure_bind, eval]
    refine Run.bind_through hleft fun τ₁ a s₁ ha => ?_
    obtain ⟨hadm, hrpre⟩ := hafter a s₁ ha
    exact exec_block hr hy (Temps.set_self ..) hadm hrpre

theorem eval_not_truthTest {u : Expr} {a : w.Val} (hu : eval τ u s = (.ok a, s))
    (ha : a.AdmittedBy pool ty) :
    eval τ (.unary .not (truthTest pool ty u)) s = (.ok (.bool (!a.truthy)), s) := by
  obtain ⟨b, hb, hp⟩ := passes_truthTest hu ha
  rw [eval, Run.bind_of_ok hb, ← hp]
  rfl

theorem not_runs {span : Span} {x : Lower Expr} {m : Meaning w} (hx : Runs x m) :
    Runs (x >>= fun v => .unary .not <$> truthiness pool ty span v) (.not pool ty m) := by
  intro n c e h τ s ⟨hpre, hadm⟩
  obtain ⟨v, e₁, e₂, hv, hc, rfl⟩ := bind_eq_ok.1 h
  obtain ⟨t, ht, rfl⟩ := map_eq_ok.1 hc
  have hval := hx hv τ s hpre
  rw [runValue, Effects.stmts_append, Target.execAll_append, Run.bind_assoc]
  rcases truthiness_eq_ok ht with ⟨hn, rfl, rfl⟩ | ⟨hsimple, rfl, rfl⟩ | ⟨rfl, rfl⟩
  · simp only [Effects.stmts_none, execAll, Run.pure_bind]
    refine Run.bind_through hval fun τ₁ a s₁ ha => ?_
    rw [Target.operateUnary, holds_of_no_checks hn (hadm a s₁ ha)]
  · simp only [Effects.stmts_none, execAll, Run.pure_bind]
    -- the value is read as often as the test needs it
    have hread (τ₁ : Temps w) (s₁ : w.State) (h₁ : execAll e₁.stmts τ s = (.ok τ₁, s₁)) :
        eval τ₁ (.unary .not (truthTest pool ty v)) s₁ =
          (eval τ₁ v >>= fun a => pure (.bool (!a.truthy))) s₁ := by
      obtain ⟨a, ha⟩ := eval_of_isSimple hsimple τ₁ s₁
      have hm : m.run s = (.ok a, s₁) := by rw [← hval, runValue, Run.bind_of_ok h₁, ha]
      rw [eval_not_truthTest ha (hadm a s₁ hm), Run.bind_of_ok ha, Run.pure_apply]
    rw [Run.bind_congr_right hread]
    exact Run.bind_through hval fun _ _ _ _ => rfl
  · simp only [execAll, Target.exec_declareTemp, Run.bind_assoc, Run.pure_bind]
    refine Run.bind_through hval fun τ₁ a s₁ ha => ?_
    refine eval_not_truthTest ?_ (hadm a s₁ ha)
    rw [eval, Temps.set_self, Run.pure_apply]

end ScriptLowering.Lower
