import ScriptLowering.Proofs.Lowering.Total
import ScriptLowering.Proofs.Preservation.Truth
import ScriptLowering.Proofs.Target.Subterms

/-!
# Conditions are exact

A value that becomes a condition is evaluated as before, and once unless it is
simple; the condition made of it then passes in the target exactly when the
value is true in the source.

    the value is admitted by its type → the condition passes iff it is true     (condition_run)
    a value that is not simple stands in one place of the code                   (condition_once)
-/

namespace ScriptLowering.Lower

open Target (Expr Stmt Temps eval execAll Once)

variable {w : World} {pool : TypePool} {ty : TypeId} {span : Span} {value c : Expr} {n : Nat}
  {e : Effects}

/-! ### The code of a condition -/

/-- The statements go through where the value can be evaluated, and leave what it left; the
condition is then read without a change. -/
theorem condition_run (h : truthiness pool ty span value n = (.ok c, e)) {τ : Temps w}
    {s s' : w.State} {a : w.Val} (hv : eval τ value s = (.ok a, s')) (ha : a.AdmittedBy pool ty) :
    ∃ τ' s₁ b, execAll e.stmts τ s = (.ok τ', s₁) ∧ eval τ' c s₁ = (.ok b, s') ∧
      b.holds = a.truthy := by
  rcases truthiness_eq_ok h with ⟨hn, rfl, rfl⟩ | ⟨hsimple, rfl, rfl⟩ | ⟨rfl, rfl⟩
  · exact ⟨τ, s, a, rfl, hv, holds_of_no_checks hn ha⟩
  · -- reading the value again gives the same
    obtain ⟨a', ha'⟩ := eval_of_isSimple hsimple τ s
    cases ha'.symm.trans hv
    obtain ⟨b, hb, hp⟩ := passes_truthTest hv ha
    exact ⟨τ, s, b, rfl, hb, hp⟩
  · have hread : eval (τ.set n a) (.temp n) s' = (.ok a, s') := by
      rw [eval, Temps.set_self, Run.pure_apply]
    obtain ⟨b, hb, hp⟩ := passes_truthTest hread ha
    refine ⟨τ.set n a, s', b, ?_, hb, hp⟩
    simp only [Target.execAll_single, Target.exec_declareTemp]
    exact Run.bind_of_ok hv _

/-- An error of the value is the error of the code, in the same state. -/
theorem condition_error (h : truthiness pool ty span value n = (.ok c, e)) {τ : Temps w}
    {s s' : w.State} {err : w.Error} (hv : eval τ value s = (.error err, s')) :
    runValue e.stmts c τ s = (.error err, s') := by
  rcases truthiness_eq_ok h with ⟨hn, rfl, rfl⟩ | ⟨hsimple, rfl, rfl⟩ | ⟨rfl, rfl⟩
  · exact hv
  · obtain ⟨a, ha⟩ := eval_of_isSimple hsimple τ s
    cases ha.symm.trans hv
  · simp only [runValue, Target.execAll_single, Target.exec_declareTemp, Run.bind_assoc]
    rw [Run.bind_apply, hv]

/-! ### How often a value is evaluated -/

/-- Each subterm is simple or mentions the temporary. -/
def About (i : Nat) (e : Expr) : Prop := ∀ x ∈ e.subterms, x.isSimple ∨ .temp i ∈ x.leaves

theorem About.of_isSimple {i : Nat} {e : Expr} (h : e.isSimple) : About i e := by
  intro x hx
  have hparts : e.parts = [] := by cases e <;> first | rfl | cases h
  simp only [Expr.subterms, hparts, List.nil_append, List.mem_singleton] at hx
  exact .inl (hx ▸ h)

theorem About.binary {i : Nat} {op : Target.BinaryOp} {a b : Expr} (ha : About i a)
    (hi : .temp i ∈ a.leaves) (hb : About i b) : About i (.binary op a b) := by
  intro x hx
  have hcases : x ∈ a.subterms ∨ x ∈ b.subterms ∨ x = .binary op a b := by
    simpa [Expr.subterms, or_assoc] using hx
  rcases hcases with hx | hx | rfl
  · exact ha x hx
  · exact hb x hx
  · exact .inr (List.mem_append_left _ hi)

/-- A test on a temporary is made of literals and of what mentions the temporary. -/
theorem about_truthTest (i : Nat) : About i (truthTest pool ty (.temp i)) := by
  have htemp : About i (.temp i) := .of_isSimple rfl
  have hzero : About i (.binary .ne (.temp i) (.number .zero)) :=
    htemp.binary (by simp) (.of_isSimple rfl)
  have hself : About i (.binary .eq (.temp i) (.temp i)) := htemp.binary (by simp) htemp
  have hempty : About i (.binary .ne (.temp i) (.string "")) :=
    htemp.binary (by simp) (.of_isSimple rfl)
  unfold truthTest
  rcases needsChecks pool ty with ⟨_ | _, _ | _⟩
  · exact htemp
  · exact hempty.binary (by simp) htemp
  · exact (hzero.binary (by simp) hself).binary (by simp) htemp
  · exact ((hzero.binary (by simp) hself).binary (by simp) hempty).binary (by simp) htemp

/-- Unless it is simple, the value stands in one place of the code. -/
theorem condition_once (h : truthiness pool ty span value n = (.ok c, e))
    (hvalue : ¬value.isSimple) (hfresh : .temp n ∉ value.leaves) :
    Once value (Stmt.subtermsAll e.stmts ++ c.subterms) := by
  rcases truthiness_eq_ok h with ⟨-, rfl, rfl⟩ | ⟨hsimple, -, -⟩ | ⟨rfl, rfl⟩
  · simpa using Once.subterms_append (List.not_mem_nil (a := c))
  · exact absurd hsimple hvalue
  · have hnot : value ∉ (truthTest pool ty (.temp n)).subterms := fun hm =>
      (about_truthTest n value hm).elim hvalue hfresh
    simpa [Stmt.declareTemp] using Once.subterms_append hnot

/-! ## Main results -/

/-- For every value there is the code of a condition.  From any state in which the value
evaluates to what its type admits, the statements and then the condition leave the state that the
value leaves, and the condition passes exactly if the value is true; an error of the value is
that of the code.  Unless it is simple (an identifier, a temporary, a literal or the inert
placeholder), the value, in which the next temporary is not yet found, stands in one place of the
code. -/
theorem truthiness_exact (pool : TypePool) (ty : TypeId) (span : Span) (value : Expr) (n : Nat) :
    ∃ c e, truthiness pool ty span value n = (.ok c, e) ∧
      (∀ (w : World) (τ : Temps w) (s s' : w.State) (a : w.Val),
        eval τ value s = (.ok a, s') → a.AdmittedBy pool ty →
          ∃ τ' s₁ b, execAll e.stmts τ s = (.ok τ', s₁) ∧ eval τ' c s₁ = (.ok b, s') ∧
            (b.holds ↔ a.truthy)) ∧
      (∀ (w : World) (τ : Temps w) (s s' : w.State) (err : w.Error),
        eval τ value s = (.error err, s') → runValue e.stmts c τ s = (.error err, s')) ∧
      (¬value.isSimple → .temp n ∉ value.leaves →
        Once value (Stmt.subtermsAll e.stmts ++ c.subterms)) := by
  have htotal : Total (truthiness pool ty span value) := total_truthiness value
  obtain ⟨c, e, h⟩ := htotal n
  refine ⟨c, e, h, fun w τ s s' a hv ha => ?_, fun w τ s s' err hv => condition_error h hv,
    condition_once h⟩
  obtain ⟨τ', s₁, b, hstmts, hc, hb⟩ := condition_run h hv ha
  exact ⟨τ', s₁, b, hstmts, hc, by rw [hb]⟩

/-- A world in which every call gives the same answer. -/
def answeringWorld (answer : Value Nat) : World where
  Ref := Nat
  Heap := Unit
  Error := Unit
  call _ _ s := (.ok answer, s)
  member _ _ _ := .error ()
  setMember _ _ _ s := (.error (), s)
  binary _ _ _ s := (.error (), s)
  unary _ _ s := (.error (), s)
  table _ s := (.error (), s)
  pack _ s := (.error (), s)
  stuck := ()

/-- A call that may give anything gives a NaN. -/
theorem truthiness_exact_calledNaN :
    let nan : Value Nat := .number ⟨0x7ff8000000000000⟩
    let f : Expr := .call (.ident "f") []
    let s : (answeringWorld nan).State := ⟨⟨fun _ => .nil, ()⟩, []⟩
    let s' : (answeringWorld nan).State := ⟨⟨fun _ => .nil, ()⟩, [(.nil, [])]⟩
    let τ : Temps (answeringWorld nan) := fun _ => .nil
    eval τ f s = (.ok nan, s') ∧ nan.AdmittedBy .fresh .unknown ∧ nan.truthy = false ∧
      ∃ c e, truthiness .fresh .unknown .dummy f 0 = (.ok c, e) ∧
        (∃ τ' s₁ b, execAll e.stmts τ s = (.ok τ', s₁) ∧ eval τ' c s₁ = (.ok b, s') ∧
          (b.holds ↔ nan.truthy)) ∧
        Once f (Stmt.subtermsAll e.stmts ++ c.subterms) := by
  intro nan f s s' τ
  have hv : eval τ f s = (.ok nan, s') := rfl
  have ha : nan.AdmittedBy .fresh .unknown :=
    (by decide : TypePool.fresh.isPossiblyA .unknown .number = true)
  obtain ⟨c, e, h, hrun, -, honce⟩ := truthiness_exact .fresh .unknown .dummy f 0
  exact ⟨hv, ha, by decide, c, e, h, hrun _ τ s s' nan hv ha, honce (by decide) (by decide)⟩

end ScriptLowering.Lower
