import ScriptLowering.Proofs.Numbering.Expressions
import ScriptLowering.Proofs.Preservation.Closed

/-!
# Runs of renumbered code

Code whose temporaries are counted up does what it did before.  So what an
expression is lowered to does the same from whichever id its temporaries count.

    eval τ (e.subst σ) = eval τ' e, where σ i holds τ' i                       (eval_subst)
    (v, ss) lowered from e at any id → runValue ss v τ = codeRun pool e        (runValue_code)
-/

namespace ScriptLowering

namespace Target

open Run (Agree)

variable {w : World} {k : Nat} {τ τ' : Temps w}

/-- The second holds what the first does, `k` further up. -/
def Temps.CountedUp (k : Nat) (τ τ' : Temps w) : Prop := ∀ i, τ' (i + k) = τ i

def Location.shift (k : Nat) : Location w → Location w
  | temp id => temp (id + k)
  | l => l

/-! ### Expressions -/

mutual

theorem eval_subst {σ : Nat → Expr} (h : ∀ i, eval τ' (σ i) = pure (τ i)) :
    ∀ e : Expr, eval τ' (e.subst σ) = eval τ e
  | .temp id => h id
  | .placeholder | .nil | .ident _ | .bool _ | .number _ | .string _ => rfl
  | .binary _ a b | .index a b => by
    simp only [Expr.subst, eval, eval_subst h a, eval_subst h b]
  | .unary _ a | .paren a | .property a _ | .pack a => by
    simp only [Expr.subst, eval, eval_subst h a]
  | .call f xs | .method f _ xs => by
    simp only [Expr.subst, eval, eval_subst h f, evalList_subst h xs]
  | .table fs => by simp only [Expr.subst, eval, evalFields_subst h fs]
termination_by structural e => e

theorem evalList_subst {σ : Nat → Expr} (h : ∀ i, eval τ' (σ i) = pure (τ i)) :
    ∀ es : List Expr, evalList τ' (Expr.substList σ es) = evalList τ es
  | [] => rfl
  | e :: es => by simp only [Expr.substList, evalList, eval_subst h e, evalList_subst h es]
termination_by structural es => es

theorem evalField_subst {σ : Nat → Expr} (h : ∀ i, eval τ' (σ i) = pure (τ i)) :
    ∀ f : Field, evalField τ' (f.subst σ) = evalField τ f
  | .positional e | .named _ e => by simp only [Field.subst, evalField, eval_subst h e]
termination_by structural f => f

theorem evalFields_subst {σ : Nat → Expr} (h : ∀ i, eval τ' (σ i) = pure (τ i)) :
    ∀ fs : List Field, evalFields τ' (Field.substList σ fs) = evalFields τ fs
  | [] => rfl
  | f :: fs => by simp only [Field.substList, evalFields, evalField_subst h f, evalFields_subst h fs]
termination_by structural fs => fs

end

theorem eval_shift (h : Temps.CountedUp k τ τ') (e : Expr) : eval τ' (e.shift k) = eval τ e :=
  eval_subst (fun i => congrArg pure (h i)) e

/-! ### Statements -/

theorem Temps.CountedUp.set (h : CountedUp k τ τ') (id : Nat) (v : w.Val) :
    CountedUp k (τ.set id v) (τ'.set (id + k) v) := by
  intro i
  by_cases hi : i = id
  · rw [hi, set_self, set_self]
  · rw [set_of_ne τ hi, set_of_ne τ' (by omega)]
    exact h i

theorem locate_shift (h : Temps.CountedUp k τ τ') (t : Expr) :
    Agree (fun l l' => l' = l.shift k) (locate τ t) (locate τ' (t.shift k)) := by
  cases t with
  | ident name | temp id => exact .pure rfl
  | property a name =>
    rw [Expr.shift_property, locate, locate, eval_shift h]
    exact .after fun _ => .pure rfl
  | index a b =>
    rw [Expr.shift_index, locate, locate, eval_shift h, eval_shift h]
    exact .after fun _ => .after fun _ => .pure rfl
  | _ => exact fun _ => .error

theorem Location.read_shift (h : Temps.CountedUp k τ τ') (l : Location w) :
    (l.shift k).read τ' = l.read τ := by
  cases l with
  | temp id => exact congrArg pure (h id)
  | _ => rfl

theorem Location.write_shift (h : Temps.CountedUp k τ τ') (l : Location w) (v : w.Val) :
    Agree (Temps.CountedUp k) (l.write τ v) ((l.shift k).write τ' v) := by
  cases l with
  | temp id => exact .pure (h.set id v)
  | _ => exact .after fun _ => .pure h

theorem Binding.bind_shift (h : Temps.CountedUp k τ τ') (b : Binding) (v : w.Val) :
    Agree (Temps.CountedUp k) (b.bind τ v) ((b.shift k).bind τ' v) := by
  cases b with
  | name x => exact .after fun _ => .pure h
  | temp id => exact .pure (h.set id v)
  | discard => exact .pure h

mutual

theorem exec_shift {τ τ' : Temps w} (h : Temps.CountedUp k τ τ') :
    ∀ st : Stmt, Agree (Temps.CountedUp k) (exec st τ) (exec (st.shift k) τ')
  | .call e => by
    rw [Stmt.shift, exec, exec, eval_shift h]
    exact .after fun _ => .pure h
  | .assign t v => by
    rw [Stmt.shift, exec, exec, eval_shift h]
    refine (locate_shift h t).bind ?_
    rintro l _ rfl
    exact .after fun x => Location.write_shift h l x
  | .compound op t v => by
    rw [Stmt.shift, exec, exec, eval_shift h]
    refine (locate_shift h t).bind ?_
    rintro l _ rfl
    rw [Location.read_shift h]
    exact .after fun _ => .after fun _ => .after fun x => Location.write_shift h l x
  | .declare b none => Binding.bind_shift h b .nil
  | .declare b (some v) => by
    rw [Stmt.shift, Option.map_some, exec, exec, eval_shift h]
    exact .after fun x => Binding.bind_shift h b x
  | .ifThen c body => by
    rw [Stmt.shift, exec, exec, eval_shift h]
    refine .after fun x => ?_
    split
    · exact execAll_shift h body
    · exact .pure h
termination_by structural st => st

theorem execAll_shift {τ τ' : Temps w} (h : Temps.CountedUp k τ τ') :
    ∀ ss : List Stmt, Agree (Temps.CountedUp k) (execAll ss τ) (execAll (Stmt.shiftAll k ss) τ')
  | [] => .pure h
  | st :: ss => by
    rw [Stmt.shiftAll, execAll, execAll]
    exact (exec_shift h st).bind fun _ _ h => execAll_shift h ss
termination_by structural ss => ss

end

end Target

namespace Lower

open Target (Expr Stmt Temps)
open Target.Stmt (Scoped declared)

variable {w : World} {pool : TypePool} {n : Nat}

/-- What the code of an expression does, by itself. -/
def codeRun (pool : TypePool) (e : Source.Expr) : w.Run w.Val :=
  match expression pool e 0 with
  | (.ok (v, ss), _) => runValue ss v fun _ => .nil
  | _ => Run.raise w.stuck

theorem runValue_shift {k : Nat} {τ τ' : Temps w} (h : Temps.CountedUp k τ τ') (ss : List Stmt)
    (v : Expr) : runValue (ss.map (Stmt.shift k)) (v.shift k) τ' = runValue ss v τ := by
  rw [← Stmt.shiftAll_eq_map]
  refine (Run.Agree.eq ((Target.execAll_shift h ss).bind fun τ₁ τ₂ h => ?_)).symm
  rw [Target.eval_shift h]
  exact .refl _

/-- The code of an expression needs nothing from outside. -/
theorem runValue_expression {e : Source.Expr} {v : Expr} {ss : List Stmt} {eff : Effects}
    (h : expression pool e n = (.ok (v, ss), eff)) (τ τ' : Temps w) :
    runValue ss v τ = runValue ss v τ' := by
  obtain ⟨e₁, hv, rfl, -⟩ := capture_eq_ok.1 h
  obtain ⟨k, q⟩ := tidy_value pool e [] hv
  have hreads : v.ReadsIn (declared e₁.stmts ++ []) := q _ (by simp) (by simp)
  exact runValue_closed k.inScope (by simpa using hreads) τ τ'

/-- The code of an expression does the same from whichever id its temporaries count. -/
theorem runValue_code {e : Source.Expr} {v : Expr} {ss : List Stmt} {eff : Effects}
    (h : expression pool e n = (.ok (v, ss), eff)) (τ : Temps w) :
    runValue ss v τ = codeRun pool e := by
  have hshift := (shifted_node n pool e).value.capture 0
  rw [Nat.zero_add] at hshift
  have hfirst := h.symm.trans hshift
  unfold codeRun expression
  rcases hcode : (value pool e).capture 0 with ⟨r, eff₀⟩
  rw [hcode] at hfirst
  cases r with
  | error s => cases hfirst
  | ok p =>
    obtain ⟨v₀, ss₀⟩ := p
    cases hfirst
    have hup : Temps.CountedUp n (fun i => τ (i + n)) τ := fun _ => rfl
    exact (runValue_shift hup ss₀ v₀).trans (runValue_expression hcode _ _)

end Lower

end ScriptLowering
