import Mathlib.Data.List.Forall2
import ScriptLowering.Proofs.Semantics.Target
import ScriptLowering.Proofs.Temporaries.Operations

/-!
# Operands run in order

A lowered operand *runs as* a meaning when its statements followed by its value
do what the meaning does.  Settled operands do what the meanings do one after
the other: a value that stands before the statements of others is bound, or
nothing that they do can change it.

    each operand runs as its meaning → inOrder runs as all meanings in a row     (inOrder_runs)
-/

namespace ScriptLowering.Lower

open Run (After)
open Target (Expr Stmt Temps eval evalList execAll)
open Target.Stmt (Scoped declared declaredWithin)

variable {w : World}

/-- What an expression should do, and the states in which it is asked to. -/
structure Meaning (w : World) where
  run : w.Run w.Val
  pre : w.State → Prop

/-- The statements and then the value. -/
def runValue (ss : List Stmt) (v : Expr) (τ : Temps w) : w.Run w.Val :=
  execAll ss τ >>= fun τ => eval τ v

def Runs (x : Lower Expr) (m : Meaning w) : Prop :=
  ∀ ⦃n v e⦄, x n = (.ok v, e) → ∀ τ s, m.pre s → runValue e.stmts v τ s = m.run s

def Captured.Runs (c : Captured) (m : Meaning w) : Prop :=
  ∀ τ s, m.pre s → runValue c.stmts c.value τ s = m.run s

/-- All meanings, one after the other. -/
def Meaning.all : List (Meaning w) → w.Run (List w.Val)
  | [] => pure []
  | m :: ms => do
    let x ← m.run
    let xs ← Meaning.all ms
    return x :: xs

/-- Each meaning is asked for in a state where it may be. -/
def Meaning.Along : List (Meaning w) → w.State → Prop
  | [], _ => True
  | m :: ms, s => m.pre s ∧ After m.run s fun _ s => Meaning.Along ms s

/-- Statements set apart that share no temporary, all of them below `n`. -/
structure Apart (cs : List Captured) (n : Nat) : Prop where
  inScope : ∀ c ∈ cs, CapturedIn (fun _ => True) [] c
  nodup : (cs.flatMap (declaredWithin ·.stmts)).Nodup
  below : ∀ i ∈ cs.flatMap (declaredWithin ·.stmts), i < n

/-! ## Lemmas -/

/-- What a stable expression reads is fixed with the temporaries. -/
theorem eval_of_isStable {e : Expr} (h : e.isStable) :
    ∃ f : Temps w → w.Val, ∀ τ, eval τ e = pure (f τ) := by
  fun_induction Expr.isStable e with
  | case1 inner ih => exact ih h
  | case2 id => exact ⟨fun τ => τ id, fun _ => rfl⟩
  | case3 => exact ⟨fun _ => .nil, fun _ => rfl⟩
  | case4 e =>
    cases e with
    | nil => exact ⟨fun _ => .nil, fun _ => rfl⟩
    | bool b => exact ⟨fun _ => .bool b, fun _ => rfl⟩
    | number n => exact ⟨fun _ => .number n, fun _ => rfl⟩
    | string s => exact ⟨fun _ => .string s, fun _ => rfl⟩
    | _ => cases h

/-- A simple expression is read without a change. -/
theorem eval_of_isSimple {e : Expr} (h : e.isSimple) (τ : Temps w) (s : w.State) :
    ∃ a, eval τ e s = (.ok a, s) := by
  cases e <;> first | exact ⟨_, rfl⟩ | cases h

theorem CapturedIn.declaredWithin_of_value {c : Captured} {writable : Expr → Prop}
    (h : CapturedIn writable [] c) {i : Nat} (hi : .temp i ∈ c.value.leaves) :
    i ∈ declaredWithin c.stmts := by
  have := h.reads i hi
  rw [List.append_nil] at this
  exact Stmt.declared_subset_within _ i this

theorem Apart.tail {c : Captured} {cs : List Captured} {n : Nat} (h : Apart (c :: cs) n) :
    Apart cs n where
  inScope d hd := h.inScope d (List.mem_cons_of_mem _ hd)
  nodup := (List.nodup_append.1 h.nodup).2.1
  below i hi := h.below i (List.mem_append_right _ hi)

theorem Apart.mono {cs : List Captured} {n m : Nat} (h : Apart cs n) (hnm : n ≤ m) : Apart cs m :=
  ⟨h.inScope, h.nodup, fun i hi => Nat.lt_of_lt_of_le (h.below i hi) hnm⟩

/-- The temporaries of the first are not those of the others. -/
theorem Apart.not_mem_tail {c : Captured} {cs : List Captured} {n : Nat} (h : Apart (c :: cs) n)
    {i : Nat} (hi : i ∈ declaredWithin c.stmts) : i ∉ cs.flatMap (declaredWithin ·.stmts) :=
  fun hm => (List.nodup_append.1 h.nodup).2.2 i hi i hm rfl

/-- What is settled mentions its own temporaries and those it allocates. -/
theorem Apart.not_mem_settleAll {cs : List Captured} {n : Nat} (h : Apart cs n) {vs : List Expr}
    {e : Effects} (hok : settleAll cs n = (.ok vs, e)) {i : Nat} (hlt : i < n)
    (hi : i ∉ cs.flatMap (declaredWithin ·.stmts)) : .temp i ∉ Stmt.leavesAll e.stmts := by
  obtain ⟨hs, -, hp⟩ := keeps_settleAll h.inScope hok
  intro hm
  have := (hs.mem_of_temp i hm).resolve_left (by simp)
  rcases List.mem_append.1 (hp.mem_iff.1 this) with hc | hr
  · exact hi hc
  · simp only [List.mem_range'_1] at hr
    omega

/-- One operand and those after it. -/
theorem runValue_cons {c : Captured} {m : Meaning w} {ms : List (Meaning w)} (hc : c.Runs m)
    {R : Temps w → w.Val → w.Run (List w.Val)} {τ : Temps w} {s : w.State}
    (hpre : Meaning.Along (m :: ms) s)
    (hR : ∀ τ a s, Meaning.Along ms s → R τ a s = (Meaning.all ms >>= fun xs => pure (a :: xs)) s) :
    (execAll c.stmts τ >>= fun τ => eval τ c.value >>= R τ) s = Meaning.all (m :: ms) s :=
  Run.bind_through (hc τ s hpre.1) fun τ' a s' hs => hR τ' a s' (hpre.2 a s' hs)

theorem settleAll_runs {cs : List Captured} {ms : List (Meaning w)}
    (hc : List.Forall₂ Captured.Runs cs ms) {n : Nat} (ha : Apart cs n) {vs : List Expr}
    {e : Effects} (h : settleAll cs n = (.ok vs, e)) (τ : Temps w) (s : w.State)
    (hs : Meaning.Along ms s) :
    (execAll e.stmts τ >>= fun τ => evalList τ vs) s = Meaning.all ms s := by
  induction hc generalizing n vs e τ s with
  | nil =>
    cases h
    rfl
  | @cons c m later ms hcm hrest ih =>
    obtain ⟨v, e₁, vs', e₂, hv, hvs, rfl, rfl⟩ := settleAll_cons_eq_ok.1 h
    have hown := fun i => (ha.inScope c List.mem_cons_self).declaredWithin_of_value (i := i)
    have rest (n' : Nat) (hn : n ≤ n') (hvs : settleAll later n' = (.ok vs', e₂)) (a : w.Val)
        (τ : Temps w) (s : w.State) (hs : Meaning.Along ms s) :
        (execAll e₂.stmts τ >>= fun τ => evalList τ vs' >>= fun xs => pure (a :: xs)) s =
          (Meaning.all ms >>= fun xs => pure (a :: xs)) s := by
      rw [← Run.bind_assoc]
      exact Run.bind_congr (ih (ha.tail.mono hn) hvs τ s hs) fun _ _ _ => rfl
    rw [Effects.stmts_append, Target.execAll_append, Run.bind_assoc]
    rcases settle_eq_ok hv with ⟨hstays, rfl, rfl⟩ | ⟨-, rfl, rfl⟩
    · simp only [Effects.temps_ofStmts, Effects.stmts_ofStmts, List.length_nil, Nat.add_zero,
        evalList] at hvs ⊢
      rcases hstays with hnil | hstable
      · -- nothing runs after the value is read
        have h₂ : e₂.stmts = [] := stmts_settleAll_of_no_stmts hnil hvs
        simp only [h₂, execAll, Run.pure_bind] at rest ⊢
        exact runValue_cons hcm hs fun τ a s hs => rest n (Nat.le_refl n) hvs a τ s hs
      · -- what runs later cannot change the value
        obtain ⟨f, hf⟩ := eval_of_isStable (w := w) hstable
        have hsame (τ' : Temps w) (s' : w.State) :
            (execAll e₂.stmts τ' >>= fun τ => eval τ c.value >>= fun x => evalList τ vs' >>=
              fun xs => pure (x :: xs)) s' =
            (eval τ' c.value >>= fun x => execAll e₂.stmts τ' >>= fun τ => evalList τ vs' >>=
              fun xs => pure (x :: xs)) s' := by
          rw [hf τ', Run.pure_bind]
          refine Run.bind_congr_right fun τ₂ s₂ h₂ => ?_
          have hagree : τ₂.AgreeOn τ' c.value.leaves := fun i hi =>
            Target.execAll_frame _ (ha.tail.not_mem_settleAll hvs
              (ha.below i (List.mem_append_left _ (hown i hi))) (ha.not_mem_tail (hown i hi))) h₂
          rw [Target.eval_congr _ hagree, hf τ', Run.pure_bind]
        rw [Run.bind_congr_right fun τ' s' _ => hsame τ' s']
        exact runValue_cons hcm hs fun τ a s hs => rest n (Nat.le_refl n) hvs a τ s hs
    · -- the value is bound
      simp only [List.length_singleton] at hvs
      simp only [Target.execAll_append, Target.execAll_single, Target.exec_declareTemp, Run.bind_assoc,
        Run.pure_bind, evalList, eval]
      have hn : n ∉ later.flatMap (declaredWithin ·.stmts) := fun hm =>
        Nat.lt_irrefl n (ha.tail.below n hm)
      refine runValue_cons hcm hs fun τ a s hs => ?_
      rw [← rest (n + 1) (Nat.le_succ n) hvs a (τ.set n a) s hs]
      refine Run.bind_congr_right fun τ₂ s₂ h₂ => ?_
      rw [Target.execAll_frame _ ((ha.tail.mono (Nat.le_succ n)).not_mem_settleAll hvs
        (Nat.lt_succ_self n) hn) h₂, Temps.set_self]

theorem captureAll_runs {xs : List Operand} {ms : List (Meaning w)}
    (hx : List.Forall₂ (fun x m => Runs x.lower m) xs ms) {n : Nat} {cs : List Captured}
    {e : Effects} (h : captureAll xs n = (.ok cs, e)) : List.Forall₂ Captured.Runs cs ms := by
  induction hx generalizing n cs e with
  | nil =>
    cases h
    exact .nil
  | cons hxm _ ih =>
    obtain ⟨v, e₁, cs', e₂, hv, hcs, rfl, rfl⟩ := captureAll_cons_eq_ok.1 h
    exact .cons (hxm hv) (ih hcs)

/-- Operands that are captured are set apart, and nothing of them is emitted. -/
theorem apart_captureAll {xs : List Operand}
    (ht : ∀ x ∈ xs, Tidy (fun _ => True) [] x.lower Expr.ReadsIn) {n : Nat} {cs : List Captured}
    {e : Effects} (h : captureAll xs n = (.ok cs, e)) :
    e.stmts = [] ∧ Apart cs (n + e.temps.length) := by
  obtain ⟨hnil, hin, hp⟩ := keeps_captureAll ht h
  refine ⟨hnil, hin, hp.nodup_iff.2 (List.nodup_range' ..), fun i hi => ?_⟩
  have := hp.mem_iff.1 hi
  simp only [List.mem_range'_1] at this
  exact this.2

/-- Operands in order run as their meanings in a row. -/
theorem inOrder_runs {xs : List Operand} {ms : List (Meaning w)}
    (ht : ∀ x ∈ xs, Tidy (fun _ => True) [] x.lower Expr.ReadsIn)
    (hx : List.Forall₂ (fun x m => Runs x.lower m) xs ms) {n : Nat} {vs : List Expr} {e : Effects}
    (h : inOrder xs n = (.ok vs, e)) (τ : Temps w) (s : w.State) (hs : Meaning.Along ms s) :
    (execAll e.stmts τ >>= fun τ => evalList τ vs) s = Meaning.all ms s := by
  obtain ⟨cs, e₁, e₂, hcs, hvs, rfl⟩ := bind_eq_ok.1 h
  obtain ⟨hnil, hapart⟩ := apart_captureAll ht hcs
  rw [Effects.stmts_append, hnil, List.nil_append]
  exact settleAll_runs (captureAll_runs hx hcs) hapart hvs τ s hs

/-- Two operands, and what is done with their values. -/
theorem inOrderPair_runs {x y : Operand} {l r : Meaning w}
    (htx : Tidy (fun _ => True) [] x.lower Expr.ReadsIn)
    (hty : Tidy (fun _ => True) [] y.lower Expr.ReadsIn) (hx : Runs x.lower l)
    (hy : Runs y.lower r) {n : Nat} {p : Expr × Expr} {e : Effects}
    (h : inOrderPair x y n = (.ok p, e)) (τ : Temps w) {s : w.State} (hl : l.pre s)
    (hr : After l.run s fun _ s => r.pre s) (f : w.Val → w.Val → w.Run w.Val) :
    (execAll e.stmts τ >>= fun τ => eval τ p.1 >>= fun a => eval τ p.2 >>= fun b => f a b) s =
      (l.run >>= fun a => r.run >>= fun b => f a b) s := by
  have hs : Meaning.Along [l, r] s := ⟨hl, fun a s' ha => ⟨hr a s' ha, fun _ _ _ => trivial⟩⟩
  have := inOrder_runs (by simpa using ⟨htx, hty⟩) (.cons hx (.cons hy .nil))
    (inOrderPair_eq_ok h) τ s hs
  have both := Run.bind_congr (f := fun vs => f (vs.headD .nil) (vs.getLastD .nil)) this
    fun _ _ _ => rfl
  simpa [evalList, Meaning.all, Run.bind_assoc, Run.pure_bind] using both

end ScriptLowering.Lower
