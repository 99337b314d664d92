import ScriptLowering.Proofs.Preservation.Compound

/-!
# Runs of closed code

Scoped statements with no temporary visible before them read none but their own,
so they do the same whatever temporaries hold when they begin.

    x and y agree, f and g agree on what they answer → x >>= f and y >>= g agree    (bind)
    Scoped [] ss → ss runs alike from all temporaries                               (Scoped.agree)
-/

namespace ScriptLowering

namespace Run

variable {w : World} {α β γ δ : Type}

/-- The same state, and related results or the same error. -/
inductive Alike (R : α → β → Prop) :
    Except w.Error α × w.State → Except w.Error β × w.State → Prop
  | ok {a : α} {b : β} {s : w.State} (h : R a b) : Alike R (.ok a, s) (.ok b, s)
  | error {e : w.Error} {s : w.State} : Alike R (.error e, s) (.error e, s)

/-- From every state both end alike. -/
def Agree (R : α → β → Prop) (x : w.Run α) (y : w.Run β) : Prop := ∀ s, Alike R (x s) (y s)

namespace Agree

variable {R : α → β → Prop} {Q : γ → δ → Prop}

theorem pure {a : α} {b : β} (h : R a b) : Agree R (pure a : w.Run α) (pure b) :=
  fun _ => .ok h

theorem bind {x : w.Run α} {y : w.Run β} {f : α → w.Run γ} {g : β → w.Run δ} (h : Agree R x y)
    (hf : ∀ a b, R a b → Agree Q (f a) (g b)) : Agree Q (x >>= f) (y >>= g) := by
  intro s
  have hs := h s
  rw [bind_apply, bind_apply]
  generalize x s = p at hs
  generalize y s = q at hs
  cases hs with
  | ok hab => exact hf _ _ hab _
  | error => exact .error

theorem refl (x : w.Run α) : Agree (· = ·) x x := by
  intro s
  rcases x s with ⟨_ | a, s₁⟩
  · exact .error
  · exact .ok rfl

/-- Going on from one run. -/
theorem after {x : w.Run α} {f : α → w.Run γ} {g : α → w.Run δ} (hf : ∀ a, Agree Q (f a) (g a)) :
    Agree Q (x >>= f) (x >>= g) := by
  apply (refl x).bind
  rintro a _ rfl
  exact hf a

theorem imp {R' : α → β → Prop} {x : w.Run α} {y : w.Run β} (h : Agree R x y)
    (hR : ∀ a b, R a b → R' a b) : Agree R' x y := by
  intro s
  have hs := h s
  generalize x s = p at hs
  generalize y s = q at hs
  cases hs with
  | ok hab => exact .ok (hR _ _ hab)
  | error => exact .error

/-- Runs that agree on equal results are equal. -/
theorem eq {x y : w.Run α} (h : Agree (· = ·) x y) : x = y := by
  funext s
  have hs := h s
  generalize x s = p at hs
  generalize y s = q at hs
  cases hs with
  | ok hab => rw [hab]
  | error => rfl

end Agree

end Run

namespace Target

open Run (Agree)
open Lower (locate_congr)

variable {w : World} {V : List Nat} {τ τ' : Temps w}

/-- Both give the same values to these temporaries. -/
def Temps.SameOn (V : List Nat) (τ τ' : Temps w) : Prop := ∀ i ∈ V, τ i = τ' i

theorem Temps.SameOn.agreeOn {e : Expr} (h : Temps.SameOn V τ τ') (he : e.ReadsIn V) :
    τ.AgreeOn τ' e.leaves := fun i hi => h i (he i hi)

theorem Temps.SameOn.set (h : Temps.SameOn V τ τ') (id : Nat) (v : w.Val) :
    Temps.SameOn (id :: V) (τ.set id v) (τ'.set id v) := by
  intro i hi
  by_cases hid : i = id
  · rw [hid, Temps.set_self, Temps.set_self]
  · rw [Temps.set_of_ne τ hid, Temps.set_of_ne τ' hid]
    exact h i ((List.mem_cons.1 hi).resolve_left hid)

theorem Temps.SameOn.mono {W : List Nat} (h : Temps.SameOn W τ τ') (hVW : ∀ i ∈ V, i ∈ W) :
    Temps.SameOn V τ τ' := fun i hi => h i (hVW i hi)

theorem Temps.SameOn.tail {id : Nat} (h : Temps.SameOn (id :: V) τ τ') : Temps.SameOn V τ τ' :=
  fun i hi => h i (List.mem_cons_of_mem _ hi)

/-- A place is the same location, and a temporary only if it is visible. -/
theorem locate_agree {t : Expr} (h : Temps.SameOn V τ τ') (ht : t.ReadsIn V) :
    Agree (fun l l' => l = l' ∧ ∀ i, l = .temp i → i ∈ V) (locate τ t) (locate τ' t) := by
  rw [← locate_congr (h.agreeOn ht)]
  intro s
  rcases hl : locate τ t s with ⟨_ | l, s'⟩
  · exact .error
  · refine .ok ⟨rfl, fun i hi => ?_⟩
    by_contra hV
    exact locate_ne_temp (fun hm => hV (ht i hm)) hl hi

theorem Location.read_of_sameOn (h : Temps.SameOn V τ τ') {l : Location w}
    (hl : ∀ i, l = .temp i → i ∈ V) : l.read τ = l.read τ' := by
  cases l with
  | temp id => exact congrArg pure (h id (hl id rfl))
  | _ => rfl

theorem Location.write_agree (h : Temps.SameOn V τ τ') (l : Location w) (v : w.Val) :
    Agree (Temps.SameOn V) (l.write τ v) (l.write τ' v) := by
  cases l with
  | var name | member object key =>
    apply Agree.after
    intro _
    exact .pure h
  | temp id => exact .pure (h.set id v).tail

theorem Binding.bind_agree (h : Temps.SameOn V τ τ') (b : Binding) (v : w.Val) :
    Agree (Temps.SameOn (b.temps ++ V)) (b.bind τ v) (b.bind τ' v) := by
  cases b with
  | name x =>
    apply Agree.after
    intro _
    exact .pure h
  | temp id => exact .pure (h.set id v)
  | discard => exact .pure h

/-- A statement that declares nothing, and those after it. -/
theorem agree_cons {st : Stmt} {rest : List Stmt} {U : List Nat} {R : Temps w → Temps w → Prop}
    (hst : Agree (Temps.SameOn U) (exec st τ) (exec st τ'))
    (hrest : ∀ {τ τ' : Temps w}, Temps.SameOn U τ τ' → Agree R (execAll rest τ) (execAll rest τ')) :
    Agree R (execAll (st :: rest) τ) (execAll (st :: rest) τ') :=
  Agree.bind hst fun _ _ h => hrest h

/-- Scoped statements depend on the temporaries visible before them alone. -/
theorem Stmt.Scoped.agree {writable : Expr → Prop} {ss : List Stmt} (h : Scoped writable V ss)
    {τ τ' : Temps w} (hτ : Temps.SameOn V τ τ') :
    Agree (Temps.SameOn (declared ss ++ V)) (execAll ss τ) (execAll ss τ') := by
  induction h generalizing τ τ' with
  | nil => exact .pure hτ
  | call he _ ih =>
    refine agree_cons ?_ ih
    rw [exec, exec, eval_congr _ (hτ.agreeOn he)]
    apply Agree.after
    intro _
    exact .pure hτ
  | assign ht _ hv _ ih =>
    refine agree_cons ?_ ih
    rw [exec, exec, eval_congr _ (hτ.agreeOn hv)]
    apply (locate_agree hτ ht).bind
    rintro l _ ⟨rfl, -⟩
    apply Agree.after
    intro v
    exact Location.write_agree hτ l v
  | compound ht _ hv _ ih =>
    refine agree_cons ?_ ih
    rw [exec, exec, eval_congr _ (hτ.agreeOn hv)]
    apply (locate_agree hτ ht).bind
    rintro l _ ⟨rfl, hl⟩
    rw [Location.read_of_sameOn hτ hl]
    apply Agree.after
    intro old
    apply Agree.after
    intro x
    apply Agree.after
    intro new
    exact Location.write_agree hτ l new
  | @declare V b value rest hv _ ih =>
    have hrest : ∀ i ∈ declared (.declare b value :: rest) ++ V,
        i ∈ declared rest ++ (b.temps ++ V) := by
      simp only [declared_cons, declares, List.mem_append]
      tauto
    refine (agree_cons ?_ ih).imp fun a c h => h.mono hrest
    cases value with
    | none => exact Binding.bind_agree hτ b .nil
    | some v =>
      rw [exec, exec, eval_congr _ (hτ.agreeOn (hv v rfl))]
      apply Agree.after
      intro x
      exact Binding.bind_agree hτ b x
  | @block V id value condition last body rest hv hc _ hl _ ihb ihr =>
    have hrest : ∀ i ∈ declared (.declareTemp id value ::
        .ifThen condition (body ++ [.assign (.temp id) last]) :: rest) ++ V,
        i ∈ declared rest ++ (id :: V) := by
      simp only [declared_cons, declareTemp, declares, Binding.temps, List.mem_append,
        List.mem_cons, List.not_mem_nil]
      tauto
    have hdeclare : Agree (Temps.SameOn (id :: V)) (exec (.declareTemp id value) τ)
        (exec (.declareTemp id value) τ') := by
      rw [exec_declareTemp, exec_declareTemp, eval_congr _ (hτ.agreeOn hv)]
      apply Agree.after
      intro x
      exact .pure (hτ.set id x)
    have hwrite {τ τ' : Temps w} (hin : Temps.SameOn (declared body ++ id :: V) τ τ') :
        Agree (Temps.SameOn (id :: V)) (exec (.assign (.temp id) last) τ)
          (exec (.assign (.temp id) last) τ') := by
      rw [exec, exec, eval_congr _ (hin.agreeOn hl)]
      apply Agree.after
      intro l
      apply Agree.after
      intro x
      exact Location.write_agree (hin.mono fun i hi => List.mem_append_right _ hi) l x
    have hif {τ τ' : Temps w} (hid : Temps.SameOn (id :: V) τ τ') :
        Agree (Temps.SameOn (id :: V)) (exec (.ifThen condition (body ++ [.assign (.temp id) last])) τ)
          (exec (.ifThen condition (body ++ [.assign (.temp id) last])) τ') := by
      rw [exec, exec, eval_congr _ (hid.agreeOn hc)]
      apply Agree.after
      intro x
      split
      · rw [execAll_append, execAll_append]
        apply (ihb hid).bind
        intro a c hac
        rw [execAll_single, execAll_single]
        exact hwrite hac
      · exact .pure hid
    refine Agree.imp ?_ fun a c h => Temps.SameOn.mono h hrest
    exact agree_cons hdeclare fun hid => agree_cons (hif hid) ihr

end Target

namespace Lower

open Target (Expr Stmt Temps)
open Target.Stmt (Scoped declared)

variable {w : World}

/-- A value that reads only what its own statements declare. -/
theorem runValue_closed {ss : List Stmt} {v : Expr} {writable : Expr → Prop}
    (hs : Scoped writable [] ss) (hv : v.ReadsIn (declared ss)) (τ τ' : Temps w) :
    runValue ss v τ = runValue ss v τ' := by
  have hstart : Temps.SameOn [] τ τ' := List.forall_mem_nil _
  apply Run.Agree.eq
  apply (hs.agree hstart).bind
  intro a c hac
  have heval : Target.eval a v = Target.eval c v :=
    Target.eval_congr v (Temps.SameOn.agreeOn hac (by rwa [List.append_nil]))
  rw [heval]
  exact .refl _

end Lower

end ScriptLowering
