import ScriptLowering.Proofs.Preservation.Compound

/-!
# Parts of assignments

Binding the parts of a place never stops, so an assignment stops only where its
target or its value does, whether or not it is read afterwards.

    a part is kept as it is, or bound to the next temporary        (pinPart_eq_ok)
    target and value have results → targetAndValue has one         (targetAndValue_parts)
    x = e as a value: what addresses and evaluates, then the write  (expression_assignment)
-/

namespace ScriptLowering.Lower

open Target (Expr Stmt)
open Target.Stmt (declared)

variable {pool : TypePool} {n : Nat}

/-! ## Algorithm -/

/-- The value that an assignment writes. -/
def assignedValue (pool : TypePool) (op : Source.BinaryOp) (targetTy valueTy : TypeId)
    (t : WritableTarget) (v : Expr) : Expr :=
  match op with
  | .assignWith op => arithmetic pool op ⟨t.readable, targetTy⟩ ⟨v, valueTy⟩
  | _ => v

/-! ## Lemmas -/

/-! ### Captured statements -/

section

variable {α β : Type} {x : Lower α}

theorem capture_of_error {s : Stop} {e : Effects} (h : x n = (.error s, e)) :
    x.capture n = (.error s, e.withoutStmts) := by
  rw [capture, h]

theorem map_of_error {s : Stop} {e : Effects} (h : x n = (.error s, e)) (f : α → β) :
    (f <$> x) n = (.error s, e) := by
  rw [map_eq_pure_bind]
  exact bind_of_error h _

theorem map_capture_of_ok {a : α} {e : Effects} (h : x n = (.ok a, e)) (f : α × List Stmt → β) :
    (f <$> x.capture) n = (.ok (f (a, e.stmts)), e.withoutStmts) :=
  map_eq_ok.2 ⟨_, capture_of_ok h, rfl⟩

theorem capture_map (f : α → β) :
    (f <$> x).capture = (fun p => (f p.1, p.2)) <$> x.capture := by
  funext n
  rcases hx : x n with ⟨_ | a, e⟩
  · rw [capture_of_error (map_of_error hx f), map_of_error (capture_of_error hx)]
  · rw [capture_of_ok (map_eq_ok.2 ⟨a, hx, rfl⟩), map_capture_of_ok hx]

/-- A statement that is emitted last is the last one captured. -/
theorem capture_emit (s : α → Stmt) (f : α → β) :
    (x >>= fun a => emit (s a) >>= fun _ => pure (f a)).capture =
      (fun p => (f p.1, p.2 ++ [s p.1])) <$> x.capture := by
  funext n
  rcases hx : x n with ⟨_ | a, e⟩
  · rw [capture_of_error (bind_of_error hx _), map_of_error (capture_of_error hx)]
  · have hemit : (x >>= fun a => emit (s a) >>= fun _ => pure (f a)) n =
        (.ok (f a), e ++ .ofStmts [s a]) :=
      (bind_of_ok hx _).trans (Prod.ext rfl (congrArg (e ++ ·) (Effects.append_none _)))
    rw [capture_of_ok hemit, map_capture_of_ok hx]
    exact Prod.ext rfl (Effects.append_none e.withoutStmts)

/-- What a captured action is made into, if it has a result. -/
theorem fst_map_capture (x : Lower α) (f : α × List Stmt → β) (n : Nat) :
    ((f <$> x.capture) n).1 = (x n).1.map fun a => f (a, (x n).2.stmts) := by
  rcases hx : x n with ⟨_ | a, e⟩
  · rw [map_of_error (capture_of_error hx)]
    rfl
  · rw [map_capture_of_ok hx]
    rfl

end

/-! ### Binding parts -/

theorem pinPart_eq_ok {pin : Pin} {hint : String} {span : Span} {e u : Expr} {eff : Effects}
    (h : pinPart pin hint span e n = (.ok u, eff)) :
    (u = e ∧ eff = .none) ∨
      (u = .temp n ∧ eff = ⟨[.declareTemp n e], [], [⟨hint, span⟩], .empty⟩) := by
  have bound (h : pushTemp hint span e n = (.ok u, eff)) :
      u = .temp n ∧ eff = ⟨[.declareTemp n e], [], [⟨hint, span⟩], .empty⟩ := by
    cases (pushTemp_apply hint span e n).symm.trans h
    exact ⟨rfl, rfl⟩
  cases pin with
  | repeated =>
    simp only [pinPart, pushTempIfComplex] at h
    split at h
    · cases h
      exact .inl ⟨rfl, rfl⟩
    · exact .inr (bound h)
  | reordered =>
    simp only [pinPart, pushTempIfUnstable] at h
    split at h
    · cases h
      exact .inl ⟨rfl, rfl⟩
    · exact .inr (bound h)

theorem pinPart_ok (pin : Pin) (hint : String) (span : Span) (e : Expr) (n : Nat) :
    ∃ u eff, pinPart pin hint span e n = (.ok u, eff) := by
  cases pin with
  | repeated =>
    simp only [pinPart, pushTempIfComplex]
    split <;> exact ⟨_, _, rfl⟩
  | reordered =>
    simp only [pinPart, pushTempIfUnstable]
    split <;> exact ⟨_, _, rfl⟩

theorem pinPlace_ok (pin : Pin) (span : Span) (p : Place) (n : Nat) :
    ∃ q eff, pinPlace pin span p n = (.ok q, eff) := by
  cases p with
  | whole e => exact ⟨_, _, rfl⟩
  | property o name =>
    obtain ⟨o', e₁, ho⟩ := pinPart_ok pin "object" span o n
    exact ⟨_, _, bind_of_ok ho _⟩
  | index o i =>
    obtain ⟨o', e₁, ho⟩ := pinPart_ok pin "object" span o n
    obtain ⟨i', e₂, hi⟩ := pinPart_ok pin "index" span i (n + e₁.temps.length)
    exact ⟨.index o' i', e₁ ++ (e₂ ++ .none), bind_eq_ok.2 ⟨o', e₁, _, ho,
      bind_eq_ok.2 ⟨i', e₂, .none, hi, rfl, rfl⟩, rfl⟩⟩

theorem pinPlaceFor_ok (pin : Option Pin) (span : Span) (p : Place) (n : Nat) :
    ∃ q eff, pinPlaceFor pin span p n = (.ok q, eff) := by
  cases pin with
  | none => exact ⟨p, .none, rfl⟩
  | some pin => exact pinPlace_ok pin span p n

/-! ### Target and value -/

theorem targetAndValue_eq (span : Span) (target : Lower Reference) (value : Lower Expr) (b : Bool) :
    targetAndValue span target value b = (do
      let p ← asPlace target
      let (v, stmts) ← value.capture
      let p ← pinPlaceFor (pinFor stmts b) span p
      emitAll stmts
      return (.ofPlace p b, v)) := by
  unfold targetAndValue
  congr 1
  funext p
  congr 1
  funext ⟨v, stmts⟩
  cases h : pinFor stmts b <;> simp only [h] <;> rfl

/-- The target, the value, and the bindings of the target's parts. -/
theorem targetAndValue_parts (span : Span) (target : Lower Reference) (value : Lower Expr)
    (n : Nat) :
    (∃ s, ∀ b, (targetAndValue span target value b n).1 = .error s) ∨
      ∃ r e₁ v e₂, target n = (.ok r, e₁) ∧ value (n + e₁.temps.length) = (.ok v, e₂) ∧
        ∀ b, ∃ p e₃, pinPlaceFor (pinFor e₂.stmts b) span r.place
            (n + e₁.temps.length + e₂.temps.length) = (.ok p, e₃) ∧
          targetAndValue span target value b n =
            (.ok (.ofPlace p b, v), e₁ ++ (e₂.withoutStmts ++ (e₃ ++ .ofStmts e₂.stmts))) := by
  rcases ht : target n with ⟨_ | r, e₁⟩
  next s =>
    have hplace : asPlace target n = (.error s, e₁) := by
      rw [asPlace, map_eq_pure_bind]
      exact bind_of_error ht _
    refine .inl ⟨s, fun b => ?_⟩
    rw [targetAndValue, bind_of_error hplace]
  have hplace : asPlace target n = (.ok r.place, e₁) := map_eq_ok.2 ⟨r, ht, rfl⟩
  rcases hv : value (n + e₁.temps.length) with ⟨_ | v, e₂⟩
  next s =>
    have hcapture : value.capture (n + e₁.temps.length) = (.error s, e₂.withoutStmts) := by
      rw [capture, hv]
    refine .inl ⟨s, fun b => ?_⟩
    rw [targetAndValue, bind_of_ok hplace, bind_of_error hcapture]
  refine .inr ⟨r, e₁, v, e₂, rfl, hv, fun b => ?_⟩
  obtain ⟨p, e₃, hp⟩ := pinPlaceFor_ok (pinFor e₂.stmts b) span r.place
    (n + e₁.temps.length + e₂.temps.length)
  refine ⟨p, e₃, hp, ?_⟩
  rw [targetAndValue_eq, bind_of_ok hplace, bind_of_ok (capture_of_ok hv)]
  simp only [Effects.temps_withoutStmts, bind_of_ok hp]
  exact Prod.ext rfl (congrArg (fun x => e₁ ++ (e₂.withoutStmts ++ (e₃ ++ x))) (Effects.append_none _))

/-! ### Lowered assignments -/

/-- An assignment as a value writes last, and stands for the place it wrote to. -/
theorem expression_assignment {info : Source.NodeInfo} {op : Source.BinaryOp} {l r : Source.Expr}
    (hop : op.isAssignment) (hl : l.isPattern = false) :
    expression pool (.binary info op l r) =
      (fun p => (p.1.1.readable,
          p.2 ++ [.assign p.1.1.write (assignedValue pool op l.ty r.ty p.1.1 p.1.2)])) <$>
        (targetAndValue l.span (reference pool l) (value pool r) true).capture := by
  unfold expression
  rcases (Source.BinaryOp.isAssignment_iff op).1 hop with rfl | ⟨op, rfl⟩
  · rw [value_assign pool info l r hl]
    exact capture_emit _ _
  · rw [value_assignWith pool info l r op hl]
    exact capture_emit _ _

end ScriptLowering.Lower
