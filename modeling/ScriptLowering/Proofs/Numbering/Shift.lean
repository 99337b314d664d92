import ScriptLowering.Proofs.Lowering.Emitted
import ScriptLowering.Proofs.Target.Substitution

/-!
# Actions from a later id

An action begun at a later id does the same with all its temporaries counted up.
Two actions are compared, since what goes on after a result goes on after the
renumbered one.

    Shifted k x y: y from n + k does what x does from n, temporaries counted up by k
    x and y shifted, f a and g (a renumbered) shifted → x >>= f and y >>= g shifted     (bind)
-/

namespace ScriptLowering

open Target (Expr Stmt)

/-! ## Algorithm -/

/-- Results in which temporaries can be counted up. -/
class Renumber (α : Type) where
  renumber (k : Nat) : α → α

open Renumber (renumber)

instance : Renumber Unit := ⟨fun _ u => u⟩

instance : Renumber Expr := ⟨Expr.shift⟩

instance : Renumber Stmt := ⟨Stmt.shift⟩

instance {α : Type} [Renumber α] : Renumber (List α) := ⟨fun k => List.map (renumber k)⟩

instance {α : Type} [Renumber α] : Renumber (Option α) := ⟨fun k => Option.map (renumber k)⟩

instance {α β : Type} [Renumber α] [Renumber β] : Renumber (α × β) :=
  ⟨fun k p => (renumber k p.1, renumber k p.2)⟩

def Effects.shift (k : Nat) (e : Effects) : Effects := { e with stmts := renumber k e.stmts }

theorem Effects.shift_append (k : Nat) (a b : Effects) :
    (a ++ b).shift k = a.shift k ++ b.shift k :=
  ext_fields (List.map_append ..) rfl rfl rfl

namespace Lower

variable {α β : Type} [Renumber α] [Renumber β] {k : Nat}

def Shifted (k : Nat) (x y : Lower α) : Prop :=
  ∀ n, y (n + k) = ((x n).1.map (renumber k), (x n).2.shift k)

/-! ## Lemmas -/

section

variable (k : Nat)

@[simp] theorem renumber_expr (e : Expr) : renumber k e = e.shift k := rfl

@[simp] theorem renumber_stmt (s : Stmt) : renumber k s = s.shift k := rfl

@[simp] theorem renumber_list (as : List α) : renumber k as = as.map (renumber k) := rfl

@[simp] theorem renumber_prod (a : α) (b : β) : renumber k (a, b) = (renumber k a, renumber k b) :=
  rfl

end

namespace Shifted

theorem pure (a : α) : Shifted k (pure a) (pure (renumber k a)) := fun _ => rfl

theorem stop (s : Stop) : Shifted k (stop s : Lower α) (Lower.stop s) := fun _ => rfl

theorem fail (e : LowerError) : Shifted k (fail e : Lower α) (Lower.fail e) := stop _

theorem effect (e : Effects) : Shifted k (effect e) (Lower.effect (e.shift k)) := fun _ => rfl

theorem emit (s : Stmt) : Shifted k (emit s) (Lower.emit (s.shift k)) := effect _

theorem emitAll (ss : List Stmt) :
    Shifted k (emitAll ss) (Lower.emitAll (renumber k ss)) := effect _

theorem report (kind : DiagnosticKind) (span : Span) (message : String) :
    Shifted k (report kind span message) (Lower.report kind span message) := effect _

theorem useHelper (h : Helper) : Shifted k (useHelper h) (Lower.useHelper h) := effect _

theorem bind {x y : Lower α} {f g : α → Lower β} (hx : Shifted k x y)
    (hf : ∀ a, Shifted k (f a) (g (renumber k a))) : Shifted k (x >>= f) (y >>= g) := by
  intro n
  rw [bind_apply, bind_apply, hx n]
  rcases x n with ⟨r, e⟩
  cases r with
  | error s => rfl
  | ok a =>
    have hnext := hf a (n + e.temps.length)
    rw [Nat.add_right_comm] at hnext
    show ((g (renumber k a) (n + k + e.temps.length)).1,
      e.shift k ++ (g (renumber k a) (n + k + e.temps.length)).2) = _
    rw [hnext, ← Effects.shift_append]

theorem map {x y : Lower α} {f g : α → β} (hx : Shifted k x y)
    (hf : ∀ a, g (renumber k a) = renumber k (f a)) : Shifted k (f <$> x) (g <$> y) := by
  rw [map_eq_pure_bind, map_eq_pure_bind]
  apply hx.bind
  intro a
  rw [hf a]
  exact pure (f a)

/-- What is looked up without the state holds no temporaries. -/
theorem ofError_bind {γ : Type} {x : Except LowerError γ} {f g : γ → Lower β}
    (hf : ∀ a, Shifted k (f a) (g a)) : Shifted k (ofError x >>= f) (ofError x >>= g) := by
  cases x with
  | error e => exact fail e
  | ok a =>
    show Shifted k (Pure.pure a >>= f) (Pure.pure a >>= g)
    rw [pure_bind, pure_bind]
    exact hf a

theorem ofFault_bind {γ : Type} {x : Except Fault γ} {f g : γ → Lower β}
    (hf : ∀ a, Shifted k (f a) (g a)) : Shifted k (ofFault x >>= f) (ofFault x >>= g) := by
  cases x with
  | error e => exact stop (.fault e)
  | ok a =>
    show Shifted k (Pure.pure a >>= f) (Pure.pure a >>= g)
    rw [pure_bind, pure_bind]
    exact hf a

theorem capture {x y : Lower α} (hx : Shifted k x y) : Shifted k x.capture y.capture := by
  intro n
  unfold Lower.capture
  rw [hx n]
  rcases x n with ⟨_ | _, _⟩ <;> rfl

end Shifted

/-! ### Temporaries -/

theorem shifted_pushTemp (hint : String) (span : Span) (v : Expr) :
    Shifted k (pushTemp hint span v) (pushTemp hint span (v.shift k)) := fun _ => rfl

theorem shifted_pushTempIfComplex (hint : String) (span : Span) (v : Expr) :
    Shifted k (pushTempIfComplex hint span v) (pushTempIfComplex hint span (v.shift k)) := by
  unfold pushTempIfComplex
  rw [Expr.isSimple_shift]
  split
  · exact .pure v
  · exact shifted_pushTemp hint span v

theorem shifted_pushTempIfUnstable (hint : String) (span : Span) (v : Expr) :
    Shifted k (pushTempIfUnstable hint span v) (pushTempIfUnstable hint span (v.shift k)) := by
  unfold pushTempIfUnstable
  rw [Expr.isStable_shift]
  split
  · exact .pure v
  · exact shifted_pushTemp hint span v

theorem shifted_checkNotAny (pool : TypePool) (info : Source.NodeInfo) :
    Shifted k (checkNotAny pool info) (checkNotAny pool info) := by
  unfold checkNotAny
  split
  · exact .report _ _ _
  · exact .pure ()

end Lower

end ScriptLowering
