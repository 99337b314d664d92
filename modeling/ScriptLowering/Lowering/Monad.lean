import ScriptLowering.Lowering.Error
import ScriptLowering.Lowering.State

/-!
# Lowering actions

An action is given the id of the first free temporary and answers with a result
and its effects.  It sees nothing else of the unit, so what it does cannot hang
on earlier diagnostics or helpers.  An action that stops keeps the effects it
had so far.

    x.run u = (result of x, u.extend (effects of x))                        (run_eq)
    (x >>= f) n has a result iff x has one and f has one on it, and then
    their effects are joined                                                (bind_eq_ok)
-/

namespace ScriptLowering

/-- Why an action has no result. -/
inductive Stop where
  | error (e : LowerError)
  | fault (f : Fault)
  deriving DecidableEq

def Lower (α : Type) : Type := Nat → Except Stop α × Effects

namespace Lower

/-! ## Algorithm -/

protected def pure {α : Type} (a : α) : Lower α := fun _ => (.ok a, .none)

protected def bind {α β : Type} (x : Lower α) (f : α → Lower β) : Lower β := fun first =>
  match x first with
  | (.error s, e) => (.error s, e)
  | (.ok a, e) =>
    let next := f a (first + e.temps.length)
    (next.1, e ++ next.2)

instance : Monad Lower where
  pure := Lower.pure
  bind := Lower.bind

/-- Only adds the effects. -/
def effect (e : Effects) : Lower Unit := fun _ => (.ok (), e)

def stop {α : Type} (s : Stop) : Lower α := fun _ => (.error s, .none)

def fail {α : Type} (e : LowerError) : Lower α := stop (.error e)

/-- Runs the statement before what follows. -/
def emit (s : Target.Stmt) : Lower Unit := effect (.ofStmts [s])

def emitAll (ss : List Target.Stmt) : Lower Unit := effect (.ofStmts ss)

def report (kind : DiagnosticKind) (span : Span) (message : String) : Lower Unit :=
  effect (.ofDiagnostic (.error kind span message))

def useHelper (h : Helper) : Lower Unit := effect (.ofHelper h)

/-- Allocates a temporary and answers its id.  There is always another id here; a lowerer at
work gives ids as long as they fit into a word. -/
def freshTemp (t : Temp) : Lower Nat := fun first => (.ok first, .ofTemp t)

def ofError {α : Type} : Except LowerError α → Lower α
  | .ok a => pure a
  | .error e => fail e

def ofFault {α : Type} : Except Fault α → Lower α
  | .ok a => pure a
  | .error f => stop (.fault f)

/-- Takes the statements out of the effects and into the result. -/
def capture {α : Type} (x : Lower α) : Lower (α × List Target.Stmt) := fun first =>
  match x first with
  | (.ok a, e) => (.ok (a, e.stmts), e.withoutStmts)
  | (.error s, e) => (.error s, e.withoutStmts)

/-- Runs an action on a unit; its statements are lost. -/
def run {α : Type} (x : Lower α) (u : UnitState) : Except Stop α × UnitState :=
  let (result, e) := x u.nextTemp
  (result, u.extend e)

/-! ## Lemmas -/

theorem pure_apply {α : Type} (a : α) (n : Nat) : (pure a : Lower α) n = (.ok a, .none) := rfl

theorem bind_apply {α β : Type} (x : Lower α) (f : α → Lower β) (n : Nat) :
    (x >>= f) n = match x n with
      | (.error s, e) => (.error s, e)
      | (.ok a, e) => ((f a (n + e.temps.length)).1, e ++ (f a (n + e.temps.length)).2) := rfl

theorem bind_of_ok {α β : Type} {x : Lower α} {n : Nat} {a : α} {e : Effects}
    (h : x n = (.ok a, e)) (f : α → Lower β) :
    (x >>= f) n = ((f a (n + e.temps.length)).1, e ++ (f a (n + e.temps.length)).2) := by
  rw [bind_apply, h]

theorem bind_of_error {α β : Type} {x : Lower α} {n : Nat} {s : Stop} {e : Effects}
    (h : x n = (.error s, e)) (f : α → Lower β) : (x >>= f) n = (.error s, e) := by
  rw [bind_apply, h]

/-- A sequence has a result when both its parts have one. -/
theorem bind_eq_ok {α β : Type} {x : Lower α} {f : α → Lower β} {n : Nat} {b : β} {e : Effects} :
    (x >>= f) n = (.ok b, e) ↔ ∃ a e₁ e₂, x n = (.ok a, e₁) ∧
      f a (n + e₁.temps.length) = (.ok b, e₂) ∧ e = e₁ ++ e₂ := by
  rw [bind_apply]
  rcases hx : x n with ⟨r, e₁⟩
  cases r with
  | error s => simp
  | ok a =>
    simp only [Prod.mk.injEq, Except.ok.injEq]
    constructor
    · rintro ⟨h₁, h₂⟩
      exact ⟨a, e₁, _, ⟨rfl, rfl⟩, Prod.ext h₁ rfl, h₂.symm⟩
    · rintro ⟨a, e₁, e₂, ⟨rfl, rfl⟩, h, rfl⟩
      rw [h]
      exact ⟨rfl, rfl⟩

theorem pure_bind {α β : Type} (a : α) (f : α → Lower β) : (pure a >>= f) = f a := by
  funext n
  rw [bind_apply, pure_apply]
  exact Prod.ext rfl (Effects.none_append _)

theorem bind_pure {α : Type} (x : Lower α) : (x >>= pure) = x := by
  funext n
  rw [bind_apply]
  rcases x n with ⟨r, e⟩
  cases r with
  | error s => rfl
  | ok a => exact Prod.ext rfl (Effects.append_none e)

theorem bind_assoc {α β γ : Type} (x : Lower α) (f : α → Lower β) (g : β → Lower γ) :
    (x >>= f >>= g) = (x >>= fun a => f a >>= g) := by
  funext n
  simp only [bind_apply]
  rcases x n with ⟨r, e⟩
  cases r with
  | error s => rfl
  | ok a =>
    simp only
    rcases f a (n + e.temps.length) with ⟨r', e'⟩
    cases r' with
    | error s => rfl
    | ok b => simp [Effects.append_assoc, Nat.add_assoc]

instance : LawfulMonad Lower := LawfulMonad.mk' Lower bind_pure pure_bind bind_assoc

theorem capture_of_ok {α : Type} {x : Lower α} {n : Nat} {a : α} {e : Effects}
    (h : x n = (.ok a, e)) : x.capture n = (.ok (a, e.stmts), e.withoutStmts) := by
  simp [capture, h]

theorem capture_eq_ok {α : Type} {x : Lower α} {n : Nat} {a : α} {ss : List Target.Stmt}
    {e : Effects} :
    x.capture n = (.ok (a, ss), e) ↔
      ∃ e₁, x n = (.ok a, e₁) ∧ ss = e₁.stmts ∧ e = e₁.withoutStmts := by
  unfold capture
  rcases x n with ⟨r, e₁⟩
  cases r with
  | error s => simp
  | ok b =>
    simp only [Prod.mk.injEq, Except.ok.injEq]
    constructor
    · rintro ⟨⟨rfl, rfl⟩, rfl⟩
      exact ⟨e₁, ⟨rfl, rfl⟩, rfl, rfl⟩
    · rintro ⟨e₂, ⟨rfl, rfl⟩, rfl, rfl⟩
      exact ⟨⟨rfl, rfl⟩, rfl⟩

theorem map_eq_ok {α β : Type} {x : Lower α} {f : α → β} {n : Nat} {b : β} {e : Effects} :
    (f <$> x) n = (.ok b, e) ↔ ∃ a, x n = (.ok a, e) ∧ f a = b := by
  rw [map_eq_pure_bind, bind_eq_ok]
  constructor
  · rintro ⟨a, e₁, e₂, hx, hf, rfl⟩
    cases hf
    exact ⟨a, by rw [Effects.append_none, hx], rfl⟩
  · rintro ⟨a, hx, rfl⟩
    exact ⟨a, e, .none, hx, rfl, (Effects.append_none e).symm⟩

/-- Capturing leaves no statement behind, with or without a result. -/
theorem stmts_capture {α : Type} (x : Lower α) (n : Nat) : (x.capture n).2.stmts = [] := by
  unfold capture
  split <;> rfl

theorem run_eq {α : Type} (x : Lower α) (u : UnitState) :
    x.run u = ((x u.nextTemp).1, u.extend (x u.nextTemp).2) := rfl

theorem diagnostics_run {α : Type} (x : Lower α) (u : UnitState) :
    (x.run u).2.diagnostics.toList =
      u.diagnostics.toList ++ (x u.nextTemp).2.diagnostics := by
  simp [run_eq, UnitState.extend]

end Lower

end ScriptLowering
