import ScriptLowering.Lowering.Monad

/-!
# Lowerers at work

A lowerer at work has a buffer of statements that are to run earlier, and its
unit.  A walk changes both in place: a hard error leaves the lowerer as it is by
then, a panic leaves none.  The id of a temporary is a word, so a unit that holds
as many temporaries as there are words has room for no more.

    lift x does what x does, in place, if there is room for its temporaries
    lift (x >>= f) = lift x >>= lift ∘ f, capture (lift x) = lift x.capture  (lift_bind, capture_lift)
    each change of a lowerer is the lift of an action                        (freshTemp_eq, emit_eq)
-/

namespace ScriptLowering

open Target (Stmt)

/-- Why a walk leaves no lowerer. -/
inductive Panic where
  /-- No such node, list or type. -/
  | index
  /-- An operator that has no form on two values. -/
  | operator
  /-- Two operands were lowered to something else than two values. -/
  | operands
  /-- No place to take the receiver from or to put it. -/
  | receiver
  /-- Nested deeper than allowed. -/
  | depth
  /-- A sub-type that is not there. -/
  | subType (f : Fault)
  /-- No id is left for a temporary. -/
  | temps
  /-- A name that the interner does not know. -/
  | name
  /-- A text that the interner has no room for. -/
  | text
  deriving DecidableEq

/-- How many temporaries have ids. -/
def tempLimit : Nat := 4294967296

/-- A lowerer at work. -/
structure Lowerer where
  /-- Statements that are to run before what is lowered now. -/
  prereqs : List Stmt
  unit : UnitState

/-- Lowering in place, which may panic. -/
def Walk (α : Type) : Type := Lowerer → Except Panic (Except LowerError α × Lowerer)

namespace Lowerer

/-- How many temporaries may still be allocated. -/
def idsLeft (l : Lowerer) : Nat := tempLimit - l.unit.nextTemp

/-- The lowerer with the effects: statements go to the end of its buffer. -/
def extend (l : Lowerer) (e : Effects) : Lowerer := ⟨l.prereqs ++ e.stmts, l.unit.extend e⟩

/-- What an action that found room leaves of the lowerer it began with. -/
def finish {α : Type} (l : Lowerer) :
    Except Stop α × Effects → Except Panic (Except LowerError α × Lowerer)
  | (.ok a, e) => .ok (.ok a, l.extend e)
  | (.error (.error err), e) => .ok (.error err, l.extend e)
  | (.error (.fault f), _) => .error (.subType f)

@[simp] theorem nextTemp_extend (l : Lowerer) (e : Effects) :
    (l.extend e).unit.nextTemp = l.unit.nextTemp + e.temps.length := UnitState.nextTemp_extend ..

theorem extend_append (l : Lowerer) (a b : Effects) :
    (l.extend a).extend b = l.extend (a ++ b) := by
  simp only [extend, UnitState.extend_append, Effects.stmts_append, List.append_assoc]

theorem idsLeft_extend (l : Lowerer) (e : Effects) :
    (l.extend e).idsLeft = l.idsLeft - e.temps.length := by
  rw [idsLeft, nextTemp_extend, idsLeft, Nat.sub_sub]

/-- There is room for all if there is for the first and then for the others. -/
theorem room_append (l : Lowerer) (a b : Effects) : (a ++ b).temps.length ≤ l.idsLeft ↔
    a.temps.length ≤ l.idsLeft ∧ b.temps.length ≤ (l.extend a).idsLeft := by
  rw [idsLeft_extend, Effects.temps_append, List.length_append]
  omega

/-- Statements do not touch the unit. -/
theorem extend_ofStmts (l : Lowerer) (ss : List Stmt) :
    l.extend (.ofStmts ss) = { l with prereqs := l.prereqs ++ ss } := by
  have hunit : l.unit.extend (.ofStmts ss) = l.unit :=
    UnitState.ext_fields (by simp [UnitState.extend, Effects.ofStmts, Effects.none])
      (by simp [UnitState.extend, Effects.ofStmts, Effects.none]) (HelperSet.union_empty _)
  rw [extend, hunit]
  rfl

theorem extend_none (l : Lowerer) : l.extend .none = l :=
  (l.extend_ofStmts []).trans (by rw [List.append_nil])

/-- Without statements the buffer is as before. -/
theorem extend_of_no_stmts (l : Lowerer) {e : Effects} (h : e.stmts = []) :
    l.extend e = { l with unit := l.unit.extend e } := by
  rw [extend, h, List.append_nil]

end Lowerer

namespace Walk

variable {α β γ : Type}

/-! ## Algorithm -/

protected def pure (a : α) : Walk α := fun l => .ok (.ok a, l)

protected def bind (x : Walk α) (f : α → Walk β) : Walk β := fun l =>
  match x l with
  | .ok (.ok a, l) => f a l
  | .ok (.error e, l) => .ok (.error e, l)
  | .error p => .error p

instance : Monad Walk where
  pure := Walk.pure
  bind := Walk.bind

def panic (p : Panic) : Walk α := fun _ => .error p

def fail (e : LowerError) : Walk α := fun l => .ok (.error e, l)

def check : Except Panic α → Walk α
  | .ok a => pure a
  | .error p => panic p

/-- A sub-type that is not there ends the walk. -/
def ofFault : Except Fault α → Walk α
  | .ok a => pure a
  | .error f => panic (.subType f)

/-- Changes the lowerer. -/
def change (f : Lowerer → Lowerer) : Walk Unit := fun l => .ok (.ok (), f l)

/-- Puts the statement at the end of the buffer. -/
def emit (s : Stmt) : Walk Unit := change fun l => { l with prereqs := l.prereqs ++ [s] }

def emitAll (ss : List Stmt) : Walk Unit := change fun l => { l with prereqs := l.prereqs ++ ss }

def report (kind : DiagnosticKind) (span : Span) (message : String) : Walk Unit :=
  change fun l => { l with unit := l.unit.report (.error kind span message) }

def useHelper (h : Helper) : Walk Unit := change fun l => { l with unit := l.unit.useHelper h }

/-- Allocates a temporary, if an id is left for it. -/
def freshTemp (t : Temp) : Walk Nat := fun l =>
  if 0 < l.idsLeft then
    .ok (.ok (l.unit.newTemp t).1, { l with unit := (l.unit.newTemp t).2 })
  else .error .temps

/-- Walks with an empty buffer, and answers with the statements it then holds; the
buffer is put back, with or without a result. -/
def capture (x : Walk α) : Walk (α × List Stmt) := fun l =>
  match x { l with prereqs := [] } with
  | .ok (r, after) => .ok ((·, after.prereqs) <$> r, { after with prereqs := l.prereqs })
  | .error p => .error p

/-- Does what the action does, if there is room for its temporaries. -/
def lift (x : Lower α) : Walk α := fun l =>
  if (x l.unit.nextTemp).2.temps.length ≤ l.idsLeft then l.finish (x l.unit.nextTemp)
  else .error .temps

/-! ## Lemmas -/

theorem bind_apply (x : Walk α) (f : α → Walk β) (l : Lowerer) :
    (x >>= f) l = match x l with
      | .ok (.ok a, l) => f a l
      | .ok (.error e, l) => .ok (.error e, l)
      | .error p => .error p := rfl

protected theorem pure_bind (a : α) (f : α → Walk β) : (pure a >>= f) = f a := rfl

protected theorem bind_pure (x : Walk α) : (x >>= pure) = x := by
  funext l
  rw [bind_apply]
  rcases x l with _ | ⟨_ | _, _⟩ <;> rfl

protected theorem bind_assoc (x : Walk α) (f : α → Walk β) (g : β → Walk γ) :
    (x >>= f >>= g) = (x >>= fun a => f a >>= g) := by
  funext l
  simp only [bind_apply]
  rcases x l with _ | ⟨_ | _, _⟩ <;> rfl

instance : LawfulMonad Walk := LawfulMonad.mk' Walk Walk.bind_pure Walk.pure_bind Walk.bind_assoc

theorem check_bind_ok {x : Except Panic α} {a : α} (h : x = .ok a) (f : α → Walk β) :
    check x >>= f = f a := by
  rw [h]
  exact pure_bind a f

/-! ### Walks of actions -/

theorem lift_apply (x : Lower α) (l : Lowerer) :
    lift x l = if (x l.unit.nextTemp).2.temps.length ≤ l.idsLeft then l.finish (x l.unit.nextTemp)
      else .error .temps := rfl

/-- An action without temporaries always finds room. -/
theorem lift_of_no_temps {x : Lower α} {l : Lowerer} {r : Except Stop α} {e : Effects}
    (h : x l.unit.nextTemp = (r, e)) (htemps : e.temps = []) : lift x l = l.finish (r, e) := by
  rw [lift_apply, h, htemps]
  exact if_pos (Nat.zero_le _)

theorem lift_pure (a : α) : lift (pure a : Lower α) = pure a := by
  funext l
  rw [lift_of_no_temps (Lower.pure_apply a _) rfl]
  exact congrArg (fun l => Except.ok (Except.ok a, l)) l.extend_none

theorem lift_bind (x : Lower α) (f : α → Lower β) :
    lift (x >>= f) = lift x >>= fun a => lift (f a) := by
  funext l
  rw [bind_apply, lift_apply, lift_apply]
  rcases hx : x l.unit.nextTemp with ⟨_ | a, e⟩
  case error s =>
    -- The second action is never begun.
    rw [Lower.bind_of_error hx]
    split
    · cases s <;> rfl
    · rfl
  case ok =>
    rw [Lower.bind_of_ok hx]
    rcases hf : f a (l.unit.nextTemp + e.temps.length) with ⟨r, e'⟩
    have htotal := l.room_append e e'
    by_cases hfirst : e.temps.length ≤ l.idsLeft
    · have hnext : f a (l.extend e).unit.nextTemp = (r, e') := by rw [Lowerer.nextTemp_extend, hf]
      rw [if_pos hfirst]
      show _ = lift (f a) (l.extend e)
      rw [lift_apply, hnext]
      refine ite_congr (propext (htotal.trans (and_iff_right hfirst))) (fun _ => ?_) fun _ => rfl
      rcases r with (_ | _) | _ <;> simp only [Lowerer.finish, Lowerer.extend_append]
    · rw [if_neg hfirst, if_neg fun h => hfirst (htotal.1 h).1]

theorem lift_map (g : α → β) (x : Lower α) : lift (g <$> x) = g <$> lift x := by
  simp only [map_eq_pure_bind, lift_bind, lift_pure]

theorem capture_lift (x : Lower α) : capture (lift x) = lift x.capture := by
  funext l
  rw [capture, lift_apply, lift_apply]
  have hleft : ({ l with prereqs := [] } : Lowerer).idsLeft = l.idsLeft := rfl
  have htemps : (x.capture l.unit.nextTemp).2.temps = (x l.unit.nextTemp).2.temps := by
    unfold Lower.capture
    split <;> simp_all [Effects.withoutStmts]
  rw [htemps, hleft]
  by_cases hroom : (x l.unit.nextTemp).2.temps.length ≤ l.idsLeft
  · rw [if_pos hroom, if_pos hroom]
    unfold Lower.capture
    rcases x l.unit.nextTemp with ⟨(err | _) | a, e⟩
    case error.fault => rfl
    case error.error =>
      have hkept := l.extend_of_no_stmts (e := e.withoutStmts) rfl
      exact congrArg (fun l => Except.ok (Except.error err, l)) hkept.symm
    case ok =>
      have hkept := l.extend_of_no_stmts (e := e.withoutStmts) rfl
      exact congrArg (fun l => Except.ok (Except.ok (a, e.stmts), l)) hkept.symm
  · rw [if_neg hroom, if_neg hroom]

/-! ### Changes of a lowerer -/

theorem fail_eq (e : LowerError) : (fail e : Walk α) = lift (Lower.fail e) := by
  funext l
  rw [lift_of_no_temps (x := Lower.fail e) rfl rfl]
  exact congrArg (fun l => Except.ok (Except.error e, l)) l.extend_none.symm

theorem ofFault_eq (x : Except Fault α) : ofFault x = lift (Lower.ofFault x) := by
  cases x with
  | ok a => exact (lift_pure a).symm
  | error f =>
    funext l
    exact (lift_of_no_temps (x := Lower.stop (.fault f)) rfl rfl).symm

theorem change_eq {e : Effects} {f : Lowerer → Lowerer} (he : e.temps = [])
    (hf : ∀ l, f l = l.extend e) : change f = lift (Lower.effect e) := by
  funext l
  rw [lift_of_no_temps (x := Lower.effect e) rfl he]
  exact congrArg (fun l => Except.ok (Except.ok (), l)) (hf l)

theorem emitAll_eq (ss : List Stmt) : emitAll ss = lift (Lower.emitAll ss) :=
  change_eq rfl fun l => (l.extend_ofStmts ss).symm

theorem emit_eq (s : Stmt) : emit s = lift (Lower.emit s) := emitAll_eq [s]

theorem report_eq (kind : DiagnosticKind) (span : Span) (message : String) :
    report kind span message = lift (Lower.report kind span message) :=
  change_eq rfl fun l => (l.extend_of_no_stmts rfl).symm

theorem useHelper_eq (h : Helper) : useHelper h = lift (Lower.useHelper h) :=
  change_eq rfl fun l => (l.extend_of_no_stmts rfl).symm

theorem freshTemp_eq (t : Temp) : freshTemp t = lift (Lower.freshTemp t) := by
  funext l
  rw [freshTemp, lift_apply]
  refine ite_congr rfl (fun _ => ?_) fun _ => rfl
  have hkept := l.extend_of_no_stmts (e := .ofTemp t) rfl
  exact congrArg (fun l' => Except.ok (Except.ok l.unit.nextTemp, l')) hkept.symm

/-- Nothing comes after an action that stops. -/
theorem lift_stop_bind (s : Stop) (f : α → Walk β) :
    lift (Lower.stop s) >>= f = lift (Lower.stop s) := by
  funext l
  rw [bind_apply, lift_of_no_temps (x := Lower.stop s) rfl rfl,
    lift_of_no_temps (x := Lower.stop s) rfl rfl]
  cases s <;> rfl

end Walk

end ScriptLowering
