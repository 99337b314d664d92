import ScriptLowering.Proofs.Lowering.Emitted
import ScriptLowering.Proofs.Reports.Account
import ScriptLowering.Types.SubType

/-!
# Actions with an account

An action is traced by an account when a run that has a result reports just what
the account says, and one that stops does so with the error of the account and
has reported a part of it.  Two actions are compared, which differ in nothing
but their reports: the lowering of a tree and that of its strict form.

    x, y traced by a, and f r, g r by b for every r → x >>= f, y >>= g traced by a ++ b     (bind)
    silent: traced by the empty account, together with itself
-/

namespace ScriptLowering

/-- The effects without their diagnostics. -/
def Effects.muted (e : Effects) : Effects := { e with diagnostics := [] }

theorem Effects.muted_append (a b : Effects) : (a ++ b).muted = a.muted ++ b.muted := rfl

theorem Effects.temps_eq_of_muted {a b : Effects} (h : a.muted = b.muted) : a.temps = b.temps :=
  (Effects.mk.inj h).2.2.1

theorem Effects.helpers_eq_of_muted {a b : Effects} (h : a.muted = b.muted) :
    a.helpers = b.helpers := (Effects.mk.inj h).2.2.2

theorem Effects.stmts_eq_of_muted {a b : Effects} (h : a.muted = b.muted) : a.stmts = b.stmts :=
  (Effects.mk.inj h).1

namespace Lower

open Target (Expr Stmt)

variable {α β : Type} {a b : Account}

/-- How a run that met the account ends.  Only a question about a sub-type faults. -/
def Ends (a : Account) (e : Effects) : Except Stop α → Prop
  | .ok _ => e.diagnostics = a.reports ∧ a.error = none
  | .error (.error err) => a.error = some err
  | .error (.fault f) => f.isSubType

/-- Two runs with one result and one list of additions but for the diagnostics,
of which the first run reports what the account says, or a part if it stops. -/
structure TracedRun (a : Account) (r s : Except Stop α × Effects) : Prop where
  result : s.1 = r.1
  muted : s.2.muted = r.2.muted
  reports : r.2.diagnostics <+: a.reports
  ends : Ends a r.2 r.1

def Traced (a : Account) (x y : Lower α) : Prop := ∀ n, TracedRun a (x n) (y n)

/-- The action has nothing to report and does not stop. -/
def Silent (x : Lower α) : Prop := Traced .empty x x

/-! ## Lemmas -/

namespace Traced

variable {x y : Lower α} {f g : α → Lower β}

theorem of_eq (h : Traced a x y) (hab : a = b) : Traced b x y := hab ▸ h

theorem bind (hx : Traced a x y) (hf : ∀ r, Traced b (f r) (g r)) :
    Traced (a ++ b) (x >>= f) (y >>= g) := by
  intro n
  have h := hx n
  rw [bind_apply, bind_apply]
  revert h
  rcases x n with ⟨r, e⟩
  rcases y n with ⟨r', e'⟩
  rintro ⟨hr, hm, hp, hends⟩
  obtain rfl : r' = r := hr
  cases r' with
  | error s =>
    refine ⟨rfl, hm, hp.trans (List.prefix_append ..), ?_⟩
    cases s with
    | error err => exact (congrArg (Option.or · b.error) hends).trans Option.some_or
    | fault _ => exact hends
  | ok v =>
    obtain ⟨hd, hnone⟩ := hends
    obtain ⟨hr, hm', hp', hends⟩ := hf v (n + e.temps.length)
    have ht : e'.temps = e.temps := Effects.temps_eq_of_muted hm
    simp only [ht]
    have herror : (a ++ b).error = b.error := by rw [Account.error_append, hnone, Option.none_or]
    have hreports : (a ++ b).reports = e.diagnostics ++ b.reports := congrArg (· ++ _) hd.symm
    refine ⟨hr, ?_, ?_, ?_⟩
    · rw [Effects.muted_append, Effects.muted_append, hm', hm]
    · rw [hreports]
      exact (List.prefix_append_right_inj _).2 hp'
    · cases hv : (f v (n + e.temps.length)).1 with
      | ok w =>
        rw [hv] at hends
        exact ⟨hreports ▸ congrArg (e.diagnostics ++ ·) hends.1, herror.trans hends.2⟩
      | error s =>
        rw [hv] at hends
        cases s with
        | error err => exact herror.trans hends
        | fault _ => exact hends

theorem pure (r : α) : Traced .empty (pure r) (pure r) :=
  fun _ => ⟨rfl, rfl, List.nil_prefix, rfl, rfl⟩

theorem map {k : α → β} (hx : Traced a x y) : Traced a (k <$> x) (k <$> y) := by
  rw [map_eq_pure_bind, map_eq_pure_bind]
  exact (hx.bind fun r => pure (k r)).of_eq (Account.append_empty a)

theorem bind_silent (hx : Traced a x y) (hf : ∀ r, Silent (f r)) :
    Traced a (x >>= f) (y >>= f) := (hx.bind hf).of_eq (Account.append_empty a)

theorem capture (hx : Traced a x y) : Traced a x.capture y.capture := by
  intro n
  have h := hx n
  unfold Lower.capture
  revert h
  rcases x n with ⟨r, e⟩
  rcases y n with ⟨r', e'⟩
  rintro ⟨hr, hm, hp, hends⟩
  obtain rfl : r' = r := hr
  have hstmts : e'.stmts = e.stmts := Effects.stmts_eq_of_muted hm
  have hmuted : e'.withoutStmts.muted = e.withoutStmts.muted :=
    congrArg Effects.withoutStmts hm
  cases r' with
  | error s =>
    refine ⟨rfl, hmuted, hp, ?_⟩
    cases s <;> exact hends
  | ok v => exact ⟨congrArg (fun ss => Except.ok (v, ss)) hstmts, hmuted, hp, hends⟩

/-- A failure is the first thing in its account. -/
theorem fail {e : LowerError} (h : a.error = some e) : Traced a (fail e : Lower α) (fail e) :=
  fun _ => ⟨rfl, rfl, List.nil_prefix, h⟩

theorem ofError (x : Except LowerError α) : Traced ⟨[], errorOf x⟩ (ofError x) (ofError x) := by
  cases x with
  | ok r => exact pure r
  | error e => exact fail rfl

theorem ofFault {x : Except Fault α} (h : ∀ f, x = .error f → f.isSubType) :
    Silent (ofFault x) := by
  cases x with
  | ok r => exact pure r
  | error f => exact fun _ => ⟨rfl, rfl, List.nil_prefix, h f rfl⟩

end Traced

namespace Silent

variable {x : Lower α} {f g : α → Lower β}

theorem pure (r : α) : Silent (pure r) := Traced.pure r

theorem effect {e : Effects} (h : e.diagnostics = []) : Silent (effect e) := by
  intro n
  have hprefix : e.diagnostics <+: Account.empty.reports := by
    rw [h]
    exact List.nil_prefix
  exact ⟨rfl, rfl, hprefix, h, rfl⟩

theorem emit (s : Stmt) : Silent (emit s) := effect rfl

theorem emitAll (ss : List Stmt) : Silent (emitAll ss) := effect rfl

theorem useHelper (h : Helper) : Silent (useHelper h) := effect rfl

theorem bind (hx : Silent x) (hf : ∀ r, Silent (f r)) : Silent (x >>= f) := hx.bind_silent hf

/-- What follows a silent action has the whole account. -/
theorem traced_bind (hx : Silent x) (hf : ∀ r, Traced a (f r) (g r)) :
    Traced a (x >>= f) (x >>= g) := Traced.bind (a := .empty) hx hf

theorem map {k : α → β} (hx : Silent x) : Silent (k <$> x) := Traced.map hx

end Silent

/-! ### Temporaries and reports -/

theorem silent_pushTemp (hint : String) (span : Span) (v : Expr) :
    Silent (pushTemp hint span v) := fun _ => ⟨rfl, rfl, List.nil_prefix, rfl, rfl⟩

theorem silent_pushTempIfComplex (hint : String) (span : Span) (v : Expr) :
    Silent (pushTempIfComplex hint span v) := by
  unfold pushTempIfComplex
  split
  · exact .pure v
  · exact silent_pushTemp hint span v

theorem silent_pushTempIfUnstable (hint : String) (span : Span) (v : Expr) :
    Silent (pushTempIfUnstable hint span v) := by
  unfold pushTempIfUnstable
  split
  · exact .pure v
  · exact silent_pushTemp hint span v

theorem traced_checkNotAny (pool : TypePool) (info : Source.NodeInfo) :
    Traced ⟨anyReports pool info, none⟩ (checkNotAny pool info) (checkNotAny pool info) := by
  unfold checkNotAny anyReports
  split
  · exact fun _ => ⟨rfl, rfl, List.prefix_rfl, rfl, rfl⟩
  · exact .pure ()

/-- A loose comparison reports itself, and does no more than an error node. -/
theorem traced_looseEquality (op : Source.LooseOp) (span : Span) :
    Traced ⟨[looseReport op span], none⟩ (looseEquality op span) (pure .placeholder) := by
  cases op <;> exact fun _ => ⟨rfl, rfl, List.prefix_rfl, rfl, rfl⟩

end Lower

end ScriptLowering
