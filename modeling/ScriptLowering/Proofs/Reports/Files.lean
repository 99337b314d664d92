import ScriptLowering.Compile
import ScriptLowering.Proofs.Reports.Expressions

/-!
# Errors and reports of a file

Lowering a well-formed file stops at the first visit that offends, and has no
result for this reason only; sub-types apart, nothing in it faults.  A file that
is lowered has reported what each of its visits reports, and its code is that of
its strict form.

    the file stops with e ↔ e is the error of the first visit that offends      (file_stops_iff)
    the file is lowered to ss → its reports are those of its visits, and its
      strict form is lowered to ss                                                 (file_reports)
-/

namespace ScriptLowering.Lower

open Source (Visit)

variable {pool : TypePool}

/-! ### Statements -/

theorem traced_statements {f g : Source.Forest} (hfg : f.StrictlyReads g)
    {ss : List (Source.Stmt ExprId)} (hread : ∀ s ∈ ss, ∃ s', s.read f = .ok s') :
    Traced (account pool ((ss.filterMap fun s => (s.read f).toOption).flatMap Source.Stmt.visits))
      (statements pool f ss) (statements pool g ss) := by
  induction ss with
  | nil => exact .pure []
  | cons s ss ih =>
    obtain ⟨⟨s', hs'⟩, hss⟩ := List.forall_mem_cons.1 hread
    have hbody : (s :: ss).filterMap (fun s => (s.read f).toOption) =
        s' :: ss.filterMap fun s => (s.read f).toOption := by
      rw [List.filterMap_cons, hs']
      rfl
    rw [hbody, List.flatMap_cons, account_append]
    simp only [statements, hs', Source.Stmt.read_strict hfg hs', ofFault, pure_bind]
    apply (traced_topLevel s').bind
    intro first
    apply (ih hss).bind_silent
    intro rest
    exact .pure _

theorem traced_file {f : Source.File} (hf : f.WellFormed) :
    Traced (account f.types.pool f.visits) (file f) (file f.strict) :=
  traced_statements (f.arena.strictlyReads_trees f.types) fun _ => hf.read

/-! ### The first error -/

theorem account_error_eq_some {vs : List Visit} {e : LowerError} :
    (account pool vs).error = some e ↔ ∃ before v after, vs = before ++ v :: after ∧
      v.Offends pool e ∧ ∀ w ∈ before, ∀ e', ¬w.Offends pool e' := by
  simp only [account, List.findSome?_eq_some_iff, Visit.error?_eq_some, Visit.error?_eq_none]

theorem account_error_eq_none {vs : List Visit} :
    (account pool vs).error = none ↔ ∀ v ∈ vs, ∀ e, ¬v.Offends pool e := by
  simp only [account, List.findSome?_eq_none_iff, Visit.error?_eq_none]

/-- A well-formed file in which no sub-type is missing is not lowered exactly if a
live node offends, and then it stops with the error of the first one visited. -/
theorem file_stops_iff {f : Source.File} (hf : f.WellFormed) (u : UnitState)
    (hs : ∀ fault, fault.isSubType → ((file f).run u).1 ≠ .error (.fault fault)) :
    ((∀ ss, ((file f).run u).1 ≠ .ok ss) ↔ ∃ v e, f.Live v ∧ v.Offends f.types.pool e) ∧
      ∀ e, ((file f).run u).1 = .error (.error e) ↔
        ∃ before v after, f.visits = before ++ v :: after ∧ v.Offends f.types.pool e ∧
          ∀ w ∈ before, ∀ e', ¬w.Offends f.types.pool e' := by
  have hends := (traced_file hf u.nextTemp).ends
  have hrun : ((file f).run u).1 = (file f u.nextTemp).1 := rfl
  rw [hrun] at hs ⊢
  cases hr : (file f u.nextTemp).1 with
  | ok ss =>
    rw [hr] at hends
    have hnone := account_error_eq_none.1 hends.2
    refine ⟨⟨fun h => absurd rfl (h ss), ?_⟩, fun e => ⟨nofun, ?_⟩⟩
    · rintro ⟨v, e, hv, he⟩
      exact absurd he (hnone v (Source.File.mem_visits.2 hv) e)
    · intro h
      have hsome := account_error_eq_some.2 h
      rw [hends.2] at hsome
      cases hsome
  | error stop =>
    rw [hr] at hends
    cases stop with
    | fault fault => exact absurd hr (hs fault hends)
    | error err =>
      refine ⟨⟨fun _ => ?_, fun _ => nofun⟩, fun e => ?_⟩
      · obtain ⟨before, v, after, hvisits, hv, -⟩ := account_error_eq_some.1 hends
        exact ⟨v, err, Source.File.mem_visits.1 (by simp [hvisits]), hv⟩
      · rw [← account_error_eq_some, hends]
        simp

/-- `[...a] = x.go(...b, super)` -/
def offendingCall : Source.File where
  path := "offending.ts"
  arena :=
    ⟨#[⟨.ident "a", ⟨4, 5⟩⟩, ⟨.spread ⟨0⟩, ⟨1, 5⟩⟩, ⟨.array ⟨0, 1⟩, ⟨0, 6⟩⟩,
      ⟨.ident "x", ⟨9, 10⟩⟩, ⟨.property ⟨3⟩ "go", ⟨9, 13⟩⟩, ⟨.ident "b", ⟨17, 18⟩⟩,
      ⟨.spread ⟨5⟩, ⟨14, 18⟩⟩, ⟨.super, ⟨20, 25⟩⟩, ⟨.call ⟨4⟩ ⟨1, 2⟩, ⟨9, 26⟩⟩,
      ⟨.binary .assign ⟨2⟩ ⟨8⟩, ⟨0, 26⟩⟩], #[⟨1⟩, ⟨6⟩, ⟨7⟩], #[]⟩
  types := .fresh
  stmts := [⟨.expr ⟨9⟩, ⟨0, 26⟩⟩]

/-- Two spreads and a `super` offend as well, but the call is visited before them. -/
theorem file_stops_offendingCall :
    offendingCall.WellFormed ∧
      ((file offendingCall).run .empty).1 = .error (.error (.unresolvedCallee ⟨9, 26⟩ "go")) ∧
      (∃ v e, offendingCall.Live v ∧ v.Offends offendingCall.types.pool e) ∧
      ∃ before v after, offendingCall.visits = before ++ v :: after ∧
        v.Offends offendingCall.types.pool (.unresolvedCallee ⟨9, 26⟩ "go") ∧
        ∀ w ∈ before, ∀ e', ¬w.Offends offendingCall.types.pool e' := by
  have hf : offendingCall.WellFormed := ⟨by decide, by decide⟩
  have hrun : ((file offendingCall).run .empty).1 =
      .error (.error (.unresolvedCallee ⟨9, 26⟩ "go")) := rfl
  have h := file_stops_iff hf .empty fun fault _ hfault => by
    rw [hrun] at hfault
    cases hfault
  refine ⟨hf, hrun, h.1.1 fun ss hss => ?_, (h.2 _).1 hrun⟩
  rw [hrun] at hss
  cases hss

/-! ### Reports -/

/-- A well-formed file that is lowered has reported what its visits report, one
after another, and no more.  Its strict form, in which error nodes stand for the
loose comparisons, is lowered to the same code. -/
theorem file_reports {f : Source.File} (hf : f.WellFormed) {u u' : UnitState}
    {ss : List Target.Stmt} (h : (file f).run u = (.ok ss, u')) :
    u'.diagnostics.toList =
        u.diagnostics.toList ++ f.visits.flatMap (Visit.reports f.types.pool) ∧
      f.strict.body = f.body.map Source.Stmt.strict ∧
      ∃ u'', (file f.strict).run u = (.ok ss, u'') ∧ u''.temps = u'.temps ∧
        u''.helpers = u'.helpers := by
  have hx := traced_file hf u.nextTemp
  rw [run_eq] at h
  obtain ⟨hok, rfl⟩ := Prod.mk.inj h
  have hends := hx.ends
  rw [hok] at hends
  refine ⟨?_, Source.File.body_strict hf, u.extend (file f.strict u.nextTemp).2, ?_, ?_, ?_⟩
  · simp [UnitState.extend, hends.1, account]
  · rw [run_eq, hx.result, hok]
  · exact congrArg (u.temps ++ ·.toArray) (Effects.temps_eq_of_muted hx.muted)
  · exact congrArg (u.helpers ∪ ·) (Effects.helpers_eq_of_muted hx.muted)

/-- `f(x, a == (b != c))`, where `f` and `x` have the type any -/
def looseArgument : Source.File where
  path := "loose.ts"
  arena :=
    ⟨#[⟨.ident "f", ⟨0, 1⟩⟩, ⟨.ident "x", ⟨2, 3⟩⟩, ⟨.ident "a", ⟨5, 6⟩⟩, ⟨.ident "b", ⟨11, 12⟩⟩,
      ⟨.ident "c", ⟨16, 17⟩⟩, ⟨.binary (.loose .notEq) ⟨3⟩ ⟨4⟩, ⟨11, 17⟩⟩,
      ⟨.paren ⟨5⟩, ⟨10, 18⟩⟩, ⟨.binary (.loose .eq) ⟨2⟩ ⟨6⟩, ⟨5, 18⟩⟩,
      ⟨.call ⟨0⟩ ⟨0, 2⟩, ⟨0, 19⟩⟩], #[⟨1⟩, ⟨7⟩], #[]⟩
  types := (TypeTable.fresh.record ⟨0⟩ .any).record ⟨1⟩ .any
  stmts := [⟨.expr ⟨8⟩, ⟨0, 19⟩⟩]

/-- Callee, argument and comparison are reported; what the comparison compares is not. -/
theorem file_reports_looseArgument :
    looseArgument.WellFormed ∧ ∃ u u', (file looseArgument).run .empty =
      (.ok [.call (.call (.ident "f") [.ident "x", .placeholder])], u) ∧
      u.diagnostics.toList.map (fun d => (d.kind, d.span)) =
        [(.anyValue, ⟨0, 1⟩), (.anyValue, ⟨2, 3⟩), (.looseEquals, ⟨5, 18⟩)] ∧
      (file looseArgument.strict).run .empty =
        (.ok [.call (.call (.ident "f") [.ident "x", .placeholder])], u') := by
  have hf : looseArgument.WellFormed := ⟨by decide, by decide⟩
  obtain ⟨hreports, -, u', hstrict, -⟩ := file_reports hf (u := .empty) rfl
  exact ⟨hf, _, u', rfl, by rw [hreports]; rfl, hstrict⟩

end ScriptLowering.Lower
