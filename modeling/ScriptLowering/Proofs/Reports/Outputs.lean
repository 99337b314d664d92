import ScriptLowering.Proofs.Lowering.Files
import ScriptLowering.Proofs.Reports.Expressions

/-!
# The diagnostics of an output

The diagnostics of a compiled file are what its checks report, then recoverable
errors of lowering, then at most one hard error.  Which of these are there tells
whether the file has code, and only the first depend on the checks.

    x recovers: with or without a result, it reports only recoverable errors        (Recovers)
    o.diagnostics = checks ++ recoverable ++ hard                           (compileFile_parts)
-/

namespace ScriptLowering

open Check (Checklist)

/-- An error of a kind that does not end lowering. -/
def Diagnostic.IsRecoverable (d : Diagnostic) : Prop :=
  d.isError ∧ d.kind ∈ [.looseEquals, .looseNotEquals, .anyValue]

namespace Lower

open Source (Visit)

variable {α β : Type} {pool : TypePool}

/-- The action reports recoverable errors only, whether or not it has a result. -/
def Recovers (x : Lower α) : Prop := ∀ n, ∀ d ∈ (x n).2.diagnostics, d.IsRecoverable

/-! ## Lemmas -/

theorem isRecoverable_of_mem_reports {v : Visit} {d : Diagnostic} (h : d ∈ v.reports pool) :
    d.IsRecoverable := by
  unfold Visit.reports at h
  rcases List.mem_append.1 h with h | h
  · unfold anyReports at h
    split at h
    · split at h
      · obtain rfl := List.mem_singleton.1 h
        exact ⟨rfl, by simp [Diagnostic.error]⟩
      · cases h
    · cases h
  · split at h
    next op _ _ _ =>
      obtain rfl := List.mem_singleton.1 h
      cases op <;> exact ⟨rfl, by simp [looseReport, Diagnostic.error]⟩
    next => cases h

/-- What has an account reports nothing but what its visits report. -/
theorem Traced.recovers {vs : List Visit} {x y : Lower α} (h : Traced (account pool vs) x y) :
    Recovers x := by
  intro n d hd
  obtain ⟨v, -, hv⟩ := List.mem_flatMap.1 ((h n).reports.subset hd)
  exact isRecoverable_of_mem_reports hv

namespace Recovers

theorem pure (a : α) : Recovers (pure a) := fun _ => nofun

theorem ofFault (x : Except Fault α) : Recovers (ofFault x) := by
  cases x <;> exact fun _ => nofun

theorem bind {x : Lower α} {f : α → Lower β} (hx : Recovers x) (hf : ∀ a, Recovers (f a)) :
    Recovers (x >>= f) := by
  intro n d hd
  have h := hx n
  rw [bind_apply] at hd
  revert h hd
  rcases x n with ⟨_ | a, e⟩
  · exact fun hd h => h d hd
  · intro hd h
    rcases List.mem_append.1 hd with hd | hd
    · exact h d hd
    · exact hf a _ d hd

end Recovers

theorem recovers_statements (trees : Source.Forest) (ss : List (Source.Stmt ExprId)) :
    Recovers (statements pool trees ss) := by
  induction ss with
  | nil => exact .pure []
  | cons s ss ih =>
    apply (Recovers.ofFault (s.read trees)).bind
    intro stmt
    apply (traced_topLevel stmt).recovers.bind
    intro first
    apply ih.bind
    intro rest
    exact .pure _

theorem recovers_file (f : Source.File) : Recovers (file f) := recovers_statements _ _

/-! ### Outputs -/

/-- What follows the reports of checks without errors is up to lowering: it faults, or
there are recoverable errors and then code or one hard error. -/
theorem compileFile_of_no_errors (f : Source.File) :
    (∃ fault, ∀ c : Checklist, (c.run f).any (·.isError) = false →
      compileFile c f = .error fault) ∨
    ∃ stmts temps helpers R H, (∀ c : Checklist, (c.run f).any (·.isError) = false →
        compileFile c f = .ok ⟨f.path, stmts, temps, c.run f ++ R ++ H, helpers⟩) ∧
      (∀ d ∈ R, d.IsRecoverable) ∧
      (H = [] ∧ stmts.isSome ∨ ∃ d, H = [d] ∧ d.isError ∧ d.kind.isHard ∧ stmts = none) := by
  have hrecover := recovers_file f 0
  rcases hfile : Lower.file f 0 with ⟨⟨err | fault⟩ | ss, e⟩ <;> rw [hfile] at hrecover
  · refine .inr ⟨none, e.temps.toArray, e.helpers, e.diagnostics, [err.toDiagnostic],
      fun c hc => ?_, hrecover, .inr ⟨_, rfl, rfl, err.isHard_kind, rfl⟩⟩
    rw [compileFile_eq, hc, hfile]
    rfl
  · refine .inl ⟨fault, fun c hc => ?_⟩
    rw [compileFile_eq, hc, hfile]
    rfl
  · refine .inr ⟨some ss, e.temps.toArray, e.helpers, e.diagnostics, [],
      fun c hc => ?_, hrecover, .inl ⟨rfl, rfl⟩⟩
    rw [compileFile_eq, hc, hfile, List.append_nil]
    rfl

/-- The diagnostics of an output are those of the checks, then `R`, then `H`.  If
the checks report an error there is nothing else, and no code.  Otherwise `R` are
recoverable errors, and `H` is empty and there is code, or `H` is one hard error
and there is none.  So a successful output has code; and other checks that report
the same in another order change nothing but that order. -/
theorem compileFile_parts {c : Checklist} {f : Source.File} {o : FileOutput}
    (h : compileFile c f = .ok o) :
    ∃ R H, o.diagnostics = c.run f ++ R ++ H ∧
      ((∃ d ∈ c.run f, d.isError) →
        R = [] ∧ H = [] ∧ o.stmts = none ∧ o.temps = #[] ∧ o.helpers = .empty) ∧
      ((∀ d ∈ c.run f, d.isError = false) → (∀ d ∈ R, d.IsRecoverable) ∧
        (H = [] ∧ o.stmts.isSome ∨
          ∃ d, H = [d] ∧ d.isError ∧ d.kind.isHard ∧ o.stmts = none)) ∧
      (o.isSuccess → o.stmts.isSome) ∧
      ∀ c' : Checklist, c.checks.Perm c'.checks → (c.run f).Perm (c'.run f) ∧
        compileFile c' f = .ok { o with diagnostics := c'.run f ++ R ++ H } := by
  have hperm (c' : Checklist) (hc : c.checks.Perm c'.checks) :
      (c.run f).Perm (c'.run f) ∧ (c'.run f).any (·.isError) = (c.run f).any (·.isError) :=
    ⟨Check.Checklist.run_perm hc f, ((Check.Checklist.run_perm hc f).any_eq).symm⟩
  cases herrors : (c.run f).any (·.isError) with
  | true =>
    obtain ⟨d, hd, he⟩ := List.any_eq_true.1 herrors
    rw [compileFile_eq, if_pos herrors] at h
    cases h
    refine ⟨[], [], by simp, fun _ => ⟨rfl, rfl, rfl, rfl, rfl⟩, fun hnone => ?_, fun hs => ?_,
      fun c' hc => ⟨(hperm c' hc).1, ?_⟩⟩
    · rw [hnone d hd] at he
      cases he
    · simp [FileOutput.isSuccess, herrors] at hs
    · rw [compileFile_eq, if_pos ((hperm c' hc).2.trans herrors)]
      simp
  | false =>
    rcases compileFile_of_no_errors f with
      ⟨fault, hfault⟩ | ⟨stmts, temps, helpers, R, H, hout, hR, hH⟩
    · rw [hfault c herrors] at h
      cases h
    rw [hout c herrors] at h
    cases h
    refine ⟨R, H, rfl, fun herror => ?_, fun _ => ⟨hR, hH⟩, fun hs => ?_,
      fun c' hc => ⟨(hperm c' hc).1, hout c' ((hperm c' hc).2.trans herrors)⟩⟩
    · exact absurd (List.any_eq_true.2 herror) (by simp [herrors])
    · rcases hH with ⟨-, hcode⟩ | ⟨d, rfl, hd, -, -⟩
      · exact hcode
      · simp [FileOutput.isSuccess, hd] at hs

/-- `f(...x, y)`, where `f` has the type any -/
def misplacedArgument : Source.File where
  path := "spread.ts"
  arena :=
    ⟨#[⟨.ident "f", ⟨0, 1⟩⟩, ⟨.ident "x", ⟨5, 6⟩⟩, ⟨.spread ⟨1⟩, ⟨2, 6⟩⟩, ⟨.ident "y", ⟨8, 9⟩⟩,
      ⟨.call ⟨0⟩ ⟨0, 2⟩, ⟨0, 10⟩⟩], #[⟨2⟩, ⟨3⟩], #[]⟩
  types := TypeTable.fresh.record ⟨0⟩ .any
  stmts := [⟨.expr ⟨4⟩, ⟨0, 10⟩⟩]

/-- Two checks that warn of every file. -/
def warningChecks : Checklist :=
  ⟨[fun _ => [.warning .badFileName .dummy "short name"],
    fun _ => [.warning .nonModule .dummy "no export"]]⟩

/-- The callee is reported, and then the spread stops the file, in either order of the checks. -/
theorem compileFile_parts_misplacedArgument :
    ∃ o R H, compileFile warningChecks misplacedArgument = .ok o ∧
      o.diagnostics = warningChecks.run misplacedArgument ++ R ++ H ∧
      (∀ d ∈ R, d.IsRecoverable) ∧ (H = [] ∧ o.stmts.isSome ∨
        ∃ d, H = [d] ∧ d.isError ∧ d.kind.isHard ∧ o.stmts = none) ∧
      warningChecks.checks.Perm warningChecks.checks.reverse ∧
      compileFile ⟨warningChecks.checks.reverse⟩ misplacedArgument = .ok { o with
        diagnostics :=
          (Checklist.mk warningChecks.checks.reverse).run misplacedArgument ++ R ++ H } := by
  have hperm : warningChecks.checks.Perm warningChecks.checks.reverse :=
    (List.reverse_perm _).symm
  have ho : compileFile warningChecks misplacedArgument = .ok
      ⟨"spread.ts", none, #[], warningChecks.run misplacedArgument ++
        [.error .anyValue ⟨0, 1⟩
          "using values of type `any` is not supported, use `unknown` instead"] ++
        [(LowerError.misplacedSpread ⟨2, 6⟩).toDiagnostic], .empty⟩ := by
    rw [compileFile_eq]
    rfl
  obtain ⟨R, H, hd, -, hlowered, -, hchecks⟩ := compileFile_parts ho
  obtain ⟨hR, hH⟩ := hlowered (by decide)
  exact ⟨_, R, H, ho, hd, hR, hH, hperm, (hchecks _ hperm).2⟩

end Lower

end ScriptLowering
