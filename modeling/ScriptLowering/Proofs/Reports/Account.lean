import ScriptLowering.Lowering.Call.Form
import ScriptLowering.Proofs.Source.Visits

/-!
# What a visit reports

Each visited node reports at most two recoverable diagnostics and may have a hard
error of its own.  The account of a list of visits holds all their reports, and
the error of the first visit that has one.

    v.error? pool = some e ↔ v.Offends pool e                          (error?_eq_some)
    account (vs ++ ws) = account vs ++ account ws                        (account_append)
-/

namespace ScriptLowering

open Source (NodeInfo Role Visit)

/-! ## Algorithm -/

namespace Lower

/-- The report on a node of the type any. -/
def anyReports (pool : TypePool) (info : NodeInfo) : List Diagnostic :=
  if pool.has info.ty .any then
    [.error .anyValue info.span
      "using values of type `any` is not supported, use `unknown` instead"]
  else []

/-- The report on a loose comparison. -/
def looseReport (op : Source.LooseOp) (span : Span) : Diagnostic :=
  match op with
  | .eq => .error .looseEquals span "operator `==` is not supported, use `===` instead"
  | .notEq => .error .looseNotEquals span "operator `!=` is not supported, use `!==` instead"

/-- The error in place of a result, if there is one. -/
def errorOf {α : Type} : Except LowerError α → Option LowerError
  | .ok _ => none
  | .error e => some e

end Lower

open Lower

/-- The span that an error at a node in the role is about. -/
def Source.Role.errorSpan (own : Span) : Role → Span
  | .callee call => call
  | .statement | .argument _ | .part => own

namespace Source.Visit

/-- The node goes into a call as its callee or as an argument that is no spread. -/
def entersCall (v : Visit) : Bool :=
  match v.role with
  | .callee _ => true
  | .argument _ => !v.node.isSpread
  | .statement | .part => false

/-- The recoverable diagnostics of a node. -/
def reports (pool : TypePool) (v : Visit) : List Diagnostic :=
  (if v.entersCall then anyReports pool v.node.info else []) ++
    match v.node with
    | .binary info (.loose op) _ _ => [looseReport op info.span]
    | _ => []

/-- The node has this hard error. -/
inductive Offends (pool : TypePool) : Visit → LowerError → Prop
  /-- A spread that is not the last argument of a call. -/
  | spread {role : Role} {info : NodeInfo} {inner : Expr} (h : role ≠ .argument true) :
    Offends pool ⟨role, .spread info inner⟩ (.misplacedSpread info.span)
  /-- A call of a property to which no rule applies and that has no signature. -/
  | unresolved {role : Role} {info calleeInfo : NodeInfo} {object : Expr} {member : String}
      {args : List Expr}
      (hrule : CallRule.find (.ofType pool object.ty) member args.length = .generic)
      (hnone : pool.callSignatures calleeInfo.ty = []) :
    Offends pool ⟨role, .call info (.property calleeInfo object member) args⟩
      (.unresolvedCallee info.span member)
  /-- A call of a property to which no rule applies and whose signatures disagree. -/
  | mixed {role : Role} {info calleeInfo : NodeInfo} {object : Expr} {member : String}
      {args : List Expr}
      (hrule : CallRule.find (.ofType pool object.ty) member args.length = .generic)
      (hmethod : ∃ s ∈ pool.callSignatures calleeInfo.ty, s.isMethodStyle = false)
      (hcallback : ∃ s ∈ pool.callSignatures calleeInfo.ty, s.isCallbackStyle = false) :
    Offends pool ⟨role, .call info (.property calleeInfo object member) args⟩
      (.mixedCall info.span)
  /-- A call that stands for an operator and is a statement of its own. -/
  | operator {info calleeInfo : NodeInfo} {object : Expr} {member : String} {args : List Expr}
      {op : Target.ArithmeticOp} {className : String}
      (hrule : CallRule.find (.ofType pool object.ty) member args.length = .operator op className) :
    Offends pool ⟨.statement, .call info (.property calleeInfo object member) args⟩
      (.mathStatement info.span className member)
  /-- A `super` that stands for no class. -/
  | super {role : Role} {info : NodeInfo} (h : pool.symbolName? info.ty = none) :
    Offends pool ⟨role, .super info⟩ (.unresolvedCallee (role.errorSpan info.span) "super")

/-- The hard error of a node. -/
def error? (pool : TypePool) (v : Visit) : Option LowerError :=
  match v.node with
  | .spread info _ => if v.role = .argument true then none else some (.misplacedSpread info.span)
  | .call info (.property calleeInfo object member) args =>
    match CallRule.find (.ofType pool object.ty) member args.length with
    | .generic => errorOf (isMethodCall pool calleeInfo.ty member info.span)
    | .operator _ className =>
      if v.role = .statement then some (.mathStatement info.span className member) else none
    | .helper _ | .nativeString | .renamedMethod _ | .renamedField _ => none
  | .super info => errorOf (superClass pool info.ty (v.role.errorSpan info.span))
  | _ => none

end Source.Visit

namespace Lower

/-- Recoverable diagnostics, and the first hard error. -/
@[ext]
structure Account where
  reports : List Diagnostic
  error : Option LowerError

namespace Account

def empty : Account := ⟨[], none⟩

instance : Append Account := ⟨fun a b => ⟨a.reports ++ b.reports, a.error.or b.error⟩⟩

end Account

/-- What the visits report, and the error of the first of them that has one. -/
def account (pool : TypePool) (vs : List Visit) : Account :=
  ⟨vs.flatMap (Visit.reports pool), vs.findSome? (Visit.error? pool)⟩

/-! ## Lemmas -/

/-! ### Errors -/

theorem isMethodCall_eq_error {pool : TypePool} {ty : TypeId} {member : String} {span : Span}
    {e : LowerError} :
    isMethodCall pool ty member span = .error e ↔
      (pool.callSignatures ty = [] ∧ e = .unresolvedCallee span member) ∨
      ((∃ s ∈ pool.callSignatures ty, s.isMethodStyle = false) ∧
        (∃ s ∈ pool.callSignatures ty, s.isCallbackStyle = false) ∧ e = .mixedCall span) := by
  unfold isMethodCall
  simp only [List.isEmpty_iff]
  split
  next h =>
    simp only [h, true_and, List.not_mem_nil, false_and, exists_false, or_false,
      Except.error.injEq]
    exact eq_comm
  next h =>
    split
    next hm => simp_all
    next hm =>
      split
      next hc => simp_all
      next hc =>
        simp only [Bool.not_eq_true, List.all_eq_false] at hm hc
        simp only [h, hm, hc, false_and, false_or, true_and, Except.error.injEq]
        exact eq_comm

theorem errorOf_eq_some {α : Type} {x : Except LowerError α} {e : LowerError} :
    errorOf x = some e ↔ x = .error e := by
  cases x <;> simp [errorOf]

theorem superClass_eq_error {pool : TypePool} {ty : TypeId} {span : Span} {e : LowerError} :
    superClass pool ty span = .error e ↔
      pool.symbolName? ty = none ∧ e = .unresolvedCallee span "super" := by
  unfold superClass
  cases pool.symbolName? ty with
  | none => exact ⟨fun h => ⟨rfl, (Except.error.inj h).symm⟩, fun h => congrArg _ h.2.symm⟩
  | some name => exact ⟨nofun, nofun⟩

end Lower

namespace Source.Visit

variable {pool : TypePool} {v : Visit} {e : LowerError}

theorem error?_of_offends (h : v.Offends pool e) : v.error? pool = some e := by
  cases h with
  | spread h => simp [error?, h]
  | unresolved hrule hnone =>
    simp only [error?, hrule]
    exact errorOf_eq_some.2 (isMethodCall_eq_error.2 (.inl ⟨hnone, rfl⟩))
  | mixed hrule hmethod hcallback =>
    simp only [error?, hrule]
    exact errorOf_eq_some.2 (isMethodCall_eq_error.2 (.inr ⟨hmethod, hcallback, rfl⟩))
  | operator hrule => simp [error?, hrule]
  | super h =>
    simp only [error?]
    exact errorOf_eq_some.2 (superClass_eq_error.2 ⟨h, rfl⟩)

theorem offends_of_error? (h : v.error? pool = some e) : v.Offends pool e := by
  rcases v with ⟨role, node⟩
  unfold error? at h
  split at h
  next info inner heq =>
    cases heq
    split at h <;> cases h
    next hrole => exact .spread hrole
  next info calleeInfo object member args heq =>
    cases heq
    split at h
    next hrule =>
      rcases isMethodCall_eq_error.1 (errorOf_eq_some.1 h) with ⟨hnone, rfl⟩ | ⟨hm, hc, rfl⟩
      · exact .unresolved hrule hnone
      · exact .mixed hrule hm hc
    next op className hrule =>
      split at h <;> cases h
      next hrole =>
        cases hrole
        exact .operator hrule
    all_goals cases h
  next info heq =>
    cases heq
    obtain ⟨hname, rfl⟩ := superClass_eq_error.1 (errorOf_eq_some.1 h)
    exact .super hname
  next => cases h

theorem error?_eq_some : v.error? pool = some e ↔ v.Offends pool e :=
  ⟨offends_of_error?, error?_of_offends⟩

theorem error?_eq_none : v.error? pool = none ↔ ∀ e, ¬v.Offends pool e := by
  simp only [Option.eq_none_iff_forall_ne_some, ne_eq, error?_eq_some]

end Source.Visit

namespace Lower

/-! ### Accounts -/

namespace Account

@[simp] theorem reports_append (a b : Account) : (a ++ b).reports = a.reports ++ b.reports := rfl

@[simp] theorem error_append (a b : Account) : (a ++ b).error = a.error.or b.error := rfl

@[simp] theorem empty_append (a : Account) : empty ++ a = a := rfl

@[simp] theorem append_empty (a : Account) : a ++ empty = a :=
  Account.ext (List.append_nil _) (Option.or_none)

theorem append_assoc (a b c : Account) : a ++ b ++ c = a ++ (b ++ c) :=
  Account.ext (List.append_assoc ..) (Option.or_assoc ..)

end Account

variable {pool : TypePool}

theorem account_append (vs ws : List Visit) :
    account pool (vs ++ ws) = account pool vs ++ account pool ws :=
  Account.ext (List.flatMap_append ..) (List.findSome?_append ..)

theorem account_cons (v : Visit) (vs : List Visit) :
    account pool (v :: vs) = ⟨v.reports pool, v.error? pool⟩ ++ account pool vs :=
  Account.ext List.flatMap_cons <| by
    show List.findSome? _ _ = (v.error? pool).or _
    rw [List.findSome?_cons]
    cases v.error? pool <;> rfl

end Lower

end ScriptLowering
