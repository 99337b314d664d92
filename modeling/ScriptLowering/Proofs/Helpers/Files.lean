import ScriptLowering.Proofs.Helpers.Expressions
import ScriptLowering.Proofs.Lowering.Files

/-!
# Helpers of a file

The statements of a file are lowered with nothing left to run before them, so what
they refer to is all that the file refers to: the helpers of the output are the
namespaces that its statements name.

    file f flagged, and quiet                           (flagged_statements, quiet_statements)
    o.helpers.contains k ↔ the statements name TS.k               (compileFile_helpers)
-/

namespace ScriptLowering.Lower

open Refers (refers proper)
open Source.Expr (KeepsHelpers)
open Target (Expr Stmt)
open Target.Stmt (membersAll)

variable {h : Helper} {pool : TypePool}

/-- The action leaves no statement to run before others, with or without a result. -/
def Quiet {α : Type} (x : Lower α) : Prop := ∀ n, (x n).2.stmts = []

/-! ### Quiet actions -/

namespace Quiet

variable {α β : Type}

theorem capture (x : Lower α) : Quiet x.capture := stmts_capture x

theorem pure (a : α) : Quiet (pure a : Lower α) := fun _ => rfl

theorem bind {x : Lower α} {f : α → Lower β} (hx : Quiet x) (hf : ∀ a, Quiet (f a)) :
    Quiet (x >>= f) := by
  intro n
  have h := hx n
  rw [bind_apply]
  rcases hr : x n with ⟨r, e⟩
  rw [hr] at h
  cases r with
  | error s => exact h
  | ok a =>
    have hnext := hf a (n + e.temps.length)
    show e.stmts ++ (f a (n + e.temps.length)).2.stmts = []
    rw [hnext, List.append_nil]
    exact h

end Quiet

theorem quiet_expressionStatement (pool : TypePool) (e : Source.Expr) :
    Quiet (expressionStatement pool e) := (Quiet.capture _).bind fun _ => .pure _

theorem quiet_topLevel (pool : TypePool) (s : Source.Stmt Source.Expr) :
    Quiet (topLevel pool s) := by
  rcases s with ⟨kind, span⟩
  cases kind with
  | expr e => exact quiet_expressionStatement pool e
  | letDecl name init =>
    cases init with
    | none => exact .pure _
    | some e => exact (Quiet.capture _).bind fun _ => .pure _
  | importDecl | exportDecl => exact .pure _

/-! ### Statements -/

theorem refers_discard (e : Expr) : refers h (discard e) ↔ refers h e := by
  have none : refers h (none : Option Stmt) ↔ False := by simp [refers]
  have some (s : Stmt) : refers h (some s) ↔ refers h s := by simp [refers]
  unfold discard
  split
  · exact some (.call e)
  · split
    next hident =>
      rw [none, Expr.not_refers_of_isSimple (Expr.isSimple_of_isIdentifier hident)]
    next => exact some (.declare .discard (.some e))

theorem refers_toList (last : Option Stmt) : refers h last.toList ↔ refers h last := by
  simp [refers]

theorem flagged_statementBody {e : Source.Expr} (he : e.Everywhere (KeepsHelpers pool)) :
    Flagged h (statementBody pool e) False := by
  have node {c : Source.Expr} (hc : c ∈ e.children) : FlaggedNode h pool c :=
    flagged_node h (he.parts c hc)
  have drop {x : Lower Expr} (hx : Flagged h x False) : Flagged h (discard <$> x) False :=
    hx.map fun v _ => ⟨fun _ _ => trivial, refers_discard v⟩
  have one {x : Lower Stmt} (hx : Flagged h x False) : Flagged h (some <$> x) False :=
    hx.map fun _ _ => ⟨fun _ _ => trivial, by simp [refers]⟩
  have value : Flagged h (discard <$> value pool e) False := drop (flagged_node h he).value
  cases e with
  | binary info op l r =>
    have hl := node (c := l) (by simp [Source.Expr.children])
    have hr := node (c := r) (by simp [Source.Expr.children])
    by_cases hdrop : l.isPattern = true ∨ op.isAssignment = false
    · rw [statementBody_binary pool info l r op hdrop]
      exact value
    obtain ⟨hp, hop⟩ : l.isPattern = false ∧ op.isAssignment = true := by simpa using hdrop
    rcases (Source.BinaryOp.isAssignment_iff op).1 hop with rfl | ⟨op, rfl⟩
    · rw [statementBody_assign pool info l r hp]
      exact one (flagged_assignStatement hl.reference hr.value)
    · rw [statementBody_assignWith pool info l r op hp]
      exact one (flagged_compoundStatement hl.reference hr.value)
  | prefixed info op inner =>
    have hi := node (c := inner) (by simp [Source.Expr.children])
    cases op with
    | update op => exact one (flagged_updateStatement op hi.reference)
    | _ => exact value
  | postfixed info op inner =>
    have hi := node (c := inner) (by simp [Source.Expr.children])
    exact one (flagged_updateStatement op hi.reference)
  | call info callee args =>
    obtain ⟨hf, ha⟩ := List.forall_mem_cons.1 he.parts
    have parts {c : Source.Expr} (hc : c.Everywhere (KeepsHelpers pool)) :
        ∀ d ∈ c.children, FlaggedNode h pool d := fun d hd => flagged_node h (hc.parts d hd)
    exact drop (flagged_call he.here.constructor (flagged_node h hf) (parts hf)
      (fun c hc => flagged_node h (ha c hc)) (fun c hc => parts (ha c hc)) .statement)
  | _ => exact value

theorem flagged_topLevel {s : Source.Stmt Source.Expr}
    (hs : ∀ e ∈ s.expr?, e.Everywhere (KeepsHelpers pool)) : Flagged h (topLevel pool s) False := by
  have nothing : Flagged h (pure ([] : List Stmt)) False := .pure (by simp) (by simp)
  rcases s with ⟨kind, span⟩
  cases kind with
  | expr e =>
    apply (flagged_statementBody (hs e rfl)).capture.bind
    rintro ⟨last, ss⟩ -
    refine .pure (fun _ _ => trivial) ?_
    rw [refers_append, refers_toList, or_comm, refers_pair]
  | letDecl name init =>
    cases init with
    | none => exact .pure (fun _ _ => trivial) (by simp [refers])
    | some e =>
      apply (flagged_node h (hs e rfl)).value.capture.bind
      rintro ⟨v, ss⟩ -
      have hlast : refers h [Stmt.declare (.name name) (some v)] ↔ refers h v :=
        (refers_cons _ _).trans (or_iff_left refers_nil.1)
      refine .pure (fun _ _ => trivial) ?_
      rw [refers_append, hlast, or_comm, refers_pair]
  | importDecl | exportDecl => exact nothing

/-- Each statement refers to what it flags, and so do all of them. -/
theorem flagged_statements {trees : Source.Forest} {stmts : List (Source.Stmt ExprId)}
    (hs : ∀ s ∈ stmts, ∀ s', s.read trees = .ok s' → ∀ e ∈ s'.expr?,
      e.Everywhere (KeepsHelpers pool)) :
    Flagged h (statements pool trees stmts) False := by
  induction stmts with
  | nil => exact .pure (by simp) (by simp)
  | cons s rest ih =>
    obtain ⟨hfirst, hrest⟩ := List.forall_mem_cons.1 hs
    apply Flagged.ofFault_bind
    intro s' hread
    apply (flagged_topLevel (hfirst s' hread)).bind
    intro ss _
    apply (ih hrest).bind_fresh
    intro ss' _
    exact .pure (fun _ _ => trivial) (refers_append ss ss')

theorem quiet_statements (pool : TypePool) (trees : Source.Forest)
    (stmts : List (Source.Stmt ExprId)) : Quiet (statements pool trees stmts) := by
  induction stmts with
  | nil => exact .pure []
  | cons s rest ih =>
    have read : Quiet (ofFault (s.read trees)) := by
      cases s.read trees <;> exact fun _ => rfl
    apply read.bind
    intro s'
    apply (quiet_topLevel pool s').bind
    intro ss
    apply ih.bind
    intro ss'
    exact .pure (ss ++ ss')

/-! ### Files -/

/-- Where no name of the source is that of the support library and the constructor
of objects is called by a name, the statements of the output name a namespace of the
library if and only if it is among the output's helpers. -/
theorem compileFile_helpers {c : Check.Checklist} {f : Source.File} {o : FileOutput}
    {ss : List Stmt} (hc : compileFile c f = .ok o) (hss : o.stmts = some ss)
    (hk : f.Everywhere (KeepsHelpers f.types.pool)) (k : Helper) :
    o.helpers.contains k = true ↔ k.field ∈ membersAll "TS" ss := by
  obtain ⟨e, hf, rfl⟩ := compileFile_output hc hss
  have hflagged : refers k e.stmts ∨ refers k ss ↔ False ∨ e.helpers.contains k = true :=
    (flagged_statements hk hf).2
  have hquiet : (file f 0).2.stmts = [] :=
    quiet_statements f.types.pool (f.arena.trees f.types) f.stmts 0
  rw [hf] at hquiet
  rw [hquiet, refers_nil, false_or, false_or] at hflagged
  rw [← refers_membersAll, hflagged]

/-- `[a] = Object.keys(x)` -/
def destructuredKeys : Source.File where
  path := "keys.ts"
  arena :=
    ⟨#[⟨.ident "a", .dummy⟩, ⟨.array ⟨0, 1⟩, .dummy⟩, ⟨.ident "Object", .dummy⟩,
      ⟨.property ⟨2⟩ "keys", .dummy⟩, ⟨.ident "x", .dummy⟩, ⟨.call ⟨3⟩ ⟨1, 1⟩, .dummy⟩,
      ⟨.binary .assign ⟨1⟩ ⟨5⟩, .dummy⟩], #[⟨0⟩, ⟨4⟩], #[]⟩
  types := (TypeTable.ofPool
    (TypePool.fresh.object (some "ObjectConstructor") []).2).record ⟨2⟩ ⟨7⟩
  stmts := [⟨.expr ⟨6⟩, .dummy⟩]

def destructuredKeysCode : List Stmt :=
  [.declareTemp 0 (.call (helperMember .object "keys") [.ident "x"]),
    .declareTemp 1 (.call (helperMember .array "from") [.temp 0]),
    .assign (.ident "a") (.index (.temp 1) (.number .one))]

/-- The call needs the helpers of objects, and the pattern those of arrays. -/
theorem compileFile_helpers_destructuredKeys :
    ∃ o, compileFile .empty destructuredKeys = .ok o ∧ o.stmts = some destructuredKeysCode ∧
      destructuredKeys.Everywhere (KeepsHelpers destructuredKeys.types.pool) ∧
      o.helpers.toList = [.array, .object] ∧
      ∀ k, o.helpers.contains k = true ↔ k.field ∈ membersAll "TS" destructuredKeysCode := by
  have hcode : (file destructuredKeys 0).1 = .ok destructuredKeysCode := rfl
  have hfile : file destructuredKeys 0 =
      (.ok destructuredKeysCode, (file destructuredKeys 0).2) := by rw [← hcode]
  have hc := compileFile_empty hfile
  have hk : destructuredKeys.Everywhere (KeepsHelpers destructuredKeys.types.pool) := by
    let info : Source.NodeInfo := ⟨.dummy, .unknown⟩
    have hbody : destructuredKeys.body = [⟨.expr (.binary info .assign
        (.array info [.ident info "a"])
        (.call info (.property info (.ident ⟨.dummy, ⟨7⟩⟩ "Object") "keys") [.ident info "x"])),
        .dummy⟩] := rfl
    have leaf (i : Source.NodeInfo) {name : String} (hn : name ≠ "TS") :
        (Source.Expr.ident i name).Everywhere (KeepsHelpers destructuredKeys.types.pool) :=
      .mk ⟨hn, trivial⟩ nofun
    rw [Source.File.everywhere_iff, hbody]
    rintro _ (_ | ⟨_, ⟨⟩⟩) _ ⟨⟩
    refine .mk ⟨trivial, trivial⟩ (List.forall_mem_cons.2 ⟨?_, List.forall_mem_singleton.2 ?_⟩)
    · exact .mk ⟨trivial, trivial⟩ (List.forall_mem_singleton.2 (leaf _ (by decide)))
    · refine .mk ⟨trivial, fun _ => rfl⟩ (List.forall_mem_cons.2 ⟨?_, ?_⟩)
      · exact .mk ⟨trivial, trivial⟩ (List.forall_mem_singleton.2 (leaf _ (by decide)))
      · exact List.forall_mem_singleton.2 (leaf _ (by decide))
  exact ⟨_, hc, rfl, hk, rfl, compileFile_helpers hc rfl hk⟩

end ScriptLowering.Lower
