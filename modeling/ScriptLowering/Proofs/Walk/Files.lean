import ScriptLowering.Proofs.Lowering.Files
import ScriptLowering.Proofs.Walk.Nodes

/-!
# Walks over files

A file is walked statement by statement.  If it is well formed, so is its table of
types and its interner is ready, a walk as deep as the arena is long is the lowering
of the file, as long as there are ids for its temporaries.

    f and its types well formed, f ready, arena.size ≤ depth → file f depth = lift (Lower.file f)
                                                                                  (file_eq)
    the same, f resolved → compileFile f depth = compileFile f, or no ids are left  (compileFile_eq)
-/

namespace ScriptLowering.Walk

open Lower (WritableTarget)
open Target (Expr Stmt)

/-! ## Algorithm -/

section Algorithm

variable (f : NamedFile) (w : Walker)

/-- The value of an expression with the statements to run before it. -/
def expression (e : ExprId) : Walk (Expr × List Stmt) := capture (w.value e)

/-- A writable location with the statements to run before it is used. -/
def writableTarget (e : ExprId) (readAfterWrite : Bool) : Walk (WritableTarget × List Stmt) :=
  capture do
    let n ← node f e
    let place ← w.place e
    let place ← if readAfterWrite then pinPlace .repeated n.span place else pure place
    return .ofPlace place readAfterWrite

def updateStatement (op : Source.UpdateOp) (operand : ExprId) : Walk Stmt := do
  let place ← w.place operand
  return Lower.updateBy op place.toExpr

/-- The last statement of an expression statement. -/
def statementBody (e : ExprId) : Walk (Option Stmt) := do
  let n ← node f e
  match n.kind with
  | .binary op left right =>
    if op.isAssignment then
      let l ← node f left
      let rightTy := f.types.typeOf right
      if l.kind.isPattern then return Lower.discard (← valueOf f w e n)
      else if op.isCompoundAssignment then
        some <$> compoundStatement f op n.span (infoOf f left l) rightTy (w.place left)
          (w.value right)
      else some <$> assignStatement l.span (w.place left) (w.value right)
    else return Lower.discard (← valueOf f w e n)
  | .prefixed (.update op) operand => some <$> updateStatement w op operand
  | .postfixed op operand => some <$> updateStatement w op operand
  | .call callee args => return Lower.discard (← call f w .statement (infoOf f e n) callee args)
  | _ => return Lower.discard (← valueOf f w e n)

def expressionStatement (e : ExprId) : Walk (List Stmt) := do
  let (last, stmts) ← capture (statementBody f w e)
  return stmts ++ last.toList

def topLevel (s : Source.Stmt ExprId) : Walk (List Stmt) :=
  match s.kind with
  | .expr e => expressionStatement f w e
  | .letDecl name none => pure [.declare (.name name) none]
  | .letDecl name (some init) => do
    let (v, stmts) ← expression w init
    return stmts ++ [.declare (.name name) (some v)]
  | .importDecl _ | .exportDecl _ => pure []

def statements : List (Source.Stmt ExprId) → Walk (List Stmt)
  | [] => pure []
  | s :: rest => do
    let stmts ← topLevel f w s
    return stmts ++ (← statements rest)

/-- The statements of a file, its nodes nested at most so deep. -/
def file (depth : Nat) : Walk (List Stmt) := statements f (walker f depth) f.stmts

/-- The unit of a file that has been checked. -/
def checked (c : Check.Checklist) (f : Source.File) : UnitState :=
  UnitState.empty.extend { Effects.none with diagnostics := c.run f }

/-- Checks a file, enters the names of lowering and walks it. -/
def compileFile (depth : Nat) (c : Check.Checklist) : Except Panic FileOutput :=
  let unit := checked c f.toFile
  if unit.diagnostics.hasErrors then .ok (.ofUnit f.path none unit)
  else do
    let names ← f.names.enterAll loweringNames
    match ← file { f with names } depth ⟨[], unit⟩ with
    | (.ok stmts, l) => return .ofUnit f.path (some stmts) l.unit
    | (.error e, l) => return .ofUnit f.path none (l.unit.report e.toDiagnostic)

/-- How many temporaries the lowering of a file asks for. -/
def tempCount (f : Source.File) : Nat := (Lower.file f 0).2.temps.length

end Algorithm

/-! ## Lemmas -/

section WellFormed

variable {f : NamedFile} (hf : f.toFile.WellFormed) (htypes : f.types.WellFormed)
  (hready : f.Ready)
variable {w : Walker} {bound : Nat} (hw : Covers f w bound)
variable {e : ExprId} {t : Source.Expr}

include hf htypes hready hw

theorem statementBody_eq (he : e.index < bound + 1) (hread : f.Reads e t) :
    statementBody f w e = lift (Lower.statementBody f.types.pool t) := by
  obtain ⟨⟨kind, span⟩, hn⟩ := hread.node hf
  have hlt := part_lt hn he
  have dropped : (do return Lower.discard (← valueOf f w e ⟨kind, span⟩) : Walk (Option Stmt)) =
      lift (Lower.discard <$> Lower.value f.types.pool t) := by
    rw [valueOf_eq hf htypes hready hw hn he, lift_map, map_eq_pure_bind]
  have updated {c : ExprId} {t : Source.Expr} (hc : c.index < bound) (hr : f.Reads c t)
      (op : Source.UpdateOp) : some <$> updateStatement w op c =
        lift (some <$> Lower.updateStatement op (Lower.reference f.types.pool t)) := by
    simp only [updateStatement, (hw hc hr).place, Lower.updateStatement, map_eq_pure_bind,
      lift_bind, lift_pure]
  rw [statementBody, node_bind hn.node]
  cases hn.grows with
  | @binary op l r t u hl hr =>
    obtain ⟨hl', hr'⟩ := List.forall_mem_cons.1 (hlt [l, r] rfl)
    have hr' := List.forall_mem_singleton.1 hr'
    obtain ⟨n, hnl⟩ := hl.node hf
    obtain ⟨m, hnr⟩ := hr.node hf
    have hty : f.types.pool.Holds t.ty := hnl.ty ▸ htypes.holds_typeOf l
    have huty : f.types.pool.Holds u.ty := hnr.ty ▸ htypes.holds_typeOf r
    by_cases hop : op.isAssignment
    · simp only [if_pos hop, node_bind hnl.node, hnl.grows.isPattern_eq, hnr.ty]
      by_cases hp : t.isPattern
      · rw [if_pos hp, Lower.statementBody_binary _ _ _ _ _ (.inl hp)]
        exact dropped
      · rw [if_neg hp]
        have hp : t.isPattern = false := by simpa using hp
        rcases (Source.BinaryOp.isAssignment_iff op).1 hop with rfl | ⟨op, rfl⟩
        · rw [Lower.statementBody_assign _ _ _ _ hp, (hw hl' hl).place, (hw hr' hr).value,
            hnl.span, lift_map]
          exact congrArg (some <$> ·) assignStatement_eq
        · have hinfo : infoOf f l n = t.info := hnl.grows.info_eq.symm
          rw [Lower.statementBody_assignWith _ _ _ _ _ hp, (hw hl' hl).place, (hw hr' hr).value,
            hinfo, lift_map]
          exact congrArg (some <$> ·) (compoundStatement_eq hready htypes.pool hty huty op)
    · simp only [if_neg hop]
      rw [Lower.statementBody_binary _ _ _ _ _ (.inr (by simpa using hop))]
      exact dropped
  | @prefixed op c t hc =>
    have hc' := hlt [c] rfl c List.mem_cons_self
    cases op with
    | update op => exact updated hc' hc op
    | _ => exact dropped
  | @postfixed op c t hc => exact updated (hlt [c] rfl c List.mem_cons_self) hc op
  | @call c t r ids ts hc hr hs =>
    have hparts := hlt (c :: ids) (by simp only [Source.Arena.parts, hr]; rfl)
    obtain ⟨hc', hs'⟩ := List.forall_mem_cons.1 hparts
    have hinfo : f.types.pool.Holds (infoOf f e ⟨.call c r, span⟩).ty := htypes.holds_typeOf e
    simp only [call_eq hf htypes hw hs hs' hc' hc hready .statement hinfo hr, Lower.statementBody,
      map_eq_pure_bind, lift_bind, lift_pure]
    rfl
  | _ => exact dropped

theorem expressionStatement_eq (he : e.index < bound + 1) (hread : f.Reads e t) :
    expressionStatement f w e = lift (Lower.expressionStatement f.types.pool t) := by
  simp only [expressionStatement, statementBody_eq hf htypes hready hw he hread, capture_lift,
    Lower.expressionStatement, lift_bind, lift_pure]

omit hf htypes hready in
theorem expression_eq (he : e.index < bound) (hread : f.Reads e t) :
    expression w e = lift (Lower.expression f.types.pool t) := by
  rw [expression, (hw he hread).value, capture_lift, Lower.expression]

omit htypes hready in
theorem writableTarget_eq (he : e.index < bound) (hread : f.Reads e t) (readAfterWrite : Bool) :
    writableTarget f w e readAfterWrite =
      lift (Lower.writableTarget f.types.pool t readAfterWrite) := by
  obtain ⟨n, hn⟩ := hread.node hf
  rw [writableTarget, Lower.writableTarget, ← capture_lift, Lower.writable, node_bind hn.node,
    (hw he hread).place, hn.span]
  cases readAfterWrite <;>
    simp only [Bool.false_eq_true, if_true, if_false, pinPlace_eq, lift_bind, lift_pure]

theorem topLevel_eq {s : Source.Stmt ExprId} {s' : Source.Stmt Source.Expr}
    (hs : ∀ e ∈ s.expr?, e.index < bound) (hr : s.read (f.arena.trees f.types) = .ok s') :
    topLevel f w s = lift (Lower.topLevel f.types.pool s') := by
  obtain ⟨kind, span⟩ := s
  cases kind with
  | expr e =>
    obtain ⟨t, ht, h⟩ := Source.bind_eq_ok hr
    cases h
    have he := hs e rfl
    exact expressionStatement_eq hf htypes hready hw (Nat.lt_succ_of_lt he) ht
  | letDecl name init =>
    cases init with
    | none =>
      cases hr
      exact (lift_pure _).symm
    | some e =>
      obtain ⟨t, ht, h⟩ := Source.bind_eq_ok hr
      cases h
      simp only [topLevel, expression_eq hw (hs e rfl) ht, Lower.topLevel, lift_bind, lift_pure]
  | importDecl | exportDecl =>
    cases hr
    exact (lift_pure _).symm

theorem statements_eq {ss : List (Source.Stmt ExprId)}
    (hs : ∀ s ∈ ss, ∀ e ∈ s.expr?, e.index < bound)
    (hr : ∀ s ∈ ss, ∃ s', s.read (f.arena.trees f.types) = .ok s') :
    statements f w ss = lift (Lower.statements f.types.pool (f.arena.trees f.types) ss) := by
  induction ss with
  | nil => exact (lift_pure _).symm
  | cons s rest ih =>
    obtain ⟨hs, hrest⟩ := List.forall_mem_cons.1 hs
    obtain ⟨⟨s', hr⟩, hrrest⟩ := List.forall_mem_cons.1 hr
    simp only [statements, Lower.statements, topLevel_eq hf htypes hready hw hs hr,
      ih hrest hrrest, hr, Lower.ofFault, pure_bind, lift_bind, lift_pure]

omit hw in
/-- A well-formed file is walked without panic, and as it is lowered. -/
theorem file_eq {depth : Nat} (hdepth : f.arena.size ≤ depth) :
    file f depth = lift (Lower.file f.toFile) :=
  statements_eq hf htypes hready (covers_walker hf htypes hready depth)
    (fun s hs e he => Nat.lt_of_lt_of_le (hf.stmts s hs e he) hdepth) fun _ => hf.read

end WellFormed

/-! ### Compilation -/

section Compilation

variable {f : NamedFile} {depth : Nat} (c : Check.Checklist)
variable (hf : f.toFile.WellFormed) (htypes : f.types.WellFormed) (hresolved : f.Resolved)
  (hdepth : f.arena.size ≤ depth)

include hf htypes hresolved hdepth

/-- A file is compiled as its lowering says, if its temporaries find ids. -/
theorem compileFile_eq :
    compileFile f depth c =
      if (checked c f.toFile).diagnostics.hasErrors ∨ tempCount f.toFile ≤ tempLimit then
        (ScriptLowering.compileFile c f.toFile).mapError .subType
      else .error .temps := by
  obtain ⟨names, hnames, hready⟩ := hresolved.ready
  have hwalk : file { f with names } depth = lift (Lower.file f.toFile) :=
    file_eq (f := { f with names }) hf htypes hready hdepth
  have hroom : lift (Lower.file f.toFile) ⟨[], checked c f.toFile⟩ =
      if tempCount f.toFile ≤ tempLimit then
        Lowerer.finish ⟨[], checked c f.toFile⟩ (Lower.file f.toFile 0)
      else .error .temps := rfl
  have hnext : (checked c f.toFile).nextTemp = 0 := rfl
  rw [compileFile, ScriptLowering.compileFile]
  simp only [← checked.eq_def, Lower.run_eq, hnext, hnames, bind, Except.bind, hwalk, hroom]
  by_cases herrors : (checked c f.toFile).diagnostics.hasErrors
  · rw [if_pos herrors, if_pos herrors, if_pos (.inl herrors)]
    rfl
  · rw [if_neg herrors, if_neg herrors]
    by_cases hfits : tempCount f.toFile ≤ tempLimit
    · rw [if_pos hfits, if_pos (.inr hfits)]
      rcases Lower.file f.toFile 0 with ⟨(_ | _) | _, _⟩ <;> rfl
    · rw [if_neg hfits, if_neg (not_or.2 ⟨herrors, hfits⟩)]

end Compilation

end ScriptLowering.Walk
