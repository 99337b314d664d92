import ScriptLowering.Proofs.Numbering.Walks
import ScriptLowering.Proofs.Walk.Files

/-!
# Walkers from a later id

By induction on the depth a walker does the same from a later id with its temporaries
counted up, at every node of every file.

    w shifted → step f w shifted                     (shifted_step)
    walker f depth is shifted                          (shifted_walker)
    so are the walks over statements                   (shifted_topLevel)
-/

namespace ScriptLowering.Walk

open Lower (CallContext Place renumber_list renumber_prod renumber_expr)
open Renumber (renumber)
open Source (BinaryOp ListRange Node NodeInfo PropertyNode)
open Target (Expr Stmt)

/-- What the induction on the depth says of a walker. -/
structure ShiftedWalker (k : Nat) (w : Walker) : Prop where
  value (e : ExprId) : Shifted k (w.value e) (w.value e)
  place (e : ExprId) : Shifted k (w.place e) (w.place e)
  pattern (e : ExprId) (source : Expr) (ty : SubType) :
    Shifted k (w.pattern e source ty) (w.pattern e (source.shift k) ty)

variable {k : Nat} {f : NamedFile} {w : Walker} (hw : ShiftedWalker k w)

theorem toExpr_renumber (place : Place) : (renumber k place).toExpr = place.toExpr.shift k :=
  Lower.Place.toExpr_shift place

/-! ### Calls -/

theorem shifted_checkOperator (ctx : CallContext) (rule : CallRule) (span : Span)
    (member : String) :
    Shifted k (checkOperator ctx rule span member) (checkOperator ctx rule span member) := by
  cases rule with
  | operator op className =>
    simp only [checkOperator]
    split
    · exact .fail _
    · exact .pure ()
  | _ => exact .pure ()

theorem shifted_callStyle (rule : CallRule) (calleeTy : TypeId) (member : String) (span : Span) :
    Shifted k (callStyle f rule calleeTy member span) (callStyle f rule calleeTy member span) := by
  cases rule with
  | generic => exact (shifted_isMethodCall calleeTy member span).map fun _ => rfl
  | _ => exact .pure (none : Option Bool)

theorem shifted_writeCall (rule : CallRule) (isMethod : Option Bool) (span : Span) (object : ExprId)
    (member : String) (r : Expr) (args : List Expr) :
    Shifted k (writeCall f rule isMethod span object member r args)
      (writeCall f rule isMethod span object member (r.shift k) (renumber k args)) := by
  have call (callee : Expr) (args : List Expr) : Shifted k (pure (Expr.call callee args))
      (pure (.call (callee.shift k) (renumber k args))) := .pure_of (Expr.shift_call ..)
  have inserted (callee v : Expr) : Shifted k
      (do return Expr.call callee (← insertAt 0 v args))
      (do return Expr.call (callee.shift k) (← insertAt 0 (v.shift k) (renumber k args))) := by
    apply (shifted_insertAt 0 v args).bind
    intro args
    exact call callee args
  cases rule with
  | helper h =>
    apply (Shifted.useHelper h).bind
    intro _
    by_cases hobject : h = .object
    · simp only [hobject, if_true]
      exact call (Lower.helperMember .object member) args
    · simp only [hobject, if_false]
      exact inserted (Lower.helperMember h member) r
  | nativeString => exact inserted (Lower.libraryMember "string" member) r
  | renamedMethod name => exact .pure_of (Expr.shift_method ..)
  | renamedField name => exact call (.property r name) args
  | operator op className => exact .pure_of (Lower.shift_build (.operator op) member r args)
  | generic =>
    simp only [writeCall]
    split
    · apply Shifted.indexed_bind
      intro n
      split
      · apply (shifted_superClass _ span).bind
        intro className
        exact inserted (.property (.property (.ident className) "__index") member) (.ident "self")
      · exact .pure_of (Expr.shift_method ..)
    · exact call (.property r member) args

section Parts

include hw

theorem shifted_callOperand (first last i : Nat) (e : ExprId) :
    Shifted k (callOperand f w first last i e) (callOperand f w first last i e) := by
  unfold callOperand
  split
  · exact hw.value e
  · apply Shifted.indexed_bind
    intro n
    split
    next inner _ =>
      split
      · apply (hw.value inner).bind
        intro v
        exact .pure_of (Expr.shift_call ..)
      · exact .fail _
    next => exact (shifted_checkNotAny _).bind fun _ => hw.value e

theorem shifted_callOperands (receiver : Option ExprId) (args : List ExprId) :
    Shifted k (callOperands f w receiver args) (callOperands f w receiver args) :=
  shifted_inOrder (fun i e => shifted_callOperand hw _ _ i e) _

theorem shifted_propertyCall (ctx : CallContext) (span : Span) (calleeTy : TypeId) (object : ExprId)
    (member : String) (args : List ExprId) :
    Shifted k (propertyCall f w ctx span calleeTy object member args)
      (propertyCall f w ctx span calleeTy object member args) := by
  apply Shifted.check_bind
  intro family
  apply (shifted_readName member).bind
  intro _
  apply (shifted_checkOperator ctx _ span member).bind
  intro _
  apply (shifted_callStyle _ calleeTy member span).bind
  intro isMethod
  have hstyle : renumber k isMethod = isMethod := by cases isMethod <;> rfl
  rw [hstyle]
  apply (shifted_callOperands hw (some object) args).bind
  intro operands
  apply (shifted_removeAt 0 operands).bind
  rintro ⟨r, args⟩
  exact shifted_writeCall _ isMethod span object member r args

theorem shifted_superCall (span : Span) (calleeTy : TypeId) (args : List ExprId) :
    Shifted k (superCall f w span calleeTy args) (superCall f w span calleeTy args) := by
  apply (shifted_superClass calleeTy span).bind
  intro className
  apply (shifted_callOperands hw none args).bind
  intro args
  apply (shifted_insertAt 0 (.ident "self") args).bind
  intro args
  exact .pure_of (Expr.shift_call ..)

theorem shifted_plainCall (callee : ExprId) (args : List ExprId) :
    Shifted k (plainCall f w callee args) (plainCall f w callee args) := by
  apply (shifted_callOperands hw (some callee) args).bind
  intro operands
  apply (shifted_removeAt 0 operands).bind
  rintro ⟨callee, args⟩
  exact .pure_of (Expr.shift_call ..)

theorem shifted_call (ctx : CallContext) (info : NodeInfo) (callee : ExprId) (args : ListRange) :
    Shifted k (call f w ctx info callee args) (call f w ctx info callee args) := by
  apply Shifted.indexed_bind
  intro n
  apply (shifted_checkNotAny _).bind
  intro _
  apply Shifted.indexed_bind
  intro args
  have packed {code : Walk Expr} (h : Shifted k code code) :
      Shifted k (code >>= packReturn f.types.pool ctx info.ty)
        (code >>= packReturn f.types.pool ctx info.ty) :=
    h.bind (shifted_packReturn ctx info.ty)
  split
  · exact packed (shifted_propertyCall hw ctx _ _ _ _ args)
  · exact packed (shifted_superCall hw _ _ args)
  · exact packed (shifted_plainCall hw callee args)

/-! ### Operators -/

theorem shifted_pair (a b : ExprId) : Shifted k (pair f w a b) (pair f w a b) :=
  (shifted_inOrder (fun _ => hw.value) [a, b]).bind shifted_pairOf

theorem shifted_element (object index : ExprId) :
    Shifted k (element f w object index) (element f w object index) := by
  apply (shifted_pair hw object index).bind
  rintro ⟨o, i⟩
  simp only [renumber_prod, renumber_expr, shiftIndex_shift]
  apply (Shifted.check_map _).bind
  intro i
  exact .pure (o, i)

theorem shifted_assignment (op : BinaryOp) (info : NodeInfo) (left right : ExprId) :
    Shifted k (assignment f w op info left right) (assignment f w op info left right) := by
  apply Shifted.indexed_bind
  intro n
  split
  · apply (hw.value right).bind
    intro v
    apply (shifted_pushTemp "value" info.span v).bind
    intro source
    apply (hw.pattern left source _).bind
    intro _
    exact .pure source
  · split
    · exact shifted_compoundValue (hw.place left) (hw.value right)
    · exact shifted_assignValue (hw.place left) (hw.value right)

theorem shifted_binary (info : NodeInfo) (op : BinaryOp) (left right : ExprId) :
    Shifted k (binary f w info op left right) (binary f w info op left right) := by
  unfold binary
  split
  next op => exact shifted_looseEquality op info.span
  next op => exact shifted_shortCircuit (hw.value left) (hw.value right)
  next =>
    split
    · exact shifted_assignment hw _ info left right
    · apply (shifted_pair hw left right).bind
      rintro ⟨l, r⟩
      exact shifted_onValues _ info.span l r _ _

theorem shifted_update (op : Source.UpdateOp) (span : Span) (operand : ExprId) (isPrefix : Bool) :
    Shifted k (update w op span operand isPrefix) (update w op span operand isPrefix) := by
  apply (hw.place operand).bind
  intro place
  apply (shifted_pinPlace span .repeated place).bind
  intro place
  have rest (result : Expr) : Shifted k
      (do emit (Lower.updateBy op place.toExpr); return result)
      (do emit (Lower.updateBy op (place.toExpr.shift k)); return result.shift k) := by
    rw [← Lower.shift_updateBy]
    apply (Shifted.emit _).bind
    intro _
    exact .pure result
  rw [toExpr_renumber]
  cases isPrefix with
  | true => exact rest place.toExpr
  | false => exact (shifted_pushTemp "original" span place.toExpr).bind rest

theorem shifted_prefixed (info : NodeInfo) (op : Source.PrefixOp) (operand : ExprId) :
    Shifted k (prefixed f w info op operand) (prefixed f w info op operand) := by
  have v := hw.value operand
  cases op with
  | not =>
    apply v.bind
    intro v
    apply (shifted_truthiness _ info.span v).bind
    intro c
    exact .pure (Expr.unary .not c)
  | neg =>
    apply v.bind
    intro v
    exact .pure_of (Lower.shift_negate v)
  | plus =>
    apply v.bind
    intro v
    exact .pure_of (Expr.shift_call ..)
  | bitNot =>
    apply v.bind
    intro v
    apply (shifted_enterName "bnot").bind
    intro _
    exact .pure_of (Expr.shift_call ..)
  | update op => exact shifted_update hw op info.span operand true

/-! ### Nodes -/

theorem shifted_valueOf (e : ExprId) (n : Node) :
    Shifted k (valueOf f w e n) (valueOf f w e n) := by
  obtain ⟨kind, span⟩ := n
  cases kind with
  | ident | this | number | string | bool | undefined | error => exact .pure _
  | super =>
    apply (shifted_superClass _ span).bind
    intro name
    exact .pure (Expr.ident name)
  | paren inner =>
    apply (hw.value inner).bind
    intro v
    exact .pure (Expr.paren v)
  | spread => exact .fail _
  | property object name =>
    apply (hw.value object).bind
    intro o
    exact .pure (Expr.property o name)
  | element object index =>
    apply (shifted_element hw object index).bind
    rintro ⟨o, i⟩
    exact .pure (Expr.index o i)
  | call callee args => exact shifted_call hw .value _ callee args
  | binary op left right => exact shifted_binary hw _ op left right
  | prefixed op operand => exact shifted_prefixed hw _ op operand
  | postfixed op operand => exact shifted_update hw op span operand false
  | array elements =>
    apply Shifted.indexed_bind
    intro ids
    apply (shifted_inOrder (fun _ => hw.value) ids).bind
    intro vs
    exact .pure_of (Expr.shift_positional ..)
  | object range =>
    apply Shifted.indexed_bind
    intro ps
    apply (shifted_inOrder (fun _ => hw.value) _).bind
    intro vs
    exact .pure_of (Expr.shift_named ..)

theorem shifted_placeOf (e : ExprId) (n : Node) :
    Shifted k (placeOf f w e n) (placeOf f w e n) := by
  have whole : Shifted k (Place.whole <$> valueOf f w e n) (Place.whole <$> valueOf f w e n) :=
    (shifted_valueOf hw e n).map fun _ => rfl
  obtain ⟨kind, span⟩ := n
  cases kind with
  | paren inner => exact hw.place inner
  | property object name =>
    apply (hw.value object).bind
    intro o
    exact .pure (Place.property o name)
  | element object index =>
    apply (shifted_element hw object index).bind
    rintro ⟨o, i⟩
    exact .pure (Place.index o i)
  | _ => exact whole

theorem shifted_assignPart (e : ExprId) (slot : Expr) (ty : SubType) (index : SubIndex) :
    Shifted k (assignPart f w e slot ty index) (assignPart f w e (slot.shift k) ty index) := by
  apply Shifted.indexed_bind
  intro n
  split
  · apply Shifted.check_bind
    intro part
    apply Shifted.ofFault_bind
    intro partTy
    apply (shifted_pushTemp "value" n.span slot).bind
    intro source
    exact hw.pattern e source partTy
  · split
    · exact .pure ()
    · apply (hw.place e).bind
      intro place
      rw [toExpr_renumber]
      exact .emit (.assign place.toExpr slot)

theorem shifted_assignElements (ids : List ExprId) (position : Nat) (source : Expr) (ty : SubType) :
    Shifted k (assignElements f w ids position source ty)
      (assignElements f w ids position (source.shift k) ty) := by
  induction ids generalizing position with
  | nil => exact .pure ()
  | cons e rest ih =>
    apply (shifted_assignPart hw e (.index source (Lower.oneBased position)) ty
      (.position position)).bind
    intro _
    exact ih (position + 1)

theorem shifted_assignProperties (ps : List PropertyNode) (source : Expr) (ty : SubType) :
    Shifted k (assignProperties f w ps source ty)
      (assignProperties f w ps (source.shift k) ty) := by
  induction ps with
  | nil => exact .pure ()
  | cons p rest ih =>
    apply (shifted_assignPart hw p.value (.property source p.name) ty (.name p.name)).bind
    intro _
    exact ih

theorem shifted_patternOf (e : ExprId) (n : Node) (source : Expr) (ty : SubType) :
    Shifted k (patternOf f w e n source ty) (patternOf f w e n (source.shift k) ty) := by
  unfold patternOf
  split
  next range =>
    apply (shifted_indexableSource n.span ty source).bind
    intro source
    apply Shifted.indexed_bind
    intro ids
    exact shifted_assignElements hw ids 0 source ty
  next range =>
    apply Shifted.indexed_bind
    intro ps
    exact shifted_assignProperties hw ps source ty
  next =>
    apply (shifted_placeOf hw e n).bind
    intro place
    rw [toExpr_renumber]
    exact .emit (.assign place.toExpr source)

theorem shifted_step : ShiftedWalker k (step f w) where
  value e := Shifted.indexed_bind fun n => shifted_valueOf hw e n
  place e := Shifted.indexed_bind fun n => shifted_placeOf hw e n
  pattern e source ty := Shifted.indexed_bind fun n => shifted_patternOf hw e n source ty

end Parts

theorem shifted_walker (k : Nat) (f : NamedFile) (depth : Nat) :
    ShiftedWalker k (walker f depth) := by
  induction depth with
  | zero => exact ⟨fun _ => .panic .depth, fun _ => .panic .depth, fun _ _ _ => .panic .depth⟩
  | succ depth ih => exact shifted_step ih

/-! ### Statements -/

section Statements

include hw

theorem shifted_updateStatement (op : Source.UpdateOp) (operand : ExprId) :
    Shifted k (updateStatement w op operand) (updateStatement w op operand) := by
  apply (hw.place operand).bind
  intro place
  rw [toExpr_renumber, ← Lower.shift_updateBy]
  exact .pure _

theorem shifted_statementBody (e : ExprId) :
    Shifted k (statementBody f w e) (statementBody f w e) := by
  apply Shifted.indexed_bind
  intro n
  have dropped {x : Walk Expr} (hx : Shifted k x x) : Shifted k
      (do return Lower.discard (← x)) (do return Lower.discard (← x)) := by
    apply hx.bind
    intro v
    rw [renumber_expr, Lower.discard_shift]
    exact .pure _
  have one {x : Walk Stmt} (hx : Shifted k x x) : Shifted k (some <$> x) (some <$> x) :=
    hx.map fun _ => rfl
  have value := dropped (shifted_valueOf (f := f) hw e n)
  obtain ⟨kind, span⟩ := n
  cases kind with
  | binary op left right =>
    simp only
    split
    · apply Shifted.indexed_bind
      intro l
      split
      · exact value
      · split
        · exact one (shifted_compoundStatement (hw.place left) (hw.value right))
        · exact one (shifted_assignStatement (hw.place left) (hw.value right))
    · exact value
  | prefixed op operand =>
    cases op with
    | update op => exact one (shifted_updateStatement hw op operand)
    | _ => exact value
  | postfixed op operand => exact one (shifted_updateStatement hw op operand)
  | call callee args => exact dropped (shifted_call hw .statement _ callee args)
  | _ => exact value

theorem shifted_expressionStatement (e : ExprId) :
    Shifted k (expressionStatement f w e) (expressionStatement f w e) := by
  apply (shifted_statementBody hw e).capture.bind
  rintro ⟨last, ss⟩
  refine .pure_of ?_
  rw [renumber_list, List.map_append]
  cases last <;> rfl

theorem shifted_writableTarget (e : ExprId) (readAfterWrite : Bool) :
    Shifted k (writableTarget f w e readAfterWrite) (writableTarget f w e readAfterWrite) := by
  apply Shifted.capture
  apply Shifted.indexed_bind
  intro n
  apply (hw.place e).bind
  intro place
  have rest (place : Place) : Shifted k
      (pure (Lower.WritableTarget.ofPlace place readAfterWrite))
      (pure (Lower.WritableTarget.ofPlace (place.shift k) readAfterWrite)) :=
    .pure_of (Lower.renumber_ofPlace place readAfterWrite)
  cases readAfterWrite with
  | true => exact (shifted_pinPlace n.span .repeated place).bind rest
  | false => exact (Shifted.pure place).bind rest

theorem shifted_topLevel (s : Source.Stmt ExprId) :
    Shifted k (topLevel f w s) (topLevel f w s) := by
  obtain ⟨kind, span⟩ := s
  cases kind with
  | expr e => exact shifted_expressionStatement hw e
  | letDecl name init =>
    cases init with
    | none => exact .pure [Stmt.declare (.name name) none]
    | some init =>
      apply (hw.value init).capture.bind
      rintro ⟨v, ss⟩
      exact .pure_of (List.map_append ..)
  | importDecl | exportDecl => exact .pure ([] : List Stmt)

end Statements

end ScriptLowering.Walk
