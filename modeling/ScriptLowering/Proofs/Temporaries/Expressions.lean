import ScriptLowering.Proofs.Lowering.Nodes
import ScriptLowering.Proofs.Source.Everywhere
import ScriptLowering.Proofs.Temporaries.Assignments

/-!
# Tidy expressions

Lowering a source expression is tidy, whatever it is made of.  The only thing
asked of it is that its targets may be written to.

    e.Everywhere (TargetsAre P) → reference pool e is tidy              (tidy_node)
    whatever is asked of targets, value pool e reads what it declares     (tidy_value)
-/

namespace ScriptLowering.Lower

open Source.Expr (TargetsAre)
open Target (Expr Stmt)
open Target.Stmt (Scoped declared declaredWithin)

variable {α : Type} {writable : Expr → Prop} {V W : List Nat} {pool : TypePool}

/-! ### Calls -/

theorem readsIn_packReturn {ctx : CallContext} {ty : TypeId} {e : Expr} (h : e.ReadsIn V) :
    (packReturn pool ctx ty e).ReadsIn V := by
  unfold packReturn
  split <;> simp [h]

theorem readsIn_build {form : CallForm} {member : String} {r : Expr} {args : List Expr}
    (hr : r.ReadsIn V) (ha : ReadsAll args V) : (form.build member r args).ReadsIn V := by
  have hlast : (enclosed (args.getLastD .nil)).ReadsIn V := by
    have h : (args.getLastD .nil).ReadsIn V := by
      rw [List.getLastD_eq_getLast?]
      cases hl : args.getLast? with
      | none => exact Expr.readsIn_nil
      | some a => exact ha a (List.mem_of_getLast? hl)
    unfold enclosed
    split
    · exact Expr.readsIn_paren.2 h
    · exact h
  unfold ReadsAll at ha
  cases form with
  | helper h => cases h <;> simp [CallForm.build, helperMember, hr] <;> exact ha
  | operator op => exact Expr.readsIn_paren.2 (Expr.readsIn_arithmetic.2 ⟨hr, hlast⟩)
  | nativeString | method name | field name | superMethod className =>
    simp only [CallForm.build, libraryMember, Expr.readsIn_call, Expr.readsIn_method,
      Expr.readsIn_property, Expr.readsIn_ident, List.forall_mem_cons, hr, true_and]
    exact ha

theorem tidy_useHelperOf (form : CallForm) :
    Tidy writable V (useHelperOf form) fun _ _ => True := by
  unfold useHelperOf
  split
  · exact tidy_useHelper _
  · exact .pure fun _ _ => trivial

theorem tidy_argument {info : Source.NodeInfo} {value : Lower Expr}
    (h : ∀ V, Tidy writable V value Expr.ReadsIn) :
    Tidy writable V (argument pool info value).lower Expr.ReadsIn := by
  refine (tidy_checkNotAny pool info).bind ?_
  intro _ W _ _
  exact h W

theorem tidy_spreadArgument {info : Source.NodeInfo} {isLast : Bool} {value : Lower Expr}
    (h : Tidy writable V value Expr.ReadsIn) :
    Tidy writable V (spreadArgument info isLast value).lower Expr.ReadsIn := by
  unfold spreadArgument
  cases isLast with
  | false => exact Tidy.fail _
  | true =>
    refine h.bind ?_
    intro v W _ hv
    refine .pure fun U hWU => ?_
    simp [hv.mono hWU]

theorem tidy_plainCall {ctx : CallContext} {info calleeInfo : Source.NodeInfo}
    {callee : Lower Expr} {args : List Operand}
    (hf : ∀ V, Tidy writable V callee Expr.ReadsIn)
    (ha : ∀ V, ∀ x ∈ args, Tidy writable V x.lower Expr.ReadsIn) :
    Tidy writable V (plainCall pool ctx info calleeInfo callee args) Expr.ReadsIn := by
  refine (tidy_checkNotAny pool calleeInfo).bind ?_
  intro _ W _ _
  refine (tidy_inOrderCons (List.forall_mem_cons.2 ⟨hf W, ha W⟩)).bind ?_
  rintro ⟨f, args⟩ U _ ⟨hf, ha⟩
  refine .pure fun X hUX => readsIn_packReturn ?_
  exact Expr.readsIn_call.2 ⟨hf.mono hUX, fun x hx => (ha x hx).mono hUX⟩

/-- What is looked up leaves the scope as it is. -/
theorem tidy_ofError_bind {x : Except LowerError α} {f : α → Lower Expr}
    (hf : ∀ a, Tidy writable V (f a) Expr.ReadsIn) :
    Tidy writable V (ofError x >>= f) Expr.ReadsIn := by
  have hx : Tidy writable V (ofError x) fun _ _ => True := .ofError fun _ _ _ _ => trivial
  refine hx.bind ?_
  intro a W hVW _
  exact (hf a).mono hVW

theorem tidy_superCall {ctx : CallContext} {info calleeInfo : Source.NodeInfo}
    {args : List Operand} (ha : ∀ V, ∀ x ∈ args, Tidy writable V x.lower Expr.ReadsIn) :
    Tidy writable V (superCall pool ctx info calleeInfo args) Expr.ReadsIn := by
  refine (tidy_checkNotAny pool calleeInfo).bind ?_
  intro _ W _ _
  refine tidy_ofError_bind fun name => (tidy_inOrder (ha W)).bind ?_
  intro args U _ ha
  refine .pure fun X hUX => readsIn_packReturn ?_
  simpa using fun x hx => (ha x hx).mono hUX

theorem tidy_propertyCall {ctx : CallContext} {info calleeInfo : Source.NodeInfo}
    {object : Source.Expr} {member : String} {receiver : Lower Expr} {args : List Operand}
    (hr : ∀ V, Tidy writable V receiver Expr.ReadsIn)
    (ha : ∀ V, ∀ x ∈ args, Tidy writable V x.lower Expr.ReadsIn) :
    Tidy writable V (propertyCall pool ctx info calleeInfo object member receiver args)
      Expr.ReadsIn := by
  rw [propertyCall_eq]
  refine (tidy_checkNotAny pool calleeInfo).bind ?_
  intro _ W _ _
  refine tidy_ofError_bind fun form => ?_
  refine (tidy_inOrderCons (List.forall_mem_cons.2 ⟨hr W, ha W⟩)).bind ?_
  rintro ⟨r, args⟩ U _ ⟨hr, ha⟩
  refine (tidy_useHelperOf form).bind ?_
  intro _ X hUX _
  refine .pure fun Y hXY => readsIn_packReturn ?_
  have hUY : ∀ i ∈ U, i ∈ Y := fun i hi => hXY i (hUX i hi)
  exact readsIn_build (hr.mono hUY) fun x hx => (ha x hx).mono hUY

/-! ### Patterns -/

theorem tidy_indexableSource {span : Span} {ty : SubType} {source : Expr} (h : source.ReadsIn V) :
    Tidy writable V (indexableSource pool span ty source) Expr.ReadsIn := by
  unfold indexableSource
  split
  · exact .pure fun W hV => h.mono hV
  · refine (tidy_useHelper .array).bind ?_
    intro _ W hVW _
    exact tidy_pushTemp (by simp [helperMember, h.mono hVW])

theorem tidy_assignPart {part : Source.Expr} {nested : Expr → SubType → Lower Unit}
    {target : Lower Reference} {slot : Expr} {ty : SubType} {index : SubIndex}
    (hn : part.isPattern = true → ∀ W source ty, source.ReadsIn W →
      Tidy writable W (nested source ty) fun _ _ => True)
    (ht : Tidy writable V target Reference.ReadsIn)
    (hm : part.isPattern = false → part.isElided = false → MayWrite writable target)
    (hs : slot.ReadsIn V) :
    Tidy writable V (assignPart pool part nested (asPlaceExpr target) slot ty index)
      fun _ _ => True := by
  unfold assignPart
  split
  next hp =>
    have hty : Tidy writable V (ofFault (pool.subType ty index)) fun _ _ => True :=
      .ofFault fun _ _ _ _ => trivial
    refine hty.bind ?_
    intro partTy W hVW _
    refine (tidy_pushTemp (hs.mono hVW)).bind ?_
    intro source U _ hsource
    exact hn hp U source partTy hsource
  next hp =>
    split
    · exact .pure fun _ _ => trivial
    next hne =>
      have he : part.isElided = false := by
        cases part <;> first | rfl | exact absurd rfl (hne _)
      have htarget : Tidy writable V (asPlaceExpr target) fun t W => t.ReadsIn W ∧ writable t := by
        intro n t e hok
        obtain ⟨r, hr, rfl⟩ := map_eq_ok.1 hok
        obtain ⟨k, q⟩ := ht hr
        exact ⟨k, fun W hV hd =>
          ⟨Reference.readsIn_place (q W hV hd), hm (by simpa using hp) he hr⟩⟩
      refine htarget.bind ?_
      rintro t W hVW ⟨hr, hw⟩
      exact tidy_emit_assign hr hw (hs.mono hVW)

theorem tidy_destructuring {span : Span} {ty : TypeId} {value : Lower Expr}
    {assign : Expr → SubType → Lower Unit} (hv : Tidy writable V value Expr.ReadsIn)
    (ha : ∀ W source ty, source.ReadsIn W → Tidy writable W (assign source ty) fun _ _ => True) :
    Tidy writable V (destructuring span ty value assign) Expr.ReadsIn := by
  refine hv.bind ?_
  intro v _ _ hv
  refine (tidy_pushTemp hv).bind ?_
  intro source W _ hsource
  refine (ha W source (.single ty) hsource).bind ?_
  intro _ U hWU _
  refine .pure fun X hUX => ?_
  exact hsource.mono fun i hi => hUX i (hWU i hi)

/-! ### Nodes -/

/-- What the induction over the source tree says of a node. -/
structure TidyNode (writable : Expr → Prop) (P : Source.Expr → Prop) (pool : TypePool)
    (e : Source.Expr) : Prop where
  reference (V : List Nat) : Tidy writable V (reference pool e) Reference.ReadsIn
  pattern (V : List Nat) (source : Expr) (ty : SubType) (ht : e.TargetOf P)
    (hs : source.ReadsIn V) : Tidy writable V (destructure pool e source ty) fun _ _ => True

variable {P : Source.Expr → Prop}

theorem TidyNode.value {e : Source.Expr} (h : TidyNode writable P pool e) (V : List Nat) :
    Tidy writable V (value pool e) Expr.ReadsIn := tidy_asValue (h.reference V)

theorem tidy_operands {es : List Source.Expr} (h : ∀ e ∈ es, TidyNode writable P pool e) :
    ∀ x ∈ operands pool es, Tidy writable V x.lower Expr.ReadsIn := by
  rw [operands_eq_map]
  simpa using fun e he => (h e he).value V

theorem tidy_propertyOperands {ps : List (String × Source.Expr)}
    (h : ∀ p ∈ ps, TidyNode writable P pool p.2) :
    ∀ x ∈ propertyOperands pool ps, Tidy writable V x.lower Expr.ReadsIn := by
  rw [propertyOperands_eq_map]
  intro x hx
  obtain ⟨p, hp, rfl⟩ := List.mem_map.1 hx
  exact (h p hp).value V

/-- An argument is lowered as it is, a spread one as what is spread. -/
theorem tidy_arguments {es : List Source.Expr} (h : ∀ e ∈ es, TidyNode writable P pool e)
    (hs : ∀ e ∈ es, ∀ c ∈ e.children, TidyNode writable P pool c) (V : List Nat) :
    ∀ x ∈ arguments pool es, Tidy writable V x.lower Expr.ReadsIn := by
  apply forall_mem_arguments
  · intro e he
    exact tidy_argument (h e he).value
  · rintro e he i inner rfl isLast
    exact tidy_spreadArgument ((hs _ he inner List.mem_cons_self).value V)

theorem tidy_part (hP : ∀ l, P l → MayWrite writable (reference pool l)) {e : Source.Expr}
    (h : TidyNode writable P pool e) (ht : e.isElided = false → e.TargetOf P) {slot : Expr}
    {ty : SubType} {index : SubIndex} (hs : slot.ReadsIn V) :
    Tidy writable V (assignPart pool e (fun source ty => destructure pool e source ty)
      (asPlaceExpr (reference pool e)) slot ty index) fun _ _ => True := by
  refine tidy_assignPart (fun hp W source ty hsource => ?_) (h.reference V) (fun hp he => ?_) hs
  · have he : e.isElided = false := by cases e <;> first | rfl | cases hp
    exact h.pattern W source ty (ht he) hsource
  · exact hP e ((ht he).of_not_pattern hp)

theorem tidy_assignElements (hP : ∀ l, P l → MayWrite writable (reference pool l))
    {es : List Source.Expr} (h : ∀ e ∈ es, TidyNode writable P pool e)
    (ht : ∀ e ∈ es, e.isElided = false → e.TargetOf P) {position : Nat} {source : Expr}
    {ty : SubType} (hs : source.ReadsIn V) :
    Tidy writable V (assignElements pool es position source ty) fun _ _ => True := by
  induction es generalizing position V with
  | nil => exact .pure fun _ _ => trivial
  | cons e rest ih =>
    have hslot : (Expr.index source (oneBased position)).ReadsIn V := by simp [oneBased, hs]
    obtain ⟨he, hrest⟩ := List.forall_mem_cons.1 h
    obtain ⟨hte, htrest⟩ := List.forall_mem_cons.1 ht
    refine (tidy_part hP he hte hslot).bind ?_
    intro _ W hVW _
    exact ih hrest htrest (hs.mono hVW)

theorem tidy_assignProperties (hP : ∀ l, P l → MayWrite writable (reference pool l))
    {ps : List (String × Source.Expr)} (h : ∀ p ∈ ps, TidyNode writable P pool p.2)
    (ht : ∀ p ∈ ps, p.2.isElided = false → p.2.TargetOf P) {source : Expr} {ty : SubType}
    (hs : source.ReadsIn V) :
    Tidy writable V (assignProperties pool ps source ty) fun _ _ => True := by
  induction ps generalizing V with
  | nil => exact .pure fun _ _ => trivial
  | cons p rest ih =>
    have hslot : (Expr.property source p.1).ReadsIn V := by simp [hs]
    obtain ⟨hp, hrest⟩ := List.forall_mem_cons.1 h
    obtain ⟨htp, htrest⟩ := List.forall_mem_cons.1 ht
    refine (tidy_part hP hp htp hslot).bind ?_
    intro _ W hVW _
    exact ih hrest htrest (hs.mono hVW)

theorem tidy_object {info : Source.NodeInfo} {ps : List (String × Source.Expr)}
    (h : ∀ p ∈ ps, TidyNode writable P pool p.2) :
    Tidy writable V (reference pool (.object info ps)) Reference.ReadsIn := by
  intro n r e hok
  obtain ⟨vs, e₁, e₂, hvs, hr, rfl⟩ := bind_eq_ok.1 hok
  have hlength : (ps.map (·.1)).length = vs.length := by
    rw [length_of_inOrder hvs, propertyOperands_eq_map]
    simp
  cases hr
  obtain ⟨k, q⟩ := tidy_inOrder (tidy_propertyOperands h) hvs
  rw [Effects.append_none]
  exact ⟨k, fun W hV hd => (Expr.readsIn_named hlength).2 (q W hV hd)⟩

theorem tidy_pattern (hP : ∀ l, P l → MayWrite writable (reference pool l)) {e : Source.Expr}
    (hc : ∀ c ∈ e.children, TidyNode writable P pool c) (ht : e.TargetOf P) {source : Expr}
    {ty : SubType} (hs : source.ReadsIn V) :
    Tidy writable V (destructure pool e source ty) fun _ _ => True := by
  cases ht with
  | leaf hp _ =>
    cases e <;> first | exact .pure fun _ _ => trivial | cases hp
  | array h =>
    refine (tidy_indexableSource hs).bind ?_
    intro source W _ hs
    exact tidy_assignElements hP hc h hs
  | @object info ps h =>
    have hps : ∀ p ∈ ps, TidyNode writable P pool p.2 := fun p hp =>
      hc p.2 (List.mem_map.2 ⟨p, hp, rfl⟩)
    exact tidy_assignProperties hP hps h hs

theorem tidy_call {info : Source.NodeInfo} {callee : Source.Expr} {args : List Source.Expr}
    (hf : TidyNode writable P pool callee)
    (ho : ∀ c ∈ callee.children, TidyNode writable P pool c)
    (ha : ∀ e ∈ args, TidyNode writable P pool e)
    (hs : ∀ e ∈ args, ∀ c ∈ e.children, TidyNode writable P pool c) (ctx : CallContext) :
    Tidy writable V (call pool ctx (.call info callee args)) Expr.ReadsIn := by
  have hargs := tidy_arguments ha hs
  cases callee with
  | property calleeInfo object member =>
    exact tidy_propertyCall (ho object (by simp [Source.Expr.children])).value hargs
  | super calleeInfo => exact tidy_superCall hargs
  | _ => exact tidy_plainCall hf.value hargs

theorem tidy_binary (hw : AllowsMembers writable)
    (hP : ∀ l, P l → MayWrite writable (reference pool l)) {info : Source.NodeInfo}
    {op : Source.BinaryOp} {l r : Source.Expr} (hl : TidyNode writable P pool l)
    (hr : TidyNode writable P pool r) (ht : TargetsAre P (.binary info op l r)) :
    Tidy writable V (reference pool (.binary info op l r)) Reference.ReadsIn := by
  have pair : Tidy writable V (inOrderPair ⟨l.span, value pool l⟩ ⟨r.span, value pool r⟩)
      fun p W => p.1.ReadsIn W ∧ p.2.ReadsIn W := tidy_inOrderPair (hl.value V) (hr.value V)
  have destructured (hl' : l.TargetOf P) :
      Tidy writable V (destructuring info.span r.ty (value pool r) fun source ty =>
        destructure pool l source ty) Expr.ReadsIn :=
    tidy_destructuring (hr.value V) fun W source ty => hl.pattern W source ty hl'
  have mayWrite (hl' : l.TargetOf P) (hp : l.isPattern = false) :
      MayWrite writable (reference pool l) := hP l (hl'.of_not_pattern hp)
  rw [reference_binary]
  refine tidy_asReference ?_
  cases op with
  | arithmetic op =>
    rw [value_arithmetic]
    refine pair.map ?_
    rintro ⟨x, y⟩ W ⟨hx, hy⟩
    exact readsIn_arithmetic hx hy
  | relation op =>
    rw [value_relation]
    refine pair.bind ?_
    rintro ⟨x, y⟩ W _ ⟨hx, hy⟩
    exact tidy_relation hx hy
  | loose op =>
    rw [value_loose]
    exact tidy_looseEquality op info.span
  | logical op =>
    rw [value_logical]
    exact tidy_shortCircuit (hl.value V) (hr.value V)
  | assign =>
    cases hp : l.isPattern with
    | true =>
      rw [value_pattern pool info l r _ rfl hp]
      exact destructured ht
    | false =>
      rw [value_assign pool info l r hp]
      exact tidy_assignValue hw (hl.reference V) (mayWrite ht hp) (hr.value V)
  | assignWith op =>
    cases hp : l.isPattern with
    | true =>
      rw [value_pattern pool info l r _ rfl hp]
      exact destructured ht
    | false =>
      rw [value_assignWith pool info l r op hp]
      exact tidy_compoundValue hw (hl.reference V) (mayWrite ht hp) (hr.value V)

theorem tidy_prefixed (hw : AllowsMembers writable)
    (hP : ∀ l, P l → MayWrite writable (reference pool l)) {info : Source.NodeInfo}
    {op : Source.PrefixOp} {e : Source.Expr} (h : TidyNode writable P pool e)
    (ht : TargetsAre P (.prefixed info op e)) :
    Tidy writable V (reference pool (.prefixed info op e)) Reference.ReadsIn := by
  rw [reference_prefixed]
  refine tidy_asReference ?_
  cases op with
  | not =>
    rw [value_not]
    refine (h.value V).bind ?_
    intro v W _ hv
    exact (tidy_truthiness hv).map fun c U hc => Expr.readsIn_unary.2 hc
  | neg =>
    rw [value_neg]
    exact (h.value V).map fun _ _ hv => readsIn_negate hv
  | plus =>
    rw [value_plus]
    exact (h.value V).map fun _ _ hv => by simp [hv]
  | bitNot =>
    rw [value_bitNot]
    exact (h.value V).map fun _ _ hv => by simp [libraryMember, hv]
  | update op =>
    rw [value_updateBefore]
    exact tidy_updateBefore hw (h.reference V) (hP e ht)

theorem tidy_literal {e : Expr} (h : e.leaves = []) :
    Tidy writable V (pure (.ofExpr e)) Reference.ReadsIn :=
  .pure fun _ _ => Expr.readsIn_of_no_leaves h

theorem tidy_node (hw : AllowsMembers writable)
    (hP : ∀ l, P l → MayWrite writable (reference pool l)) {e : Source.Expr}
    (h : e.Everywhere (TargetsAre P)) : TidyNode writable P pool e := by
  refine h.induct₂ (motive := TidyNode writable P pool) fun e here hc hd => ?_
  refine ⟨fun V => ?_, fun V source ty ht hs => tidy_pattern hP hc ht hs⟩
  cases e with
  | ident info name => exact .pure fun _ _ => Expr.readsIn_ident name
  | this info => exact .pure fun _ _ => Expr.readsIn_ident "self"
  | super info =>
    exact tidy_asReference ((Tidy.ofError fun _ _ _ _ => trivial).map
      fun name _ (_ : True) => Expr.readsIn_ident name)
  | number | string | bool | undefined | error => exact tidy_literal rfl
  | paren info inner =>
    exact ((hc inner List.mem_cons_self).reference V).map fun r W h => Expr.readsIn_paren.2 h
  | spread info inner => exact .fail _
  | property info object name =>
    refine ((hc object List.mem_cons_self).value V).bind ?_
    intro o W _ ho
    exact .pure fun U hWU => Expr.readsIn_property.2 (ho.mono hWU)
  | element info object index =>
    have ho := (hc object List.mem_cons_self).value V
    have hi := (hc index (List.mem_cons_of_mem _ List.mem_cons_self)).value V
    refine (tidy_inOrderPair ho hi).bind ?_
    rintro ⟨o, i⟩ W _ ⟨ho, hi⟩
    refine .pure fun U hWU => ?_
    exact Expr.readsIn_index.2 ⟨ho.mono hWU, readsIn_shiftIndex (hi.mono hWU)⟩
  | call info callee args =>
    obtain ⟨hf, ha⟩ := List.forall_mem_cons.1 hc
    obtain ⟨ho, hs⟩ := List.forall_mem_cons.1 hd
    rw [reference_call]
    exact tidy_asReference (tidy_call hf ho ha hs .value)
  | binary info op l r =>
    exact tidy_binary hw hP (hc l (by simp [Source.Expr.children]))
      (hc r (by simp [Source.Expr.children])) here
  | prefixed info op inner =>
    exact tidy_prefixed hw hP (hc inner (by simp [Source.Expr.children])) here
  | postfixed info op inner =>
    rw [reference_postfixed, value_updateAfter]
    exact tidy_asReference (tidy_updateAfter hw
      ((hc inner (by simp [Source.Expr.children])).reference V) (hP inner here))
  | array info es =>
    refine (tidy_inOrder (tidy_operands hc)).bind ?_
    intro vs W _ hv
    refine .pure fun U hWU => ?_
    exact Expr.readsIn_positional.2 fun v hm => (hv v hm).mono hWU
  | object info ps =>
    have hps : ∀ p ∈ ps, TidyNode writable P pool p.2 := fun p hp =>
      hc p.2 (List.mem_map.2 ⟨p, hp, rfl⟩)
    exact tidy_object hps

/-- Lowering is tidy also where it writes to what cannot be written to. -/
theorem tidy_any (pool : TypePool) (e : Source.Expr) :
    TidyNode (fun _ => True) (fun _ => True) pool e := by
  have any : ∀ e : Source.Expr, e.Everywhere (TargetsAre fun _ => True) :=
    Source.Expr.everywhere_of_forall fun e => by
      unfold TargetsAre
      split <;> first | trivial | exact Source.Expr.targetOf_true _
  exact tidy_node ⟨fun _ _ => trivial, fun _ _ => trivial⟩ (fun _ _ _ _ _ _ => trivial) (any e)

theorem tidy_value (pool : TypePool) (e : Source.Expr) (V : List Nat) :
    Tidy (fun _ => True) V (value pool e) Expr.ReadsIn := (tidy_any pool e).value V

end ScriptLowering.Lower
