import ScriptLowering.Proofs.Lowering.Nodes
import ScriptLowering.Proofs.Reports.Operations

/-!
# Accounts of nodes

The lowering of a node, beside that of its strict form, is traced by the account
of its visits.  A node gives its own part of the account, and the operation that
lowers it joins those of its parts.

    value e and value e.strict are traced by accountOf e                  (traced_node)
    a statement's lowering is traced by the account of its visits            (traced_topLevel)
-/

namespace ScriptLowering.Lower

open Source (NodeInfo Role Visit)
open Source.Expr (insideList insideArguments insideProperties strictList strictProperties)
open Target (Stmt)

/-! ## Algorithm -/

/-- What a node itself adds to the account. -/
def ownAccount (pool : TypePool) (v : Visit) : Account := ⟨v.reports pool, v.error? pool⟩

/-- The account of an expression as a part of a node. -/
def accountOf (pool : TypePool) (e : Source.Expr) : Account :=
  account pool (Visit.visits ⟨.part, e⟩)

/-- What the induction over the source tree says of a node. -/
structure TracedNode (pool : TypePool) (e : Source.Expr) : Prop where
  reference : Traced (accountOf pool e) (reference pool e) (reference pool e.strict)
  pattern (hp : e.isPattern) (source : Target.Expr) (ty : SubType) :
    Traced (accountOf pool e) (destructure pool e source ty) (destructure pool e.strict source ty)

/-! ## Lemmas -/

variable {pool : TypePool} {info : NodeInfo}

/-! ### Roles -/

theorem accountOf_eq (e : Source.Expr) :
    accountOf pool e = ownAccount pool ⟨.part, e⟩ ++ account pool e.inside := account_cons ..

theorem accountOf_inside {e : Source.Expr} (h : ownAccount pool ⟨.part, e⟩ = .empty) :
    accountOf pool e = account pool e.inside := by
  rw [accountOf_eq, h, Account.empty_append]

/-- Two roles in which a node has the same errors. -/
theorem error?_role {r s : Role} {e : Source.Expr} (hr : r ≠ .statement) (hs : s ≠ .statement)
    (hspread : e.isSpread = true → (r = .argument true ↔ s = .argument true))
    (hsuper : ∀ i, e = .super i → r.errorSpan i.span = s.errorSpan i.span) :
    Visit.error? pool ⟨r, e⟩ = Visit.error? pool ⟨s, e⟩ := by
  cases e with
  | spread info inner => simp [Visit.error?, hspread rfl]
  | super info =>
    exact congrArg (fun span => errorOf (superClass pool info.ty span)) (hsuper info rfl)
  | call info callee args =>
    cases callee with
    | property => simp only [Visit.error?, hr, hs]
    | _ => rfl
  | _ => rfl

theorem ownAccount_argument {e : Source.Expr} (h : e.isSpread = false) (isLast : Bool) :
    ownAccount pool ⟨.argument isLast, e⟩ =
      ⟨anyReports pool e.info, none⟩ ++ ownAccount pool ⟨.part, e⟩ := by
  refine Account.ext ?_ ?_
  · simp [ownAccount, Visit.reports, Visit.entersCall, h]
  · exact error?_role nofun nofun (by simp [h]) fun _ _ => rfl

theorem ownAccount_callee {span : Span} {e : Source.Expr} (h : ∀ i, e ≠ .super i) :
    ownAccount pool ⟨.callee span, e⟩ =
      ⟨anyReports pool e.info, none⟩ ++ ownAccount pool ⟨.part, e⟩ := by
  refine Account.ext ?_ ?_
  · simp [ownAccount, Visit.reports, Visit.entersCall]
  · exact error?_role nofun nofun (by simp) fun i hi => absurd hi (h i)

theorem ownAccount_statement {e : Source.Expr} (h : ∀ i f args, e ≠ .call i f args) :
    ownAccount pool ⟨.statement, e⟩ = ownAccount pool ⟨.part, e⟩ := by
  cases e with
  | call i f args => exact absurd rfl (h i f args)
  | _ => rfl

/-! ### Lists of parts -/

theorem TracedNode.value {e : Source.Expr} (h : TracedNode pool e) :
    Traced (accountOf pool e) (value pool e) (value pool e.strict) := h.reference.map

theorem traced_operands {es : List Source.Expr} (h : ∀ e ∈ es, TracedNode pool e) :
    TracedAll (account pool (insideList es)) (operands pool es)
      (operands pool (strictList es)) := by
  induction es with
  | nil => exact .nil
  | cons e es ih =>
    obtain ⟨he, hes⟩ := List.forall_mem_cons.1 h
    rw [insideList, account_append]
    exact .cons e.span_strict he.value (ih hes)

theorem traced_propertyOperands {ps : List (String × Source.Expr)}
    (h : ∀ p ∈ ps, TracedNode pool p.2) :
    TracedAll (account pool (insideProperties ps)) (propertyOperands pool ps)
      (propertyOperands pool (strictProperties ps)) := by
  induction ps with
  | nil => exact .nil
  | cons p ps ih =>
    obtain ⟨hp, hps⟩ := List.forall_mem_cons.1 h
    rw [insideProperties, account_append]
    exact .cons p.2.span_strict hp.value (ih hps)

/-- An argument that is no spread is lowered as it is. -/
theorem arguments_cons_of_isSpread {e : Source.Expr} (h : e.isSpread = false)
    (rest : List Source.Expr) :
    arguments pool (e :: rest) =
      argument pool e.info (value pool e) :: arguments pool rest := by
  cases e with
  | spread => cases h
  | _ => rfl

/-- An argument is lowered as it is, a spread one as what is spread if it is the last. -/
theorem traced_arguments {es : List Source.Expr} (h : ∀ e ∈ es, TracedNode pool e)
    (hs : ∀ e ∈ es, ∀ c ∈ e.children, TracedNode pool c) :
    TracedAll (account pool (insideArguments es)) (arguments pool es)
      (arguments pool (strictList es)) := by
  induction es with
  | nil => exact .nil
  | cons e rest ih =>
    obtain ⟨he, hrest⟩ := List.forall_mem_cons.1 h
    obtain ⟨hparts, hsrest⟩ := List.forall_mem_cons.1 hs
    rw [insideArguments, account_append, account_cons]
    cases hspread : e.isSpread with
    | false =>
      rw [strictList, arguments_cons_of_isSpread hspread,
        arguments_cons_of_isSpread (by simpa using hspread)]
      refine .cons e.span_strict ?_ (ih hrest hsrest)
      have own : ownAccount pool ⟨.argument rest.isEmpty, e⟩ =
          ⟨anyReports pool e.info, none⟩ ++ ownAccount pool ⟨.part, e⟩ :=
        ownAccount_argument hspread rest.isEmpty
      rw [e.info_strict]
      refine (traced_argument he.value).of_eq ?_
      rw [accountOf_eq, ← Account.append_assoc, ← own]
      rfl
    | true =>
      cases e with
      | spread info inner =>
        have hinner := (hparts inner List.mem_cons_self).value
        refine .cons rfl ?_ (ih hrest hsrest)
        cases rest with
        | nil => exact traced_spreadArgument hinner
        | cons d rest => exact .fail rfl
      | _ => cases hspread

/-! ### Calls -/

theorem ownAccount_call {role : Role} (hrole : role = .statement ∨ role = .part)
    (callee : Source.Expr) (args : List Source.Expr) :
    ownAccount pool ⟨role, .call info callee args⟩ =
      ⟨[], Visit.error? pool ⟨role, .call info callee args⟩⟩ := by
  rcases hrole with rfl | rfl <;> rfl

theorem accountOf_super : accountOf pool (.super info) =
    ⟨[], errorOf (superClass pool info.ty info.span)⟩ :=
  (accountOf_eq _).trans (Account.append_empty _)

/-- Finding the form of a call fails where the call offends; for the class of a
`super` it fails where the receiver offends. -/
theorem errorOf_resolve {ctx : CallContext} {role : Role} (calleeInfo : NodeInfo)
    (object : Source.Expr) (member : String) (args : List Source.Expr) (rest : Option LowerError)
    (hctx : ctx.discarded = true ↔ role = .statement) :
    (errorOf (CallForm.resolve pool ctx info.span calleeInfo.ty object member args.length)).or
        ((accountOf pool object).error.or rest) =
      (Visit.error? pool ⟨role, .call info (.property calleeInfo object member) args⟩).or
        ((accountOf pool object).error.or rest) := by
  unfold CallForm.resolve
  simp only [Visit.error?]
  cases CallRule.find (.ofType pool object.ty) member args.length with
  | operator op className =>
    simp only [hctx]
    split <;> rfl
  | generic =>
    simp only [genericForm]
    cases isMethodCall pool calleeInfo.ty member info.span with
    | error e => rfl
    | ok isMethod =>
      cases object with
      | super superInfo =>
        rw [accountOf_super]
        cases isMethod with
        | false => rfl
        | true =>
          simp only [bind, Except.bind]
          cases superClass pool superInfo.ty superInfo.span <;> rfl
      | _ => cases isMethod <;> rfl
  | _ => rfl

variable {callee : Source.Expr} {args : List Source.Expr} {role : Role}

theorem account_call (role : Role) :
    account pool (Visit.visits ⟨role, .call info callee args⟩) =
      ownAccount pool ⟨role, .call info callee args⟩ ++
        (ownAccount pool ⟨.callee info.span, callee⟩ ++
          (account pool callee.inside ++ account pool (insideArguments args))) := by
  rw [Visit.visits, account_cons, Source.Expr.inside, List.cons_append, account_cons,
    account_append]
  rfl

theorem account_propertyCall {ctx : CallContext} {calleeInfo : NodeInfo} {object : Source.Expr}
    {member : String} (hrole : role = .statement ∨ role = .part)
    (hctx : ctx.discarded = true ↔ role = .statement) :
    account pool (Visit.visits ⟨role, .call info (.property calleeInfo object member) args⟩) =
      ⟨anyReports pool calleeInfo, errorOf
        (CallForm.resolve pool ctx info.span calleeInfo.ty object member args.length)⟩ ++
        (accountOf pool object ++ account pool (insideArguments args)) := by
  have own : ownAccount pool ⟨.callee info.span, .property calleeInfo object member⟩ =
      ⟨anyReports pool calleeInfo, none⟩ := Account.ext (List.append_nil _) rfl
  rw [account_call, ownAccount_call hrole, own]
  exact Account.ext rfl (errorOf_resolve calleeInfo object member args _ hctx).symm

theorem account_superCall {calleeInfo : NodeInfo} (hrole : role = .statement ∨ role = .part) :
    account pool (Visit.visits ⟨role, .call info (.super calleeInfo) args⟩) =
      ⟨anyReports pool calleeInfo, errorOf (superClass pool calleeInfo.ty info.span)⟩ ++
        account pool (insideArguments args) := by
  have own : ownAccount pool ⟨.callee info.span, .super calleeInfo⟩ =
      ⟨anyReports pool calleeInfo, errorOf (superClass pool calleeInfo.ty info.span)⟩ :=
    Account.ext (List.append_nil _) rfl
  rw [account_call, ownAccount_call hrole, own]
  rfl

theorem account_plainCall (hrole : role = .statement ∨ role = .part)
    (hproperty : ∀ i o m, callee ≠ .property i o m) (hsuper : ∀ i, callee ≠ .super i) :
    account pool (Visit.visits ⟨role, .call info callee args⟩) =
      ⟨anyReports pool callee.info, none⟩ ++
        (accountOf pool callee ++ account pool (insideArguments args)) := by
  have own : ownAccount pool ⟨role, .call info callee args⟩ = .empty := by
    rw [ownAccount_call hrole]
    cases callee with
    | property i o m => exact absurd rfl (hproperty i o m)
    | _ => rfl
  rw [account_call, own, ownAccount_callee hsuper, accountOf_eq, Account.empty_append,
    Account.append_assoc, Account.append_assoc]

theorem traced_call {ctx : CallContext} (hrole : role = .statement ∨ role = .part)
    (hctx : ctx.discarded = true ↔ role = .statement) (hf : TracedNode pool callee)
    (ho : ∀ c ∈ callee.children, TracedNode pool c) (ha : ∀ e ∈ args, TracedNode pool e)
    (hs : ∀ e ∈ args, ∀ c ∈ e.children, TracedNode pool c) :
    Traced (account pool (Visit.visits ⟨role, .call info callee args⟩))
      (call pool ctx (.call info callee args))
      (call pool ctx (Source.Expr.strict (.call info callee args))) := by
  have hargs := traced_arguments ha hs
  have plain (hproperty : ∀ i o m, callee ≠ .property i o m) (hsuper : ∀ i, callee ≠ .super i) :
      Traced (account pool (Visit.visits ⟨role, .call info callee args⟩))
        (plainCall pool ctx info callee.info (value pool callee) (arguments pool args))
        (plainCall pool ctx info callee.info (value pool callee.strict)
          (arguments pool (strictList args))) := by
    rw [account_plainCall hrole hproperty hsuper]
    exact traced_plainCall hf.value hargs
  cases callee with
  | property calleeInfo object member =>
    have hlen : (arguments pool (strictList args)).length = (arguments pool args).length := by
      simp [length_arguments, Source.Expr.strictList_eq_map]
    have hobject := (ho object List.mem_cons_self).value
    rw [account_propertyCall hrole hctx, ← length_arguments pool]
    exact traced_propertyCall hobject hargs hlen
  | super calleeInfo =>
    rw [account_superCall hrole]
    exact traced_superCall hargs
  | binary i op l r => cases op <;> exact plain nofun nofun
  | _ => exact plain nofun nofun

/-! ### Patterns -/

/-- The operator has a pattern on its left to assign to. -/
theorem accountOf_binary {op : Source.BinaryOp} {l r : Source.Expr}
    (h : (Source.Expr.binary info op l r).isLoose = false) :
    accountOf pool (.binary info op l r) =
      if op.isAssignment && l.isPattern then accountOf pool r ++ accountOf pool l
      else accountOf pool l ++ accountOf pool r := by
  have own : ownAccount pool ⟨.part, .binary info op l r⟩ = .empty := by
    cases op with
    | loose => cases h
    | _ => rfl
  rw [accountOf_inside own, Source.Expr.inside_binary info l r h]
  split <;> exact account_append _ _

theorem traced_assignPart {part : Source.Expr} (h : TracedNode pool part) (slot : Target.Expr)
    (ty : SubType) (index : SubIndex) :
    Traced (accountOf pool part)
      (assignPart pool part (fun source ty => destructure pool part source ty)
        (asPlaceExpr (reference pool part)) slot ty index)
      (assignPart pool part.strict (fun source ty => destructure pool part.strict source ty)
        (asPlaceExpr (reference pool part.strict)) slot ty index) := by
  unfold assignPart
  rw [part.isPattern_strict, part.span_strict]
  split
  next hp =>
    have found : Silent (ofFault (pool.subType ty index)) :=
      .ofFault fun _ => TypePool.subType_isSubType
    apply found.traced_bind
    intro partTy
    apply (silent_pushTemp "value" part.span slot).traced_bind
    intro source
    exact h.pattern hp source partTy
  next =>
    have assigned : Traced (accountOf pool part)
        (asPlaceExpr (reference pool part) >>= fun t => emit (.assign t slot))
        (asPlaceExpr (reference pool part.strict) >>= fun t => emit (.assign t slot)) :=
      (h.reference.map).bind_silent fun t => .emit _
    cases part with
    | undefined info => exact .pure ()
    | binary i op l r => cases op <;> exact assigned
    | _ => exact assigned

theorem traced_assignElements {es : List Source.Expr} (h : ∀ e ∈ es, TracedNode pool e)
    (position : Nat) (source : Target.Expr) (ty : SubType) :
    Traced (account pool (insideList es)) (assignElements pool es position source ty)
      (assignElements pool (strictList es) position source ty) := by
  induction es generalizing position with
  | nil => exact .pure ()
  | cons e rest ih =>
    obtain ⟨he, hrest⟩ := List.forall_mem_cons.1 h
    rw [insideList, account_append]
    apply (traced_assignPart he (.index source (oneBased position)) ty (.position position)).bind
    intro _
    exact ih hrest (position + 1)

theorem traced_assignProperties {ps : List (String × Source.Expr)}
    (h : ∀ p ∈ ps, TracedNode pool p.2) (source : Target.Expr) (ty : SubType) :
    Traced (account pool (insideProperties ps)) (assignProperties pool ps source ty)
      (assignProperties pool (strictProperties ps) source ty) := by
  induction ps with
  | nil => exact .pure ()
  | cons p rest ih =>
    obtain ⟨hp, hrest⟩ := List.forall_mem_cons.1 h
    rw [insideProperties, account_append]
    apply (traced_assignPart hp (.property source p.1) ty (.name p.1)).bind
    intro _
    exact ih hrest

theorem traced_pattern {e : Source.Expr} (hp : e.isPattern)
    (hc : ∀ c ∈ e.children, TracedNode pool c) (source : Target.Expr) (ty : SubType) :
    Traced (accountOf pool e) (destructure pool e source ty)
      (destructure pool e.strict source ty) := by
  cases e with
  | array info es =>
    apply (silent_indexableSource ty source).traced_bind
    intro source
    exact traced_assignElements hc 0 source ty
  | object info ps =>
    have hps : ∀ p ∈ ps, TracedNode pool p.2 := fun p hp => hc p.2 (List.mem_map.2 ⟨p, hp, rfl⟩)
    exact traced_assignProperties hps source ty
  | _ => cases hp

/-! ### Nodes -/

theorem traced_binary {op : Source.BinaryOp} {l r : Source.Expr} (hl : TracedNode pool l)
    (hr : TracedNode pool r) :
    Traced (accountOf pool (.binary info op l r)) (value pool (.binary info op l r))
      (value pool (Source.Expr.strict (.binary info op l r))) := by
  have pair : Traced (accountOf pool l ++ accountOf pool r)
      (inOrderPair ⟨l.span, value pool l⟩ ⟨r.span, value pool r⟩)
      (inOrderPair ⟨l.strict.span, value pool l.strict⟩ ⟨r.strict.span, value pool r.strict⟩) :=
    traced_inOrderPair l.span_strict r.span_strict hl.value hr.value
  cases hloose : (Source.Expr.binary info op l r).isLoose with
  | true =>
    rw [Source.Expr.strict_of_isLoose hloose]
    cases op with
    | loose op =>
      rw [value_loose]
      exact traced_looseEquality op info.span
    | _ => cases hloose
  | false =>
    rw [accountOf_binary hloose, Source.Expr.strict_binary info l r hloose]
    cases op with
    | arithmetic op =>
      rw [value_arithmetic, value_arithmetic, l.ty_strict, r.ty_strict]
      exact pair.map
    | relation op =>
      rw [value_relation, value_relation]
      exact pair.bind_silent fun p => silent_relation op info.span p.1 p.2
    | loose => cases hloose
    | logical op =>
      rw [value_logical, value_logical, l.ty_strict]
      exact traced_shortCircuit hl.value hr.value
    | assign =>
      cases hp : l.isPattern with
      | true =>
        rw [value_pattern pool info l r _ rfl hp,
          value_pattern pool info _ _ _ rfl (l.isPattern_strict.trans hp), r.ty_strict]
        exact traced_destructuring hr.value (hl.pattern hp)
      | false =>
        rw [value_assign pool info l r hp,
          value_assign pool info _ _ (l.isPattern_strict.trans hp), l.span_strict]
        exact traced_assignValue hl.reference hr.value
    | assignWith op =>
      cases hp : l.isPattern with
      | true =>
        rw [value_pattern pool info l r _ rfl hp,
          value_pattern pool info _ _ _ rfl (l.isPattern_strict.trans hp), r.ty_strict]
        exact traced_destructuring hr.value (hl.pattern hp)
      | false =>
        rw [value_assignWith pool info l r op hp,
          value_assignWith pool info _ _ op (l.isPattern_strict.trans hp), l.info_strict,
          r.ty_strict]
        exact traced_compoundValue hl.reference hr.value

theorem traced_prefixed {op : Source.PrefixOp} {e : Source.Expr} (h : TracedNode pool e) :
    Traced (accountOf pool e) (value pool (.prefixed info op e))
      (value pool (.prefixed info op e.strict)) := by
  cases op with
  | not =>
    rw [value_not, value_not, e.ty_strict]
    apply h.value.bind_silent
    intro v
    exact (silent_truthiness e.ty info.span v).map
  | neg =>
    rw [value_neg, value_neg]
    exact h.value.map
  | plus =>
    rw [value_plus, value_plus]
    exact h.value.map
  | bitNot =>
    rw [value_bitNot, value_bitNot]
    exact h.value.map
  | update op =>
    rw [value_updateBefore, value_updateBefore]
    exact traced_updateBefore h.reference

theorem traced_node (pool : TypePool) (e : Source.Expr) : TracedNode pool e := by
  have all := Source.Expr.everywhere_of_forall (P := fun _ => True) (fun _ => trivial) e
  refine all.induct₂ (motive := TracedNode pool) fun e _ hc hd =>
    ⟨?_, fun hp => traced_pattern hp hc⟩
  cases e with
  | ident | this | number | string | bool | undefined | error => exact .pure _
  | super info =>
    rw [accountOf_super]
    exact (Traced.ofError _).map.map
  | paren info inner => exact (hc inner List.mem_cons_self).reference.map
  | spread info inner => exact .fail rfl
  | property info object name =>
    apply (hc object List.mem_cons_self).value.bind_silent
    intro o
    exact .pure _
  | element info object index =>
    have ho := (hc object List.mem_cons_self).value
    have hi := (hc index (List.mem_cons_of_mem _ List.mem_cons_self)).value
    rw [accountOf_inside rfl, Source.Expr.inside, account_append]
    show Traced _ _ (inOrderPair ⟨object.strict.span, _⟩ ⟨index.strict.span, _⟩ >>= fun p =>
      pure (Reference.plain (.index p.1 (shiftIndex pool object.strict.ty p.2))))
    rw [object.ty_strict]
    apply (traced_inOrderPair object.span_strict index.span_strict ho hi).bind_silent
    rintro ⟨o, i⟩
    exact .pure _
  | call info callee args =>
    obtain ⟨hf, ha⟩ := List.forall_mem_cons.1 hc
    obtain ⟨ho, hs⟩ := List.forall_mem_cons.1 hd
    rw [reference_call]
    show Traced _ _ (reference pool (.call info callee.strict (strictList args)))
    rw [reference_call]
    exact (traced_call (.inr rfl) (by decide) hf ho ha hs).map
  | binary info op l r =>
    have hbinary : Traced (accountOf pool (.binary info op l r)) (value pool (.binary info op l r))
        (value pool (Source.Expr.strict (.binary info op l r))) :=
      traced_binary (hc l List.mem_cons_self) (hc r (List.mem_cons_of_mem _ List.mem_cons_self))
    rw [reference_binary]
    cases op with
    | loose op => exact hbinary.map
    | _ =>
      simp only [Source.Expr.strict, reference_binary]
      exact hbinary.map
  | prefixed info op inner =>
    show Traced _ _ (reference pool (.prefixed info op inner.strict))
    rw [reference_prefixed, reference_prefixed]
    exact (traced_prefixed (hc inner List.mem_cons_self)).map
  | postfixed info op inner =>
    show Traced _ _ (reference pool (.postfixed info op inner.strict))
    rw [reference_postfixed, reference_postfixed, value_updateAfter, value_updateAfter]
    exact (traced_updateAfter (hc inner List.mem_cons_self).reference).map
  | array info es =>
    apply (traced_inOrder (traced_operands hc)).bind_silent
    intro vs
    exact .pure _
  | object info ps =>
    have hps : ∀ p ∈ ps, TracedNode pool p.2 := fun p hp => hc p.2 (List.mem_map.2 ⟨p, hp, rfl⟩)
    have hnames : (strictProperties ps).map (·.1) = ps.map (·.1) := by
      simp [Source.Expr.strictProperties_eq_map]
    show Traced _ _ (inOrder (propertyOperands pool (strictProperties ps)) >>= fun vs =>
      pure (Reference.ofExpr (.table (List.zipWith .named ((strictProperties ps).map (·.1)) vs))))
    rw [hnames]
    apply (traced_inOrder (traced_propertyOperands hps)).bind_silent
    intro vs
    exact .pure _

/-! ### Statements -/

theorem traced_statementBody (e : Source.Expr) :
    Traced (account pool (Visit.visits ⟨.statement, e⟩)) (statementBody pool e)
      (statementBody pool e.strict) := by
  have node := traced_node pool
  have same (h : ∀ i f args, e ≠ .call i f args) :
      account pool (Visit.visits ⟨.statement, e⟩) = accountOf pool e := by
    rw [accountOf_eq, ← ownAccount_statement h]
    exact account_cons _ _
  have dropped : Traced (accountOf pool e) (discard <$> value pool e)
      (discard <$> value pool e.strict) := (node e).value.map
  cases e with
  | binary info op l r =>
    rw [same nofun]
    cases hloose : (Source.Expr.binary info op l r).isLoose with
    | true =>
      cases op with
      | loose op =>
        rw [statementBody_binary pool info l r _ (.inr rfl)]
        exact dropped
      | _ => cases hloose
    | false =>
      rw [Source.Expr.strict_binary info l r hloose] at dropped ⊢
      by_cases hdrop : l.isPattern = true ∨ op.isAssignment = false
      · rw [statementBody_binary pool info l r op hdrop,
          statementBody_binary pool info _ _ op (by rwa [l.isPattern_strict])]
        exact dropped
      obtain ⟨hp, hop⟩ : l.isPattern = false ∧ op.isAssignment = true := by simpa using hdrop
      have hp' : l.strict.isPattern = false := l.isPattern_strict.trans hp
      rw [accountOf_binary hloose, hp, Bool.and_false]
      rcases (Source.BinaryOp.isAssignment_iff op).1 hop with rfl | ⟨op, rfl⟩
      · rw [statementBody_assign pool info l r hp, statementBody_assign pool info _ _ hp',
          l.span_strict]
        exact (traced_assignStatement (node l).reference (node r).value).map
      · rw [statementBody_assignWith pool info l r op hp,
          statementBody_assignWith pool info _ _ op hp', l.info_strict, r.ty_strict]
        exact (traced_compoundStatement (node l).reference (node r).value).map
  | prefixed info op inner =>
    cases op with
    | update op => exact (traced_updateStatement op (node inner).reference).map
    | _ => exact dropped
  | postfixed info op inner => exact (traced_updateStatement op (node inner).reference).map
  | call info callee args =>
    exact (traced_call (.inl rfl) (by decide) (node callee) (fun c _ => node c) (fun c _ => node c)
      fun _ _ c _ => node c).map
  | _ =>
    rw [same nofun]
    exact dropped

theorem traced_topLevel (s : Source.Stmt Source.Expr) :
    Traced (account pool s.visits) (topLevel pool s) (topLevel pool s.strict) := by
  rcases s with ⟨kind, span⟩
  cases kind with
  | expr e =>
    have hvisits : Source.Stmt.visits ⟨.expr e, span⟩ = Visit.visits ⟨.statement, e⟩ :=
      List.append_nil _
    rw [hvisits]
    apply (traced_statementBody e).capture.bind_silent
    rintro ⟨last, ss⟩
    exact .pure _
  | letDecl name init =>
    cases init with
    | none => exact .pure _
    | some e =>
      have hvisits : Source.Stmt.visits ⟨.letDecl name (some e), span⟩ =
          Visit.visits ⟨.part, e⟩ := List.append_nil _
      rw [hvisits]
      apply (traced_node pool e).value.capture.bind_silent
      rintro ⟨v, ss⟩
      exact .pure _
  | importDecl | exportDecl => exact .pure _

end ScriptLowering.Lower
