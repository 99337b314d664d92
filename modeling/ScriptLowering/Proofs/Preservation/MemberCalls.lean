import ScriptLowering.Proofs.Preservation.Compound

/-!
# Runs of member calls

A call that goes by its signatures evaluates the receiver, runs the statements of
its arguments, and only then looks the member up.  So what it calls is what the
member holds when these statements are done; the source looks it up before.

    the lowered call = c.late                                          (runValue_stmts)
    the statements leave the member → c.late = c.early                    (late_eq_early)
    the old member is called ↔ they leave it                              (invoked_iff)
-/

namespace ScriptLowering.Lower

open Run (After)
open Target (Expr Stmt Temps eval evalList execAll)
open Source (NodeInfo)

variable {w : World} {pool : TypePool}

/-! ## Algorithm -/

/-- The code of a call `receiver.member(args)`. -/
structure MemberCode where
  receiverStmts : List Stmt
  receiver : Expr
  /-- The temporary that the receiver is bound to, if it is. -/
  temp? : Option Nat
  /-- The statements of the arguments. -/
  hoisted : List Stmt
  member : String
  args : List Expr
  /-- The receiver is the first argument. -/
  passesSelf : Bool

namespace MemberCode

variable (c : MemberCode)

def binding : List Stmt :=
  match c.temp? with
  | some id => [.declareTemp id c.receiver]
  | none => []

/-- What the member is looked up in. -/
def object : Expr :=
  match c.temp? with
  | some id => .temp id
  | none => c.receiver

def call : Expr :=
  if c.passesSelf then .method c.object c.member c.args
  else .call (.property c.object c.member) c.args

def stmts : List Stmt := c.receiverStmts ++ (c.binding ++ c.hoisted)

/-- Evaluates the receiver. -/
def holder (τ : Temps w) : w.Run (Temps w × w.Val) := do
  let τ ← execAll c.receiverStmts τ
  let x ← eval τ c.receiver
  match c.temp? with
  | some id => return (τ.set id x, x)
  | none => return (τ, x)

/-- Evaluates what is left of the arguments and makes the call. -/
def finish (τ : Temps w) (x callee : w.Val) : w.Run w.Val := do
  let xs ← evalList τ c.args
  Run.callValue callee (if c.passesSelf then x :: xs else xs)

/-- Looks the member up after the statements of the arguments. -/
def late (τ : Temps w) : w.Run w.Val := do
  let (τ, x) ← c.holder τ
  let τ ← execAll c.hoisted τ
  let callee ← Run.readMember x (.string c.member)
  c.finish τ x callee

/-- Looks the member up before the statements of the arguments, as in the source. -/
def early (τ : Temps w) : w.Run w.Val := do
  let (τ, x) ← c.holder τ
  let callee ← Run.readMember x (.string c.member)
  let τ ← execAll c.hoisted τ
  c.finish τ x callee

/-- What the member holds before anything of the arguments was run. -/
def held (τ : Temps w) : w.Run w.Val := do
  let (_, x) ← c.holder τ
  Run.readMember x (.string c.member)

/-- What is called. -/
def invoked (τ : Temps w) : w.Run w.Val := do
  let (τ, x) ← c.holder τ
  let _ ← execAll c.hoisted τ
  Run.readMember x (.string c.member)

/-- The receiver has the member, and the statements of the arguments leave it. -/
def KeepsMember (τ : Temps w) (s : w.State) : Prop :=
  After (c.holder τ) s fun p s₁ => ∃ f, w.member p.2 (.string c.member) s₁.toStore = .ok f ∧
    After (execAll c.hoisted p.1) s₁ fun _ s₂ =>
      w.member p.2 (.string c.member) s₂.toStore = .ok f

/-- The code is that of `object.member(args)`, lowered from `n` on. -/
structure IsFor (pool : TypePool) (object : Source.Expr) (args : List Source.Expr) (n : Nat) :
    Prop where
  receiver : ∃ e, value pool object n = (.ok c.receiver, e) ∧ e.stmts = c.receiverStmts
  args : ∃ cs m e m' e', captureAll (arguments pool args) m = (.ok cs, e) ∧
    m + e.temps.length ≤ m' ∧ settleAll cs m' = (.ok c.args, e') ∧ e'.stmts = c.hoisted

/-- The statements of the arguments cannot change what the receiver is. -/
def Fixed : Prop :=
  match c.temp? with
  | some id => .temp id ∉ Stmt.leavesAll c.hoisted
  | none => c.hoisted = [] ∨ (c.receiver.isStable ∧
      ∀ i, .temp i ∈ c.receiver.leaves → .temp i ∉ Stmt.leavesAll c.hoisted)

/-! ## Lemmas -/

variable {c : MemberCode}

theorem eval_call (τ : Temps w) : eval τ c.call =
    (eval τ c.object >>= fun x => Run.readMember x (.string c.member) >>= c.finish τ x) := by
  unfold call finish
  cases c.passesSelf <;> simp only [Bool.false_eq_true, if_true, if_false, eval, Run.bind_assoc]

/-- The receiver stays what it was while the statements of the arguments run. -/
theorem runValue_stmts (hc : c.Fixed) (τ : Temps w) (s : w.State) :
    runValue c.stmts c.call τ s = c.late τ s := by
  unfold Fixed at hc
  simp only [runValue, stmts, late, holder, Target.execAll_append, Run.bind_assoc]
  refine Run.bind_congr_right fun τ₁ s₁ _ => ?_
  cases htemp : c.temp? with
  | some id =>
    rw [htemp] at hc
    simp only [binding, htemp, Target.execAll_single, Target.exec_declareTemp, Run.bind_assoc,
      Run.pure_bind]
    refine Run.bind_congr_right fun x s₂ _ => Run.bind_congr_right fun τ₃ s₃ h₃ => ?_
    have hx : τ₃ id = x := by rw [Target.execAll_frame _ hc h₃, Temps.set_self]
    rw [eval_call]
    simp only [object, htemp, eval, Run.pure_bind, hx]
  | none =>
    rw [htemp] at hc
    simp only [binding, htemp, execAll, Run.pure_bind]
    rcases hc with hnil | ⟨hstable, hfresh⟩
    · simp only [hnil, execAll, Run.pure_bind, eval_call, object, htemp]
    · obtain ⟨f, hf⟩ := eval_of_isStable (w := w) hstable
      rw [hf τ₁, Run.pure_bind]
      refine Run.bind_congr_right fun τ₂ s₂ h₂ => ?_
      have hagree : τ₂.AgreeOn τ₁ c.receiver.leaves := fun i hi =>
        Target.execAll_frame _ (hfresh i hi) h₂
      rw [eval_call]
      simp only [object, htemp, Target.eval_congr _ hagree, hf τ₁, Run.pure_bind]

/-- If the statements of the arguments leave the member, it might as well be looked
up before them. -/
theorem late_eq_early {τ : Temps w} {s : w.State} (h : c.KeepsMember τ s) :
    c.late τ s = c.early τ s := by
  refine Run.bind_congr_right fun ⟨τ₁, x⟩ s₁ ht => ?_
  obtain ⟨f, hf, hkeep⟩ := h (τ₁, x) s₁ ht
  have hbefore : Run.readMember x (.string c.member) s₁ = (.ok f, s₁) := Prod.ext hf rfl
  simp only [Run.bind_of_ok hbefore]
  refine Run.bind_congr_right fun τ₂ s₂ h₂ => ?_
  have hafter : Run.readMember x (.string c.member) s₂ = (.ok f, s₂) :=
    Prod.ext (hkeep τ₂ s₂ h₂) rfl
  exact Run.bind_of_ok hafter _

/-- Arguments without statements cannot come between. -/
theorem late_of_not_hoisted (h : c.hoisted = []) (τ : Temps w) : c.late τ = c.early τ := by
  simp only [late, early, h, execAll, Run.pure_bind]

/-- The old member is called exactly if it is kept. -/
theorem invoked_iff {τ : Temps w} {s s' : w.State} {f : w.Val}
    (h : c.invoked τ s = (.ok f, s')) : (c.held τ s).1 = .ok f ↔ c.KeepsMember τ s := by
  obtain ⟨⟨τ₁, x⟩, s₁, ht, h₁⟩ := Run.bind_eq_ok.1 h
  obtain ⟨τ₂, s₂, h₂, hf⟩ := Run.bind_eq_ok.1 h₁
  have hafter : w.member x (.string c.member) s₂.toStore = .ok f := congrArg (·.1) hf
  have hheld : (c.held τ s).1 = w.member x (.string c.member) s₁.toStore := by
    rw [held, Run.bind_of_ok ht]
    rfl
  rw [hheld]
  constructor
  · rintro hf₁ p s₁' ht'
    cases ht.symm.trans ht'
    refine ⟨f, hf₁, fun τ' s'' h' => ?_⟩
    cases h₂.symm.trans h'
    exact hafter
  · intro hk
    obtain ⟨g, hg, hkeep⟩ := hk (τ₁, x) s₁ ht
    rw [hg, ← hkeep τ₂ s₂ h₂, hafter]

end MemberCode

/-! ### Lowered code -/

/-- Whatever is asked of targets, the operands of a call read what they declare. -/
theorem tidy_any_operands (object : Source.Expr) (args : List Source.Expr) :
    ∀ x ∈ ⟨object.span, value pool object⟩ :: arguments pool args,
      Tidy (fun _ => True) [] x.lower Expr.ReadsIn :=
  List.forall_mem_cons.2 ⟨tidy_value pool object [],
    tidy_arguments (fun e _ => tidy_any pool e) (fun _ _ c _ => tidy_any pool c) []⟩

/-- The receiver is bound where the arguments have statements, unless it is stable. -/
theorem member_operands {object : Source.Expr} {args : List Source.Expr} {n : Nat}
    {p : Expr × List Expr} {e : Effects}
    (h : inOrderCons ⟨object.span, value pool object⟩ (arguments pool args) n = (.ok p, e))
    (member : String) (passesSelf : Bool) :
    ∃ c : MemberCode, c.IsFor pool object args n ∧ c.Fixed ∧ c.stmts = e.stmts ∧
      c.object = p.1 ∧ c.args = p.2 ∧ c.member = member ∧ c.passesSelf = passesSelf := by
  obtain ⟨cs', e', e'', hcapture, hvs, rfl⟩ := bind_eq_ok.1 (inOrderCons_eq_ok h)
  obtain ⟨hnil, hapart⟩ := apart_captureAll (tidy_any_operands object args) hcapture
  obtain ⟨v, e₁, cs, e₂, hv, hcs, rfl, rfl⟩ := captureAll_cons_eq_ok.1 hcapture
  obtain ⟨u, e₃, us, e₄, hu, hus, hp, rfl⟩ := settleAll_cons_eq_ok.1 hvs
  obtain ⟨rfl, rfl⟩ := List.cons.inj hp
  have hlength : n + e₁.temps.length + e₂.temps.length ≤
      n + (e₁.withoutStmts ++ e₂).temps.length + e₃.temps.length := by
    simp only [Effects.temps_append, Effects.temps_withoutStmts, List.length_append]
    omega
  have hfor (temp? : Option Nat) :
      MemberCode.IsFor ⟨e₁.stmts, v, temp?, e₄.stmts, member, p.2, passesSelf⟩ pool object args n :=
    ⟨⟨e₁, hv, rfl⟩, cs, _, e₂, _, e₄, hcs, hlength, hus, rfl⟩
  rcases settle_eq_ok hu with ⟨hstays, hvalue, rfl⟩ | ⟨-, hvalue, rfl⟩
  · refine ⟨_, hfor none, ?_, by simp [MemberCode.stmts, MemberCode.binding, hnil], hvalue.symm,
      rfl, rfl, rfl⟩
    rcases hstays with hquiet | hstable
    · exact .inl (stmts_settleAll_of_no_stmts hquiet hus)
    · refine .inr ⟨hstable, fun i hi => ?_⟩
      have hown := (hapart.inScope _ List.mem_cons_self).declaredWithin_of_value hi
      exact (hapart.tail.mono (Nat.le_add_right _ _)).not_mem_settleAll hus
        (Nat.lt_of_lt_of_le (hapart.below i (List.mem_append_left _ hown)) (Nat.le_add_right _ _))
        (hapart.not_mem_tail hown)
  · refine ⟨_, hfor (some _), ?_, ?_, hvalue.symm, rfl, rfl, rfl⟩
    · exact (hapart.tail.mono (Nat.le_succ _)).not_mem_settleAll hus (Nat.lt_succ_self _)
        fun hm => Nat.lt_irrefl _ (hapart.tail.below _ hm)
    · simp [MemberCode.stmts, MemberCode.binding, hnil]

theorem stmts_useHelperOf {form : CallForm} {n : Nat} {e : Effects}
    (h : useHelperOf form n = (.ok (), e)) : e.stmts = [] := by
  unfold useHelperOf at h
  cases hf : form.helper? <;> rw [hf] at h <;> cases h <;> rfl

/-- A call by the generic rule is lowered to code of this kind. -/
theorem member_code {ctx : CallContext} {info cinfo : NodeInfo} {object : Source.Expr}
    {member : String} {args : List Source.Expr} {n : Nat} {r : Expr} {e : Effects}
    (hrule : CallRule.find (.ofType pool object.ty) member args.length = .generic)
    (hsuper : ∀ info, object ≠ .super info)
    (h : call pool ctx (.call info (.property cinfo object member) args) n = (.ok r, e)) :
    ∃ c : MemberCode, c.IsFor pool object args n ∧ c.Fixed ∧ c.stmts = e.stmts ∧
      r = packReturn pool ctx info.ty c.call ∧ c.member = member ∧
      isMethodCall pool cinfo.ty member info.span = .ok c.passesSelf := by
  rw [call, propertyCall_eq] at h
  obtain ⟨⟨⟩, e₀, e', hcheck, hrest, rfl⟩ := bind_eq_ok.1 h
  obtain ⟨hstmts₀, htemps₀⟩ := quiet_checkNotAny hcheck
  rw [htemps₀, List.length_nil, Nat.add_zero] at hrest
  obtain ⟨form, e₁, e₂, hform, hcall, rfl⟩ := bind_eq_ok.1 hrest
  obtain ⟨hresolve, rfl⟩ := ofError_eq_ok.1 hform
  obtain ⟨p, e₃, e₄, hoperands, hbuilt, rfl⟩ := bind_eq_ok.1 hcall
  obtain ⟨⟨⟩, e₅, e₆, hhelper, hr, rfl⟩ := bind_eq_ok.1 hbuilt
  cases hr
  simp only [CallForm.resolve, length_arguments, hrule] at hresolve
  have hmember := (genericForm_eq_ok hresolve).resolve_right (by
    rintro ⟨superInfo, -, hobject, -⟩
    exact hsuper superInfo hobject)
  obtain ⟨passesSelf, hself, rfl⟩ := hmember
  obtain ⟨c, hfor, hfixed, hstmts, hobject, hargs, rfl, rfl⟩ :=
    member_operands hoperands member passesSelf
  refine ⟨c, hfor, hfixed, by simp [hstmts, hstmts₀, stmts_useHelperOf hhelper], ?_, rfl, hself⟩
  rw [MemberCode.call, hobject, hargs]
  cases c.passesSelf <;> rfl

/-- A call by the generic rule calls what the member holds when the statements of
the arguments are done.  That is the function that it held before exactly if they
leave it; then, and where there are none, the call runs as if the member had been
looked up first. -/
theorem member_invoked {ctx : CallContext} {info cinfo : NodeInfo} {object : Source.Expr}
    {member : String} {args : List Source.Expr} {n : Nat} {r : Expr} {e : Effects}
    (hrule : CallRule.find (.ofType pool object.ty) member args.length = .generic)
    (hsuper : ∀ info, object ≠ .super info)
    (h : call pool ctx (.call info (.property cinfo object member) args) n = (.ok r, e)) :
    ∃ c : MemberCode, c.IsFor pool object args n ∧ c.stmts = e.stmts ∧
      r = packReturn pool ctx info.ty c.call ∧ c.member = member ∧
      isMethodCall pool cinfo.ty member info.span = .ok c.passesSelf ∧
      ∀ (w : World) (τ : Temps w) (s : w.State),
        runValue e.stmts c.call τ s = c.late τ s ∧
        (c.KeepsMember τ s ∨ c.hoisted = [] → runValue e.stmts c.call τ s = c.early τ s) ∧
        ∀ f s', c.invoked τ s = (.ok f, s') → ((c.held τ s).1 = .ok f ↔ c.KeepsMember τ s) := by
  obtain ⟨c, hfor, hfixed, hstmts, hr, hmember, hself⟩ := member_code hrule hsuper h
  refine ⟨c, hfor, hstmts, hr, hmember, hself, fun w τ s => ?_⟩
  have hlate : runValue e.stmts c.call τ s = c.late τ s :=
    hstmts ▸ MemberCode.runValue_stmts hfixed τ s
  refine ⟨hlate, ?_, fun f s' hf => MemberCode.invoked_iff hf⟩
  rintro (hkeep | hnil)
  · exact hlate.trans (MemberCode.late_eq_early hkeep)
  · exact hlate.trans (congrFun (MemberCode.late_of_not_hoisted hnil τ) s)

/-- A pool with the type of functions that are values. -/
def functionValues : TypePool := (TypePool.fresh.function [.functionValue]).2

def fieldOf (name : String) (ty : TypeId) : Source.Expr :=
  .property ⟨.dummy, ty⟩ (.ident ⟨.dummy, .unknown⟩ "o") name

/-- `o.f(o.f = g)` -/
def replacing : Source.Expr :=
  let info : NodeInfo := ⟨.dummy, .unknown⟩
  .call info (fieldOf "f" ⟨7⟩) [.binary info .assign (fieldOf "f" .unknown) (.ident info "g")]

/-- `o.f(g)` -/
def keeping : Source.Expr :=
  let info : NodeInfo := ⟨.dummy, .unknown⟩
  .call info (fieldOf "f" ⟨7⟩) [.ident info "g"]

/-- `o.f(x = 1)` -/
def sparing : Source.Expr :=
  let info : NodeInfo := ⟨.dummy, .unknown⟩
  .call info (fieldOf "f" ⟨7⟩) [.binary info .assign (.ident info "x") (.number info .one)]

/-- A world with a single cell, which is every member of every value. -/
def cellWorld : World where
  Ref := Nat
  Heap := Value Nat
  Error := Unit
  call callee _ s := (.ok callee, s)
  member _ _ s := .ok s.heap
  setMember _ _ v s := (.ok (), { s with heap := v })
  binary _ _ _ s := (.error (), s)
  unary _ _ s := (.error (), s)
  table _ s := (.error (), s)
  pack _ s := (.error (), s)
  stuck := ()

/-- An argument without statements leaves the member as it was looked up, and so does one
that assigns to a variable. -/
theorem member_invoked_keeping :
    (∃ c : MemberCode, c.stmts = [] ∧
      c.call = .call (.property (.ident "o") "f") [.ident "g"] ∧
      ∀ (w : World) (τ : Temps w) (s : w.State), runValue [] c.call τ s = c.early τ s) ∧
    ∃ c : MemberCode, c.hoisted = [.assign (.ident "x") (.number .one)] ∧
      c.stmts = [.declareTemp 0 (.ident "o"), .assign (.ident "x") (.number .one)] ∧
      c.call = .call (.property (.temp 0) "f") [.ident "x"] ∧
      ∀ (τ : Temps cellWorld) (s : cellWorld.State),
        c.KeepsMember τ s ∧ runValue c.stmts c.call τ s = c.early τ s := by
  have hsuper : ∀ info, Source.Expr.ident ⟨.dummy, .unknown⟩ "o" ≠ .super info := nofun
  have hty : functionValues.has .unknown .tupleReturn = false := rfl
  constructor
  · have hlowered : call functionValues .value keeping 0 =
        (.ok (.call (.property (.ident "o") "f") [.ident "g"]), .none) := rfl
    obtain ⟨c, -, hstmts, hr, -, -, hrun⟩ := member_invoked rfl hsuper hlowered
    have hnil : c.receiverStmts = [] ∧ c.binding = [] ∧ c.hoisted = [] := by
      simpa [MemberCode.stmts] using hstmts
    refine ⟨c, hstmts, ?_, fun w τ s => (hrun w τ s).2.1 (.inr hnil.2.2)⟩
    simpa [packReturn, hty] using hr.symm
  · obtain ⟨e, hlowered, hdone⟩ : ∃ e, call functionValues .value sparing 0 =
        (.ok (.call (.property (.temp 0) "f") [.ident "x"]), e) ∧
        e.stmts = [.declareTemp 0 (.ident "o"), .assign (.ident "x") (.number .one)] :=
      ⟨_, rfl, rfl⟩
    obtain ⟨c, hfor, hstmts, hr, -, -, hrun⟩ := member_invoked rfl hsuper hlowered
    obtain ⟨⟨e₁, hreceiver, hfirst⟩, cs, m, e₂, m', e₃, hcs, -, hvs, hhoisted⟩ := hfor
    simp only [hdone] at hstmts hrun
    have hcode : packReturn functionValues .value .unknown c.call = c.call := by simp [packReturn, hty]
    have hcall : c.call = .call (.property (.temp 0) "f") [.ident "x"] := hcode.symm.trans hr.symm
    obtain ⟨receiverStmts, receiver, temp?, hoisted, member, args, passesSelf⟩ := c
    obtain ⟨rfl, rfl⟩ : receiverStmts = [] ∧ receiver = .ident "o" := by
      cases hreceiver
      exact ⟨hfirst.symm, rfl⟩
    obtain ⟨rfl, rfl⟩ :
        hoisted = [.assign (.ident "x") (.number .one)] ∧ args = [.ident "x"] := by
      cases hcs
      cases hvs
      exact ⟨hhoisted.symm, rfl⟩
    obtain rfl : temp? = some 0 := by
      cases temp? <;> cases hstmts
      rfl
    refine ⟨_, rfl, rfl, hcall, fun τ s =>
      (fun hkeeps => ⟨hkeeps, (hrun cellWorld τ s).2.1 (.inl hkeeps)⟩) ?_⟩
    -- Assigning to a variable leaves the cell.
    rintro _ _ ⟨⟩
    refine ⟨_, rfl, ?_⟩
    rintro _ _ ⟨⟩
    rfl

/-- The receiver is bound, and the member is replaced before it is looked up. -/
def replacingCode : MemberCode where
  receiverStmts := []
  receiver := .ident "o"
  temp? := some 0
  hoisted := [.assign (.property (.ident "o") "f") (.ident "g")]
  member := "f"
  args := [.property (.ident "o") "f"]
  passesSelf := false

/-- The cell holds a function, and `g` is another one. -/
def beforeReplacing : cellWorld.State := ⟨⟨fun _ => .ref (1 : Nat), .ref (0 : Nat)⟩, []⟩

/-- The function that the argument puts into the member is called in place of the
one that was there. -/
theorem invoked_ne_held :
    call functionValues .value replacing 0 =
        (.ok replacingCode.call, (call functionValues .value replacing 0).2) ∧
      (call functionValues .value replacing 0).2.stmts = replacingCode.stmts ∧
      replacingCode.IsFor functionValues (.ident ⟨.dummy, .unknown⟩ "o")
        [.binary ⟨.dummy, .unknown⟩ .assign (fieldOf "f" .unknown)
          (.ident ⟨.dummy, .unknown⟩ "g")] 0 ∧
      ∀ τ : Temps cellWorld,
        (replacingCode.held τ beforeReplacing).1 = .ok (.ref (0 : Nat)) ∧
        (runValue replacingCode.stmts replacingCode.call τ beforeReplacing).2.calls =
          [(.ref (1 : Nat), [.ref (1 : Nat)])] ∧
        (replacingCode.early τ beforeReplacing).2.calls =
          [(.ref (0 : Nat), [.ref (1 : Nat)])] :=
  ⟨rfl, rfl, ⟨⟨_, rfl, rfl⟩, _, 0, _, 1, _, rfl, Nat.zero_le 1, rfl, rfl⟩, fun _ =>
    ⟨rfl, rfl, rfl⟩⟩

end ScriptLowering.Lower
