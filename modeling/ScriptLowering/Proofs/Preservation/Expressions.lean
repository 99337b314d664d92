import ScriptLowering.Proofs.Lowering.Nodes
import ScriptLowering.Proofs.Lowering.Total
import ScriptLowering.Proofs.Preservation.Truth
import ScriptLowering.Proofs.Temporaries.Expressions

/-!
# Lowering preserves runs

Plain source expressions are lowered, and running the statements and then the
value does what the expression does: the same value or error, the same calls
with the same arguments in the same order, the same variables and heap.

    each node runs as its meaning                                     (runs_node)
    expression pool e = (v, ss) → ss; v runs as e                      (expression_preserves)
-/

namespace ScriptLowering.Lower

open Run (After)
open Source (Typed TypedList)
open Source.Expr (Plain)
open Target (Expr Stmt Temps eval evalList execAll)

variable {w : World} {pool : TypePool}

/-- The run of a source expression, where its values are typed. -/
def Meaning.ofExpr (pool : TypePool) (e : Source.Expr) : Meaning w := ⟨Source.eval e, Typed pool e⟩

/-! ### Rules -/

theorem Runs.pure {v : Expr} {m : Meaning w} (h : ∀ (τ : Temps w) s, eval τ v s = m.run s) :
    Runs (pure v) m := by
  rintro n _ _ ⟨⟩ τ s -
  exact h τ s

theorem Runs.map {x : Lower Expr} {m m' : Meaning w} {f : Expr → Expr} {g : w.Val → w.Run w.Val}
    (hx : Runs x m) (hpre : ∀ s, m'.pre s → m.pre s)
    (hf : ∀ (τ : Temps w) v, eval τ (f v) = eval τ v >>= g) (hm : m'.run = m.run >>= g) :
    Runs (f <$> x) m' := by
  intro n v e h τ s hs
  obtain ⟨u, hu, rfl⟩ := map_eq_ok.1 h
  rw [runValue, hm]
  simp only [hf]
  exact Run.bind_through (hx hu τ s (hpre s hs)) fun _ _ _ _ => rfl

theorem Runs.imp {x : Lower Expr} {m m' : Meaning w} (hx : Runs x m)
    (hpre : ∀ s, m'.pre s → m.pre s) (hm : m'.run = m.run) : Runs x m' := by
  intro n v e h τ s hs
  rw [hm]
  exact hx h τ s (hpre s hs)

theorem eval_negate (τ : Temps w) (v : Expr) : eval τ (negate v) = eval τ v >>= Run.negate := by
  cases v <;> rfl

/-! ### Variables -/

theorem reference_variable (pool : TypePool) {l : Source.Expr} {name : String} (h : l.variable? = some name) :
    ∃ r, reference pool l = pure r ∧ r.place = .whole (.ident name) := by
  fun_induction Source.Expr.variable? l with
  | case1 info name' =>
    cases h
    exact ⟨_, rfl, rfl⟩
  | case2 info inner ih =>
    obtain ⟨r, hr, hp⟩ := ih h
    exact ⟨.paren r, by simp only [reference, hr, map_pure], hp⟩
  | case3 => cases h

theorem isPattern_of_variable {l : Source.Expr} {name : String} (h : l.variable? = some name) :
    l.isPattern = false := by
  cases l <;> first | rfl | cases h

/-- A variable that was just written reads as the value. -/
theorem readVar_of_writeVar (name : String) (v : w.Val) :
    (Run.writeVar name v >>= fun _ => Run.readVar name) =
      (Run.writeVar name v >>= fun _ => pure v) := by
  funext s
  simp [Run.bind_apply, Run.writeVar, Run.readVar, Run.pure_apply]

/-- Reading a variable twice in a row gives one value. -/
theorem readVar_twice {β : Type} (name : String) (f : w.Val → w.Val → w.Run β) :
    (Run.readVar name >>= fun a => Run.readVar name >>= fun b => f a b) =
      Run.readVar name >>= fun a => f a a := rfl

/-- The value is written by a statement, and then read. -/
theorem assignValue_runs {span : Span} {l : Source.Expr} {name : String} {value : Lower Expr}
    {m : Meaning w} (hl : l.variable? = some name) (hv : Runs value m) :
    Runs (assignValue span (reference pool l) value) ⟨Source.assignTo l m.run, m.pre⟩ := by
  intro n u e h τ s hs
  obtain ⟨r, hr, hplace⟩ := reference_variable pool hl
  rw [hr] at h
  obtain ⟨⟨t, v⟩, e₁, e₂, htv, hrest, rfl⟩ := bind_eq_ok.1 h
  obtain ⟨hval, rfl⟩ := targetAndValue_whole_eq_ok hplace htv
  obtain ⟨rfl, h₂⟩ : u = .ident name ∧ e₂.stmts = [.assign (.ident name) v] := by
    cases hrest
    exact ⟨rfl, rfl⟩
  have hrun : Source.assignTo l m.run =
      m.run >>= fun a => Run.writeVar name a >>= fun _ => pure a := by
    rw [Source.assignTo, hl]
  rw [runValue, Effects.stmts_append, h₂, Target.execAll_append, Run.bind_assoc, hrun]
  simp only [Target.execAll_single, Target.exec_assign_ident, Run.bind_assoc, Run.pure_bind, eval]
  exact Run.bind_through (hv hval τ s hs) fun _ a s' _ => congrFun (readVar_of_writeVar name a) s'

/-- A variable is counted, and then read. -/
theorem updateBefore_runs {op : Source.UpdateOp} {span : Span} {l : Source.Expr} {name : String}
    (hl : l.variable? = some name) (p : w.State → Prop) :
    Runs (updateBefore op span (reference pool l)) ⟨(·.2) <$> Source.updateOf op l, p⟩ := by
  obtain ⟨r, hr, hplace⟩ := reference_variable pool hl
  intro n u e h τ s _
  obtain ⟨rfl, he⟩ : u = .ident name ∧ e.stmts = [updateBy op (.ident name)] := by
    rw [hr, updateBefore, asPlace, map_pure, hplace] at h
    cases h
    exact ⟨rfl, rfl⟩
  rw [runValue, he, Source.updateOf, hl]
  simp only [Target.execAll_single, updateBy, Target.exec_compound_ident, Source.update, eval,
    Run.bind_assoc, Run.pure_bind, readVar_of_writeVar, map_eq_pure_bind]

/-- A copy of the variable is made before it is counted. -/
theorem updateAfter_runs {op : Source.UpdateOp} {span : Span} {l : Source.Expr} {name : String}
    (hl : l.variable? = some name) (p : w.State → Prop) :
    Runs (updateAfter op span (reference pool l)) ⟨(·.1) <$> Source.updateOf op l, p⟩ := by
  obtain ⟨r, hr, hplace⟩ := reference_variable pool hl
  intro n u e h τ s _
  obtain ⟨rfl, he⟩ : u = .temp n ∧
      e.stmts = [.declareTemp n (.ident name), updateBy op (.ident name)] := by
    rw [hr, updateAfter, asPlace, map_pure, hplace] at h
    cases h
    exact ⟨rfl, rfl⟩
  rw [runValue, he, Source.updateOf, hl]
  simp only [execAll, updateBy, Target.exec_declareTemp, Target.exec_compound_ident, Source.update,
    eval, Run.bind_assoc, Run.pure_bind, readVar_twice, Temps.set_self, map_eq_pure_bind]

/-! ### Operators on two values -/

theorem arithmetic_of_plain {op : Source.ArithmeticOp} {native : Target.BinaryOp}
    (h : (Source.BinaryOp.arithmetic op).plain? = some native) (l r : TypedValue) :
    arithmetic pool op l r = .binary native l.expr r.expr := by
  cases op <;> cases h <;> rfl

theorem relation_of_plain {op : Source.RelationOp} {native : Target.BinaryOp}
    (h : (Source.BinaryOp.relation op).plain? = some native) (span : Span) (l r : Expr) :
    relation op span l r = pure (.binary native l r) := by
  cases op <;> cases h <;> rfl

/-- Such an operator needs both its operands. -/
theorem operate_of_plain {op : Source.BinaryOp} {native : Target.BinaryOp}
    (h : op.plain? = some native) (x : w.Val) (y : w.Run w.Val) :
    Target.operate native x y = y >>= Run.binary native x := by
  cases op with
  | arithmetic op => cases op <;> cases h <;> rfl
  | relation op => cases op <;> cases h <;> rfl
  | _ => cases h

theorem compute_runs {op : Source.BinaryOp} {native : Target.BinaryOp} {x y : Operand}
    {l r : Meaning w} (hop : op.plain? = some native)
    (htx : Tidy (fun _ => True) [] x.lower Expr.ReadsIn)
    (hty : Tidy (fun _ => True) [] y.lower Expr.ReadsIn) (hx : Runs x.lower l)
    (hy : Runs y.lower r) :
    Runs ((fun p => .binary native p.1 p.2) <$> inOrderPair x y)
      ⟨Source.compute op l.run r.run, fun s => l.pre s ∧ After l.run s fun _ s => r.pre s⟩ := by
  intro n v e h τ s ⟨hl, hr⟩
  obtain ⟨p, hp, rfl⟩ := map_eq_ok.1 h
  have hrun : Source.compute op l.run r.run =
      l.run >>= fun a => r.run >>= fun b => Run.binary native a b := by
    rw [Source.compute, hop]
  rw [runValue, hrun]
  simp only [eval, operate_of_plain hop]
  exact inOrderPair_runs htx hty hx hy hp τ hl hr _

/-! ### Calls -/

/-- A report changes no statement. -/
theorem Runs.checked {x : Lower Expr} {m : Meaning w} (hx : Runs x m) (info : Source.NodeInfo) :
    Runs (checkNotAny pool info >>= fun _ => x) m := by
  intro n v e h τ s hs
  obtain ⟨_, e₁, e₂, h₁, h₂, rfl⟩ := bind_eq_ok.1 h
  rw [Effects.stmts_append, stmts_checkNotAny h₁, List.nil_append]
  exact hx h₂ τ s hs

theorem arguments_runs {es : List Source.Expr} (hp : ∀ e ∈ es, e.Plain pool)
    (h : ∀ e ∈ es, Runs (value pool e) (Meaning.ofExpr (w := w) pool e)) :
    List.Forall₂ (fun x m => Runs x.lower m) (arguments pool es)
      (es.map (Meaning.ofExpr (w := w) pool)) := by
  rw [arguments_eq_map pool fun e he => (hp e he).ne_spread, List.forall₂_map_left_iff,
    List.forall₂_map_right_iff, List.forall₂_same]
  exact fun e he => (h e he).checked e.info

theorem Meaning.all_ofExpr (es : List Source.Expr) :
    Meaning.all (es.map (Meaning.ofExpr (w := w) pool)) = Source.evalList es := by
  induction es with
  | nil => rfl
  | cons e rest ih =>
    rw [List.map_cons, Meaning.all, ih, Source.evalList]
    rfl

theorem Meaning.along_ofExpr {es : List Source.Expr} {s : w.State} (h : TypedList pool es s) :
    Meaning.Along (es.map (Meaning.ofExpr pool)) s := by
  induction es generalizing s with
  | nil => trivial
  | cons e rest ih =>
    unfold TypedList at h
    exact ⟨h.1, fun v s' hv => ih (h.2 v s' hv)⟩

/-- The callee, the arguments, and then the call. -/
theorem plainCall_runs {ctx : CallContext} {info calleeInfo : Source.NodeInfo}
    {callee : Lower Expr} {args : List Operand} {f : Meaning w} {ms : List (Meaning w)}
    (hpack : pool.has info.ty .tupleReturn = false)
    (ht : ∀ x ∈ (⟨calleeInfo.span, callee⟩ : Operand) :: args,
      Tidy (fun _ => True) [] x.lower Expr.ReadsIn)
    (hf : Runs callee f) (ha : List.Forall₂ (fun x m => Runs x.lower m) args ms) :
    Runs (plainCall pool ctx info calleeInfo callee args)
      ⟨f.run >>= fun g => Meaning.all ms >>= Run.callValue g, Meaning.Along (f :: ms)⟩ := by
  refine Runs.checked ?_ calleeInfo
  intro n v e h τ s hs
  obtain ⟨⟨g, as⟩, e₁, e₂, hops, hv, rfl⟩ := bind_eq_ok.1 h
  obtain ⟨rfl, rfl⟩ : v = .call g as ∧ e₂ = .none := by
    cases hv
    exact ⟨by simp [packReturn, hpack], rfl⟩
  have hall := inOrder_runs ht (.cons hf ha) (inOrderCons_eq_ok hops) τ s hs
  have both := Run.bind_congr (f := fun vs => Run.callValue (vs.headD .nil) vs.tail) hall
    fun _ _ _ => rfl
  rw [Effects.append_none]
  simpa [runValue, eval, evalList, Meaning.all, Run.bind_assoc, Run.pure_bind] using both

/-! ### Nodes -/

/-- Plain expressions are lowered, whatever their types. -/
theorem total_value {e : Source.Expr} (h : e.Everywhere (Plain pool)) : Total (value pool e) := by
  induction h with
  | @mk e here parts ih =>
  cases e with
  | ident | number | string | bool | undefined => exact .pure _
  | paren info inner =>
    rw [value_paren]
    exact (ih inner (by simp [Source.Expr.children])).map _
  | property info object name =>
    rw [value_property]
    exact (ih object (by simp [Source.Expr.children])).map _
  | call info callee args =>
    obtain ⟨hf, ha⟩ := List.forall_mem_cons.1 ih
    obtain ⟨hpf, hpa⟩ := List.forall_mem_cons.1 parts
    have hargs : ∀ x ∈ arguments pool args, Total x.lower := by
      rw [arguments_eq_map pool fun e he => (hpa e he).here.ne_spread]
      rintro _ hx
      obtain ⟨e, he, rfl⟩ := List.mem_map.1 hx
      exact (total_checkNotAny pool e.info).bind fun _ => ha e he
    rw [value_call]
    cases callee with
    | property => cases here
    | super => cases hpf.here
    | _ => exact total_plainCall hf hargs
  | binary info op l r =>
    have hl := ih l (by simp [Source.Expr.children])
    have hr := ih r (by simp [Source.Expr.children])
    cases op with
    | logical op =>
      rw [value_logical]
      exact total_shortCircuit hl hr
    | assign =>
      obtain ⟨name, hname⟩ := Option.isSome_iff_exists.1 here
      obtain ⟨r', hr', -⟩ := reference_variable pool hname
      rw [value_assign pool info l r (isPattern_of_variable hname), hr']
      exact total_assignValue (.pure r') hr
    | arithmetic op =>
      rw [value_arithmetic]
      exact (total_inOrderPair hl hr).map _
    | relation op =>
      obtain ⟨native, hn⟩ := Option.isSome_iff_exists.1 here
      rw [value_relation]
      exact (total_inOrderPair hl hr).bind fun p => by
        rw [relation_of_plain hn]
        exact .pure _
    | loose | assignWith => cases here
  | prefixed info op inner =>
    have hi := ih inner (by simp [Source.Expr.children])
    cases op with
    | not =>
      rw [value_not]
      exact hi.bind fun v => (total_truthiness v).map _
    | neg =>
      rw [value_neg]
      exact hi.map _
    | update op =>
      obtain ⟨name, hname⟩ := Option.isSome_iff_exists.1 here
      obtain ⟨r', hr', -⟩ := reference_variable pool hname
      rw [value_updateBefore, hr']
      exact total_updateBefore (.pure r')
    | plus | bitNot => cases here
  | postfixed info op inner =>
    obtain ⟨name, hname⟩ := Option.isSome_iff_exists.1 here
    obtain ⟨r', hr', -⟩ := reference_variable pool hname
    rw [value_updateAfter, hr']
    exact total_updateAfter (.pure r')
  | _ => cases here

/-- Each plain node runs as it does in the source. -/
theorem runs_value {e : Source.Expr} (h : e.Everywhere (Plain pool)) :
    Runs (value pool e) (Meaning.ofExpr (w := w) pool e) := by
  induction h with
  | @mk e here parts ih =>
  cases e with
  | ident | number | string | bool | undefined => exact .pure fun _ _ => rfl
  | paren info inner =>
    rw [value_paren]
    refine (ih inner (by simp [Source.Expr.children])).map (fun s hs => ?_)
      (fun τ v => (Run.bind_pure _).symm) (Run.bind_pure _).symm
    exact hs.paren_parts
  | property info object name =>
    rw [value_property]
    exact (ih object (by simp [Source.Expr.children])).map (fun s hs => hs.property_parts)
      (fun τ v => rfl) rfl
  | call info callee args =>
    obtain ⟨hf, ha⟩ := List.forall_mem_cons.1 ih
    obtain ⟨hpf, hpa⟩ := List.forall_mem_cons.1 parts
    have hruns := arguments_runs (w := w) (fun e he => (hpa e he).here) ha
    have htidy : ∀ x ∈ (⟨callee.span, value pool callee⟩ : Operand) :: arguments pool args,
        Tidy (fun _ => True) [] x.lower Expr.ReadsIn := by
      rw [arguments_eq_map pool fun e he => (hpa e he).here.ne_spread]
      refine List.forall_mem_cons.2 ⟨tidy_value pool callee [], fun x hx => ?_⟩
      obtain ⟨e, -, rfl⟩ := List.mem_map.1 hx
      exact tidy_argument (tidy_value pool e)
    have hcall (hpack : pool.has info.ty .tupleReturn = false) :
        Runs (plainCall pool .value info callee.info (value pool callee) (arguments pool args))
          (Meaning.ofExpr (w := w) pool (.call info callee args)) := by
      refine (plainCall_runs hpack htidy hf hruns).imp (fun s hs => ?_) ?_
      · obtain ⟨h₁, h₂⟩ := hs.call_parts
        exact ⟨h₁, fun v s' hv => Meaning.along_ofExpr (h₂ v s' hv)⟩
      · rw [Meaning.all_ofExpr]
        rfl
    rw [value_call]
    cases callee with
    | property => cases here
    | super => cases hpf.here
    | _ => exact hcall here
  | binary info op l r =>
    have hl := ih l (by simp [Source.Expr.children])
    have hr := ih r (by simp [Source.Expr.children])
    have computed {native : Target.BinaryOp} (hop : op.plain? = some native) :=
      compute_runs (x := ⟨l.span, value pool l⟩) (y := ⟨r.span, value pool r⟩) hop
        (tidy_value pool l []) (tidy_value pool r []) hl hr
    cases op with
    | logical op =>
      rw [value_logical]
      refine (shortCircuit_runs hl hr).imp (fun s hs => ?_) rfl
      obtain ⟨h₁, h₂⟩ := hs.logical_parts
      exact ⟨h₁, fun v s' hv => ⟨h₁.admitted v s' hv, h₂ v s' hv⟩⟩
    | assign =>
      obtain ⟨name, hname⟩ := Option.isSome_iff_exists.1 here
      rw [value_assign pool info l r (isPattern_of_variable hname)]
      exact (assignValue_runs hname hr).imp (fun s hs => hs.assign_parts) rfl
    | arithmetic op =>
      obtain ⟨native, hn⟩ := Option.isSome_iff_exists.1 here
      rw [value_arithmetic]
      simp only [arithmetic_of_plain hn]
      exact (computed hn).imp (fun s hs => hs.compute_parts hn) rfl
    | relation op =>
      obtain ⟨native, hn⟩ := Option.isSome_iff_exists.1 here
      rw [value_relation]
      simp only [relation_of_plain hn, ← map_eq_pure_bind]
      exact (computed hn).imp (fun s hs => hs.compute_parts hn) rfl
    | loose | assignWith => cases here
  | prefixed info op inner =>
    have hi := ih inner (by simp [Source.Expr.children])
    cases op with
    | not =>
      rw [value_not]
      exact (not_runs hi).imp (fun s hs => ⟨hs.not_parts, hs.not_parts.admitted⟩) rfl
    | neg =>
      rw [value_neg]
      exact hi.map (fun s hs => hs.neg_parts) eval_negate rfl
    | update op =>
      obtain ⟨name, hname⟩ := Option.isSome_iff_exists.1 here
      rw [value_updateBefore]
      exact updateBefore_runs hname _
    | plus | bitNot => cases here
  | postfixed info op inner =>
    obtain ⟨name, hname⟩ := Option.isSome_iff_exists.1 here
    rw [value_updateAfter]
    exact updateAfter_runs hname _
  | _ => cases here

/-! ### Expressions -/

/-- A plain expression is lowered to statements and a value.  In every world, from
every state in which the values it meets are admitted by their types, these do
what the expression does. -/
theorem expression_preserves {e : Source.Expr} (h : e.Everywhere (Plain pool)) (n : Nat) :
    ∃ v ss eff, expression pool e n = (.ok (v, ss), eff) ∧
      ∀ (w : World) (τ : Temps w) (s : w.State), Typed pool e s →
        runValue ss v τ s = Source.eval e s := by
  obtain ⟨v, eff, hv⟩ := total_value h n
  exact ⟨v, eff.stmts, eff.withoutStmts, capture_of_ok hv, fun w τ s hs =>
    runs_value h hv τ s hs⟩

/-- A world whose calls answer nil and clear the variable `x`. -/
def clearingWorld : World where
  Ref := Empty
  Heap := Unit
  Error := Unit
  call _ _ s := (.ok .nil, { s with vars := fun y => if y = "x" then .nil else s.vars y })
  member _ _ _ := .error ()
  setMember _ _ _ s := (.error (), s)
  binary _ _ _ s := (.error (), s)
  unary _ _ s := (.error (), s)
  table _ s := (.error (), s)
  pack _ s := (.error (), s)
  stuck := ()

/-- `x && !f()` -/
def guardedCall : Source.Expr :=
  let info : Source.NodeInfo := ⟨.dummy, .unknown⟩
  .binary info (.logical .and) (.ident info "x")
    (.prefixed info .not (.call info (.ident info "f") []))

theorem expression_preserves_guardedCall :
    guardedCall.Everywhere (Plain .fresh) ∧
      ∃ v ss eff, expression .fresh guardedCall 0 = (.ok (v, ss), eff) ∧
        ∀ s : clearingWorld.State, s.vars "x" = .bool true → Typed .fresh guardedCall s ∧
          runValue ss v (fun _ => .nil) s = Source.eval guardedCall s ∧
          (Source.eval guardedCall s).1 = .ok (.bool true) := by
  have hplain : guardedCall.Everywhere (Plain .fresh) := by
    have leaf (name : String) : (Source.Expr.ident ⟨.dummy, .unknown⟩ name).Everywhere
        (Plain .fresh) := .mk trivial (by simp [Source.Expr.children])
    have hcall : (Source.Expr.call ⟨.dummy, .unknown⟩ (.ident ⟨.dummy, .unknown⟩ "f")
        []).Everywhere (Plain .fresh) := .mk rfl (by simpa [Source.Expr.children] using leaf "f")
    refine .mk trivial (List.forall_mem_cons.2 ⟨leaf "x", List.forall_mem_cons.2 ⟨?_, by simp⟩⟩)
    exact .mk trivial (by simpa [Source.Expr.children] using hcall)
  obtain ⟨v, ss, eff, hok, hrun⟩ := expression_preserves hplain 0
  refine ⟨hplain, v, ss, eff, hok, fun s hx => ?_⟩
  have admitted (a : clearingWorld.Val) : a.AdmittedBy .fresh .unknown := by
    cases a <;> trivial
  have htyped : Typed .fresh guardedCall s := by
    have any (e : Source.Expr) (he : e.ty = .unknown) (s : clearingWorld.State) :
        After (Source.eval e) s fun v _ => v.AdmittedBy .fresh e.ty := fun v _ _ => by
      rw [he]
      exact admitted v
    unfold guardedCall Typed
    refine ⟨⟨?_, fun v s' _ _ => ?_⟩, any _ rfl s⟩
    · unfold Typed
      exact ⟨trivial, any _ rfl s⟩
    · unfold Typed Typed
      refine ⟨⟨⟨?_, fun _ s'' _ => ?_⟩, any _ rfl s'⟩, any _ rfl s'⟩
      · unfold Typed
        exact ⟨trivial, any _ rfl s'⟩
      · unfold TypedList
        trivial
  refine ⟨htyped, hrun clearingWorld _ s htyped, ?_⟩
  simp only [guardedCall, Source.eval, Run.bind_apply, Run.readVar, hx]
  rfl

end ScriptLowering.Lower
