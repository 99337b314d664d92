import ScriptLowering.Proofs.Calls.Operations
import ScriptLowering.Proofs.Lowering.Nodes
import ScriptLowering.Proofs.Source.Calls

/-!
# Names met by calls

With the calls of an expression among the given names, and no other identifier
of it, a call meets the names of its callee or receiver and of its arguments.
A form that does not evaluate the receiver has one without calls.

    receiver meets ms, arguments meet ns → the call meets ms ++ ns       (meets_propertyCall)
-/

namespace ScriptLowering.Lower

open Target (Expr Stmt)
open Target.Stmt (mentionsAll)

/-- The names given are those of the calls, and of no other identifier. -/
structure Tracks (N : List String) (pool : TypePool) (e : Source.Expr) : Prop where
  calls : ∀ x ∈ e.calls, x ∈ N
  others : ∀ x ∈ e.others pool, x ∉ N

/-- The form does not evaluate the receiver. -/
def CallForm.dropsReceiver : CallForm → Bool
  | helper .object | superMethod _ => true
  | _ => false

variable {N ms ns : List String} {pool : TypePool}

/-! ### Tracked parts -/

theorem Tracks.part {c e : Source.Expr} (h : Tracks N pool e) (hc : c ∈ e.children)
    (he : ∀ info f args, e ≠ .call info f args) : Tracks N pool c where
  calls x hx := h.calls x (Source.Expr.calls_subset hc x hx)
  others x hx := h.others x (Source.Expr.others_subset hc he x hx)

theorem Tracks.argument {info : Source.NodeInfo} {c f : Source.Expr} {args : List Source.Expr}
    (h : Tracks N pool (.call info f args)) (hc : c ∈ args) : Tracks N pool c where
  calls x hx := h.calls x (Source.Expr.calls_subset (List.mem_cons_of_mem _ hc) x hx)
  others x hx := h.others x (Source.Expr.others_argument hc x hx)

theorem Tracks.callee {info : Source.NodeInfo} {f : Source.Expr} {args : List Source.Expr}
    (h : Tracks N pool (.call info f args)) (hf : f.name? = none) : Tracks N pool f where
  calls x hx := h.calls x (Source.Expr.calls_subset List.mem_cons_self x hx)
  others x hx := h.others x (Source.Expr.others_callee hf x hx)

theorem Tracks.superClass {info : Source.NodeInfo} (h : Tracks N pool (.super info)) {span : Span}
    {name : String} (hn : superClass pool info.ty span = .ok name) : name ∉ N := by
  unfold Lower.superClass at hn
  split at hn
  next heq =>
    cases hn
    exact h.others _ (by simp [Source.Expr.others, heq])
  next => cases hn

/-! ### Calls -/

theorem left_packReturn {ctx : CallContext} {ty : TypeId} {e : Expr} (h : e.mentions N = ns)
    (hs : e.isSimple = false) : ValueLeft N (packReturn pool ctx ty e) ns := by
  unfold packReturn
  split
  · exact .of_not_simple (by simpa using h) rfl
  · exact .of_not_simple h hs

theorem isSimple_build (form : CallForm) (member : String) (r : Expr) (args : List Expr) :
    (form.build member r args).isSimple = false := by
  cases form with
  | helper h => cases h <;> rfl
  | _ => rfl

/-- A call in its form mentions what the receiver and the arguments do. -/
theorem mentions_build (hN : Unwritten N) {form : CallForm} {member : String} {r : Expr}
    {args : List Expr} (hdrop : form.dropsReceiver → r.mentions N = [])
    (hclass : ∀ name, form = .superMethod name → name ∉ N)
    (hop : ∀ op, form = .operator op → args.length = 1) :
    (form.build member r args).mentions N = r.mentions N ++ args.flatMap (Expr.mentions N) := by
  cases form with
  | helper h =>
    have hm := mentions_helperMember hN h member
    cases h
    case object => simp [CallForm.build, hm, hdrop rfl]
    all_goals simp [CallForm.build, hm]
  | nativeString => simp [CallForm.build, mentions_libraryMember hN "string" (by decide)]
  | method name => simp [CallForm.build]
  | field name => simp [CallForm.build]
  | superMethod name =>
    simp [CallForm.build, hdrop rfl, Expr.mentions_ident_of_not_mem (hclass name rfl),
      mentions_written hN "self" (by decide)]
  | operator op =>
    obtain ⟨a, rfl⟩ := List.length_eq_one_iff.1 (hop op rfl)
    have hlast : (enclosed a).mentions N = a.mentions N := by
      unfold enclosed
      split <;> rfl
    simp [CallForm.build, hlast]

/-- Only the constructor of objects has the helpers for objects. -/
theorem symbolName?_of_find_object {ty : TypeId} {member : String} {argCount : Nat}
    (h : CallRule.find (.ofType pool ty) member argCount = .helper .object) :
    pool.symbolName? ty = some "ObjectConstructor" := by
  have hfamily : ReceiverFamily.ofType pool ty = .objectConstructor := by
    cases hf : ReceiverFamily.ofType pool ty <;> rw [hf] at h <;>
      simp only [CallRule.find, CallRule.ofNamespace] at h
    all_goals repeat' split at h
    all_goals first | rfl | cases h
  unfold ReceiverFamily.ofType at hfamily
  repeat' split at hfamily
  all_goals try cases hfamily
  next name hname =>
    unfold ReceiverFamily.ofSymbol at hfamily
    repeat' split at hfamily
    all_goals try cases hfamily
    next heq => rw [hname, heq]

/-- What the form of a call says of the receiver and of the number of arguments. -/
theorem resolve_eq_ok {ctx : CallContext} {span : Span} {ty : TypeId} {object : Source.Expr}
    {member : String} {argCount : Nat} {form : CallForm}
    (h : CallForm.resolve pool ctx span ty object member argCount = .ok form) :
    (∀ op, form = .operator op → argCount = 1) ∧
      (∀ name, form = .superMethod name →
        ∃ info, object = .super info ∧ superClass pool info.ty info.span = .ok name) ∧
      (form = .helper .object → pool.symbolName? object.ty = some "ObjectConstructor") := by
  unfold CallForm.resolve at h
  split at h
  next h' heq =>
    cases h
    refine ⟨nofun, nofun, fun hobject => ?_⟩
    cases hobject
    exact symbolName?_of_find_object heq
  next heq =>
    cases h
    exact ⟨nofun, nofun, nofun⟩
  next heq =>
    cases h
    exact ⟨nofun, nofun, nofun⟩
  next heq =>
    cases h
    exact ⟨nofun, nofun, nofun⟩
  next op className heq =>
    split at h <;> cases h
    exact ⟨fun _ _ => (CallRule.argCount_of_operator heq).1, nofun, nofun⟩
  next =>
    rcases genericForm_eq_ok h with ⟨passesSelf, -, rfl⟩ | ⟨info, name, hobject, hname, rfl⟩
    · cases passesSelf <;> exact ⟨nofun, nofun, nofun⟩
    · refine ⟨nofun, fun name' hn => ?_, nofun⟩
      cases hn
      exact ⟨info, hobject, hname⟩

/-- A receiver that is not evaluated is an identifier or `super`. -/
theorem isSimple_of_dropsReceiver {ctx : CallContext} {span : Span} {ty : TypeId}
    {object : Source.Expr} {member : String} {argCount : Nat} {form : CallForm}
    (h : CallForm.resolve pool ctx span ty object member argCount = .ok form)
    (hnamed : pool.symbolName? object.ty = some "ObjectConstructor" → object.name?.isSome)
    (hd : form.dropsReceiver) (n : Nat) (v : Expr) (e : Effects)
    (hv : value pool object n = (.ok v, e)) : v.isSimple := by
  obtain ⟨-, hsuper, hobject⟩ := resolve_eq_ok h
  unfold CallForm.dropsReceiver at hd
  split at hd
  · have := hnamed (hobject rfl)
    cases object <;> first | (cases hv; rfl) | cases this
  next name =>
    obtain ⟨i, rfl, -⟩ := hsuper name rfl
    rw [value_super] at hv
    obtain ⟨_, -, rfl⟩ := map_eq_ok.1 hv
    rfl
  · cases hd

theorem isSimple_fst_of_inOrderCons {x : Operand} {xs : List Operand} {n : Nat}
    {p : Expr × List Expr} {e : Effects} (hx : ∀ n v e, x.lower n = (.ok v, e) → v.isSimple)
    (h : inOrderCons x xs n = (.ok p, e)) : p.1.isSimple := by
  obtain ⟨cs, e₁, e₂, hcs, hvs, -⟩ := bind_eq_ok.1 (inOrderCons_eq_ok h)
  obtain ⟨v, _, cs', _, hv, -, rfl, -⟩ := captureAll_cons_eq_ok.1 hcs
  obtain ⟨w, _, vs', _, hw, -, heq, -⟩ := settleAll_cons_eq_ok.1 hvs
  obtain ⟨rfl, -⟩ := List.cons.inj heq
  rcases settle_eq_ok hw with ⟨-, hp, -⟩ | ⟨-, hp, -⟩ <;> rw [hp]
  · exact hx _ _ _ hv
  · rfl

theorem meets_useHelperOf (form : CallForm) : Meets N Done (useHelperOf form) [] := by
  unfold useHelperOf
  split
  · exact meets_useHelper _
  · exact .pure rfl

theorem meets_plainCall {ctx : CallContext} {info calleeInfo : Source.NodeInfo}
    {callee : Lower Expr} {args : List Operand} {nss : List (List String)}
    (hf : Meets N (Left N) callee ms)
    (ha : List.Forall₂ (fun x ns => Meets N (ValueLeft N) x.lower ns) args nss) :
    Meets N (ValueLeft N) (plainCall pool ctx info calleeInfo callee args) (ms ++ nss.flatten) := by
  have ha' : List.Forall₂ (fun x ns => Meets N (Left N) x.lower ns) args nss :=
    ha.imp fun _ _ h => h.imp fun _ _ hv => hv.left
  refine (meets_checkNotAny pool calleeInfo).bind_quiet ?_
  refine (meets_inOrderCons operandLeft_left hf ha').bind_last fun ⟨f, args⟩ ps h => .pure ?_
  exact left_packReturn ((Expr.mentions_call f args).trans (h.flatMap operandLeft_left)) rfl

theorem meets_superCall (hN : Unwritten N) {ctx : CallContext}
    {info calleeInfo : Source.NodeInfo} {args : List Operand} {nss : List (List String)}
    (hs : Tracks N pool (.super calleeInfo))
    (ha : List.Forall₂ (fun x ns => Meets N (ValueLeft N) x.lower ns) args nss) :
    Meets N (ValueLeft N) (superCall pool ctx info calleeInfo args) nss.flatten := by
  refine (meets_checkNotAny pool calleeInfo).bind_quiet (Meets.bind_ofError fun name hname => ?_)
  refine (meets_inOrder operandLeft_valueLeft ha).bind_last fun args ps h => .pure ?_
  refine left_packReturn ?_ rfl
  simp [Expr.mentions_ident_of_not_mem (hs.superClass hname),
    mentions_written hN "self" (by decide), h.flatMap operandLeft_valueLeft]

theorem meets_propertyCall (hN : Unwritten N) {ctx : CallContext}
    {info calleeInfo : Source.NodeInfo} {object : Source.Expr} {member : String}
    {args : List Operand} {nss : List (List String)} (ht : Tracks N pool object)
    (hnamed : pool.symbolName? object.ty = some "ObjectConstructor" → object.name?.isSome)
    (hr : Meets N (ValueLeft N) (value pool object) ns)
    (ha : List.Forall₂ (fun x ns => Meets N (ValueLeft N) x.lower ns) args nss) :
    Meets N (ValueLeft N)
      (propertyCall pool ctx info calleeInfo object member (value pool object) args)
      (ns ++ nss.flatten) := by
  rw [propertyCall_eq]
  refine (meets_checkNotAny pool calleeInfo).bind_quiet (Meets.bind_ofError fun form hform => ?_)
  obtain ⟨hop, hsuper, -⟩ := resolve_eq_ok hform
  have hr' : Meets N (ValueLeft N) (Operand.mk object.span (value pool object)).lower ns := hr
  have hall := (meets_inOrderCons operandLeft_valueLeft hr' ha).and
    (P := fun p => (form.dropsReceiver → p.1.isSimple) ∧ p.2.length = args.length)
    fun n p e h =>
      ⟨fun hd => isSimple_fst_of_inOrderCons (isSimple_of_dropsReceiver hform hnamed hd) h,
        by simpa using length_of_inOrder (inOrderCons_eq_ok h)⟩
  refine hall.bind_last fun ⟨r, as⟩ ps ⟨⟨qs, rs, hr, has, hps⟩, hdrop, hlen⟩ => ?_
  refine Meets.bind_quiet (meets_useHelperOf form) (.pure (left_packReturn ?_ (isSimple_build ..)))
  rw [mentions_build hN, hr.left, has.flatMap operandLeft_valueLeft, hps]
  · exact fun hd => hr.left.trans (hr.simple (hdrop hd))
  · rintro name rfl
    obtain ⟨i, rfl, hname⟩ := hsuper name rfl
    exact ht.superClass hname
  · rintro op rfl
    rw [hlen, hop op rfl]

end ScriptLowering.Lower
