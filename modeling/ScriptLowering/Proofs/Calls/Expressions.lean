import ScriptLowering.Proofs.Calls.Forms

/-!
# Names met by expressions

Lowering an expression meets its calls, and so does lowering it as a place or
assigning its parts as those of a pattern.

    e.Everywhere (KeepsCalls pool) → value pool e meets e.calls                (meets_node)
-/

namespace ScriptLowering.Lower

open Source.Expr (KeepsCalls IsTarget)
open Target (Expr Stmt)

/-- What the induction over the source tree says of a node. -/
structure NodeMeets (N : List String) (pool : TypePool) (e : Source.Expr) : Prop where
  value : Meets N (ValueLeft N) (value pool e) e.calls
  place (h : e.IsTarget) : Meets N (PlaceLeft N) (asPlace (reference pool e)) e.calls
  pattern (hp : e.isPattern) (h : e.TargetOf IsTarget) (source : Expr) (ty : SubType)
    (hs : source.mentions N = []) : Meets N Done (destructure pool e source ty) e.calls

variable {N ms ns : List String} {pool : TypePool}

/-- A target that is no pattern is lowered as a place. -/
theorem NodeMeets.target {e : Source.Expr} (h : NodeMeets N pool e) (ht : e.TargetOf IsTarget)
    (hp : e.isPattern = false) : Meets N (PlaceLeft N) (asPlace (reference pool e)) e.calls :=
  h.place (ht.of_not_pattern hp)

/-! ### Operands -/

theorem meets_operands {es : List Source.Expr} (h : ∀ e ∈ es, NodeMeets N pool e) :
    List.Forall₂ (fun x ns => Meets N (ValueLeft N) x.lower ns) (operands pool es)
      (es.map Source.Expr.calls) := by
  rw [operands_eq_map, List.forall₂_map_left_iff, List.forall₂_map_right_iff,
    List.forall₂_same]
  exact fun e he => (h e he).value

theorem meets_propertyOperands {ps : List (String × Source.Expr)}
    (h : ∀ p ∈ ps, NodeMeets N pool p.2) :
    List.Forall₂ (fun x ns => Meets N (ValueLeft N) x.lower ns) (propertyOperands pool ps)
      (ps.map (·.2.calls)) := by
  rw [propertyOperands_eq_map, List.forall₂_map_left_iff, List.forall₂_map_right_iff,
    List.forall₂_same]
  exact fun p hp => (h p hp).value

theorem meets_argument {info : Source.NodeInfo} {value : Lower Expr}
    (h : Meets N (ValueLeft N) value ns) :
    Meets N (ValueLeft N) (argument pool info value).lower ns :=
  (meets_checkNotAny pool info).bind_quiet h

theorem meets_spreadArgument (hN : Unwritten N) {info : Source.NodeInfo} {isLast : Bool}
    {value : Lower Expr} (h : Meets N (ValueLeft N) value ns) :
    Meets N (ValueLeft N) (spreadArgument info isLast value).lower ns := by
  unfold spreadArgument
  cases isLast with
  | false => exact .fail _
  | true =>
    refine h.bind_last fun v ps hv => .pure (.of_not_simple ?_ rfl)
    simp [mentions_written hN "unpack" (by decide), hv.left]

/-- An argument is lowered as it is, a spread one as what is spread. -/
theorem meets_arguments (hN : Unwritten N) {es : List Source.Expr}
    (ht : ∀ e ∈ es, Tracks N pool e) (h : ∀ e ∈ es, Tracks N pool e → NodeMeets N pool e)
    (hs : ∀ e ∈ es, ∀ c ∈ e.children, Tracks N pool c → NodeMeets N pool c) :
    List.Forall₂ (fun x ns => Meets N (ValueLeft N) x.lower ns) (arguments pool es)
      (es.map Source.Expr.calls) := by
  induction es with
  | nil => exact .nil
  | cons e rest ih =>
    obtain ⟨hte, htrest⟩ := List.forall_mem_cons.1 ht
    obtain ⟨he, hrest⟩ := List.forall_mem_cons.1 h
    obtain ⟨hse, hsrest⟩ := List.forall_mem_cons.1 hs
    have ih' := ih htrest hrest hsrest
    have plain : Meets N (ValueLeft N) (argument pool e.info (value pool e)).lower e.calls :=
      meets_argument (he hte).value
    cases e with
    | spread info inner =>
      have hinner := hse inner List.mem_cons_self (hte.part List.mem_cons_self (by simp))
      exact .cons (meets_spreadArgument hN hinner.value) ih'
    | _ => exact .cons plain ih'

/-! ### Places -/

/-- Without calls to meet, a place mentions none of the names. -/
theorem meets_asPlace_of_no_calls {x : Lower Reference}
    (h : Meets N (ValueLeft N) (asValue x) []) : Meets N (PlaceLeft N) (asPlace x) [] := by
  intro n p e hok
  obtain ⟨r, hr, rfl⟩ := map_eq_ok.1 hok
  obtain ⟨ps, hps, hnil⟩ := h (map_eq_ok.2 ⟨r, hr, rfl⟩)
  obtain ⟨hstmts, rfl⟩ := List.append_eq_nil_iff.1 hnil
  exact ⟨[], .of_no_mentions ((Reference.mentions_place r).trans hps.left), by simp [hstmts]⟩

theorem meets_asPlace_property {info : Source.NodeInfo} {object : Source.Expr} {name : String}
    (h : Meets N (ValueLeft N) (value pool object) ns) :
    Meets N (PlaceLeft N) (asPlace (reference pool (.property info object name))) ns := by
  have : asPlace (reference pool (.property info object name)) =
      (Place.property · name) <$> value pool object := by
    simp only [asPlace, reference, value, ← map_eq_pure_bind, Functor.map_map]
    rfl
  rw [this]
  exact h.map fun _ _ ho => ho

theorem meets_asPlace_element {info : Source.NodeInfo} {object index : Source.Expr}
    (ho : Meets N (ValueLeft N) (value pool object) ms)
    (hi : Meets N (ValueLeft N) (value pool index) ns) :
    Meets N (PlaceLeft N) (asPlace (reference pool (.element info object index))) (ms ++ ns) := by
  have : asPlace (reference pool (.element info object index)) =
      (fun p => Place.index p.1 (shiftIndex pool object.ty p.2)) <$>
        inOrderPair ⟨object.span, value pool object⟩ ⟨index.span, value pool index⟩ := by
    simp only [asPlace, reference, value, ← map_eq_pure_bind, Functor.map_map]
    rfl
  rw [this]
  refine (meets_inOrderPair operandLeft_valueLeft ho hi).map ?_
  rintro p ps ⟨qs, rs, ho, hi, hps⟩
  exact ⟨qs, rs, ho, left_shiftIndex hi, hps⟩

theorem meets_asPlace_paren {info : Source.NodeInfo} {inner : Source.Expr}
    (h : Meets N (PlaceLeft N) (asPlace (reference pool inner)) ns) :
    Meets N (PlaceLeft N) (asPlace (reference pool (.paren info inner))) ns := by
  have : asPlace (reference pool (.paren info inner)) = asPlace (reference pool inner) := by
    simp only [asPlace, reference, Functor.map_map]
    rfl
  rwa [this]

/-! ### Patterns -/

theorem meets_indexableSource (hN : Unwritten N) {span : Span} {ty : SubType} {source : Expr}
    (h : source.mentions N = []) :
    Meets N (NoneLeft N) (indexableSource pool span ty source) [] := by
  unfold indexableSource
  split
  · exact .pure ⟨h, rfl⟩
  · exact (meets_useHelper .array).bind_quiet
      (meets_pushTemp (by simp [mentions_helperMember hN, h]))

theorem meets_assignPart {part : Source.Expr} {nested : Expr → SubType → Lower Unit}
    {target : Lower Reference} {slot : Expr} {ty : SubType} {index : SubIndex}
    (hn : part.isPattern = true → ∀ source ty, source.mentions N = [] →
      Meets N Done (nested source ty) part.calls)
    (ht : part.isPattern = false → part.isElided = false →
      Meets N (PlaceLeft N) (asPlace target) part.calls) (hs : slot.mentions N = []) :
    Meets N Done (assignPart pool part nested (asPlaceExpr target) slot ty index) part.calls := by
  unfold assignPart
  split
  next hp =>
    refine Meets.bind_ofFault fun partTy _ => ?_
    exact (meets_pushTemp hs).bind_source fun source hsource => hn hp source partTy hsource
  next hp =>
    split
    · exact .pure rfl
    next hne =>
      have he : part.isElided = false := by
        cases part <;> first | rfl | exact absurd rfl (hne _)
      have hplace : asPlaceExpr target = Place.toExpr <$> asPlace target := by
        simp only [asPlaceExpr, asPlace, Functor.map_map]
      rw [hplace]
      refine Meets.bind_last ((ht (by simpa using hp) he).map fun p ps h => h.left)
        (Q := Left N) fun t ps hps => ?_
      have := meets_emit (N := N) (.assign t slot)
      rwa [Stmt.mentions_assign, hs, List.append_nil, hps] at this

theorem meets_destructuring {span : Span} {ty : TypeId} {value : Lower Expr}
    {assign : Expr → SubType → Lower Unit} (hv : Meets N (ValueLeft N) value ms)
    (ha : ∀ source ty, source.mentions N = [] → Meets N Done (assign source ty) ns) :
    Meets N (ValueLeft N) (destructuring span ty value assign) (ms ++ ns) := by
  refine hv.bind fun v ps hv => ?_
  refine (meets_pushTemp hv.left).bind fun source qs ⟨hsource, hqs⟩ => ?_
  rw [hqs]
  refine (ha source _ hsource).bind_last fun _ ps hdone => ?_
  exact .pure (.of_noneLeft ⟨hsource, hdone⟩)

theorem meets_part {e : Source.Expr} (h : NodeMeets N pool e)
    (ht : e.isElided = false → e.TargetOf IsTarget) {slot : Expr} {ty : SubType}
    {index : SubIndex} (hs : slot.mentions N = []) :
    Meets N Done (assignPart pool e (fun source ty => destructure pool e source ty)
      (asPlaceExpr (reference pool e)) slot ty index) e.calls := by
  refine meets_assignPart (fun hp source ty hsource => ?_) (fun hp he => ?_) hs
  · have he : e.isElided = false := by cases e <;> first | rfl | cases hp
    exact h.pattern hp (ht he) source ty hsource
  · exact h.target (ht he) hp

theorem meets_assignElements {es : List Source.Expr} (h : ∀ e ∈ es, NodeMeets N pool e)
    (ht : ∀ e ∈ es, e.isElided = false → e.TargetOf IsTarget) {position : Nat} {source : Expr}
    {ty : SubType} (hs : source.mentions N = []) :
    Meets N Done (assignElements pool es position source ty) (es.flatMap Source.Expr.calls) := by
  induction es generalizing position with
  | nil => exact .pure rfl
  | cons e rest ih =>
    obtain ⟨he, hrest⟩ := List.forall_mem_cons.1 h
    obtain ⟨hte, htrest⟩ := List.forall_mem_cons.1 ht
    have hslot : (Expr.index source (oneBased position)).mentions N = [] := by simp [oneBased, hs]
    exact (meets_part he hte hslot).bind_done (ih hrest htrest)

theorem meets_assignProperties {ps : List (String × Source.Expr)}
    (h : ∀ p ∈ ps, NodeMeets N pool p.2)
    (ht : ∀ p ∈ ps, p.2.isElided = false → p.2.TargetOf IsTarget) {source : Expr} {ty : SubType}
    (hs : source.mentions N = []) :
    Meets N Done (assignProperties pool ps source ty) (ps.flatMap (·.2.calls)) := by
  induction ps with
  | nil => exact .pure rfl
  | cons p rest ih =>
    obtain ⟨hp, hrest⟩ := List.forall_mem_cons.1 h
    obtain ⟨htp, htrest⟩ := List.forall_mem_cons.1 ht
    have hslot : (Expr.property source p.1).mentions N = [] := hs
    exact (meets_part hp htp hslot).bind_done (ih hrest htrest)

theorem meets_pattern (hN : Unwritten N) {e : Source.Expr} (hp : e.isPattern)
    (hc : ∀ c ∈ e.children, NodeMeets N pool c) (ht : e.TargetOf IsTarget) {source : Expr}
    {ty : SubType} (hs : source.mentions N = []) :
    Meets N Done (destructure pool e source ty) e.calls := by
  cases ht with
  | leaf hleaf _ =>
    rw [hleaf] at hp
    cases hp
  | @array info es h =>
    rw [Source.Expr.calls, Source.Expr.callsList_eq_flatMap]
    refine (meets_indexableSource hN hs).bind_source fun source hs => ?_
    exact meets_assignElements hc h hs
  | @object info ps h =>
    rw [Source.Expr.calls, Source.Expr.callsProperties_eq_flatMap]
    have hps : ∀ p ∈ ps, NodeMeets N pool p.2 := fun p hp =>
      hc p.2 (List.mem_map.2 ⟨p, hp, rfl⟩)
    exact meets_assignProperties hps h hs

/-! ### Nodes -/

theorem meets_call (hN : Unwritten N) {info : Source.NodeInfo} {callee : Source.Expr}
    {args : List Source.Expr} (ht : Tracks N pool (.call info callee args))
    (hk : KeepsCalls pool (.call info callee args))
    (hc : ∀ c ∈ callee :: args, Tracks N pool c → NodeMeets N pool c)
    (hd : ∀ c ∈ callee :: args, ∀ d ∈ c.children, Tracks N pool d → NodeMeets N pool d)
    (ctx : CallContext) :
    Meets N (ValueLeft N) (call pool ctx (.call info callee args))
      (Source.Expr.call info callee args).calls := by
  obtain ⟨hf, ha⟩ := List.forall_mem_cons.1 hc
  obtain ⟨ho, hs⟩ := List.forall_mem_cons.1 hd
  have hargs := meets_arguments hN (fun c hm => ht.argument hm) ha hs
  have plain (hname : callee.name? = none) :
      Meets N (ValueLeft N) (plainCall pool ctx info callee.info (value pool callee)
        (arguments pool args)) (Source.Expr.call info callee args).calls := by
    rw [Source.Expr.calls, Source.Expr.callsList_eq_flatMap, hname]
    exact meets_plainCall ((hf (ht.callee hname)).value.imp fun _ _ h => h.left) hargs
  cases callee with
  | ident i name =>
    rw [Source.Expr.calls_call_ident]
    have hname : name ∈ N := ht.calls name (by simp [Source.Expr.calls, Source.Expr.name?])
    have hcallee : Meets N (Left N) (value pool (.ident i name)) [name] := by
      rw [value_ident]
      exact .pure (by simp [Left, Expr.mentions_ident, hname])
    exact meets_plainCall hcallee hargs
  | property i object member =>
    rw [Source.Expr.calls, Source.Expr.callsList_eq_flatMap]
    have htobject := (ht.callee rfl).part (c := object) List.mem_cons_self (by simp)
    exact meets_propertyCall hN htobject hk.constructor
      (ho object List.mem_cons_self htobject).value hargs
  | super i =>
    rw [Source.Expr.calls, Source.Expr.callsList_eq_flatMap]
    exact meets_superCall hN (ht.callee rfl) hargs
  | _ => exact plain rfl

theorem meets_binary (hN : Unwritten N) {info : Source.NodeInfo} {op : Source.BinaryOp}
    {l r : Source.Expr} (hk : KeepsCalls pool (.binary info op l r)) (hl : NodeMeets N pool l)
    (hr : NodeMeets N pool r) :
    Meets N (ValueLeft N) (value pool (.binary info op l r))
      (Source.Expr.binary info op l r).calls := by
  have pair : Meets N (fun p ps => ∃ qs rs, ValueLeft N p.1 qs ∧ ValueLeft N p.2 rs ∧
      ps = qs ++ rs) (inOrderPair ⟨l.span, value pool l⟩ ⟨r.span, value pool r⟩)
      (l.calls ++ r.calls) := meets_inOrderPair operandLeft_valueLeft hl.value hr.value
  have ht := hk.targets
  have hstrict := hk.strict
  rw [Source.Expr.calls]
  cases op with
  | arithmetic op =>
    rw [value_arithmetic]
    refine pair.map ?_
    rintro p ps ⟨qs, rs, hqs, hrs, hps⟩
    refine .of_not_simple ?_ (isSimple_operation ..)
    rw [mentions_operation hN, hqs.left, hrs.left, hps]
  | relation op =>
    rw [value_relation]
    refine pair.bind_last ?_
    rintro p ps ⟨qs, rs, hqs, hrs, hps⟩
    rw [hps]
    exact meets_relation hN hqs hrs
  | loose op => cases hstrict
  | logical op =>
    rw [value_logical]
    exact meets_shortCircuit hl.value hr.value
  | assign | assignWith op =>
    cases hp : l.isPattern with
    | true =>
      rw [value_pattern pool info l r _ rfl hp]
      exact meets_destructuring hr.value fun source ty hs => hl.pattern hp ht source ty hs
    | false =>
      first
      | rw [value_assign pool info l r hp]
        exact meets_assignValue (hl.target ht hp) hr.value
      | rw [value_assignWith pool info l r op hp]
        exact meets_compoundValue hN (hl.target ht hp) hr.value

theorem meets_prefixed (hN : Unwritten N) {info : Source.NodeInfo} {op : Source.PrefixOp}
    {e : Source.Expr} (hk : KeepsCalls pool (.prefixed info op e)) (h : NodeMeets N pool e) :
    Meets N (ValueLeft N) (value pool (.prefixed info op e)) e.calls := by
  have ht := hk.targets
  cases op with
  | not =>
    rw [value_not]
    refine h.value.bind_last fun v ps hv => ?_
    exact (meets_truthiness hv).map fun c qs hc => .of_not_simple hc rfl
  | neg =>
    rw [value_neg]
    exact h.value.map fun _ _ hv => left_negate hv
  | plus =>
    rw [value_plus]
    refine h.value.map fun v ps hv => .of_not_simple ?_ rfl
    simp [mentions_written hN "tonumber" (by decide), hv.left]
  | bitNot =>
    rw [value_bitNot]
    refine h.value.map fun v ps hv => .of_not_simple ?_ rfl
    simp [mentions_libraryMember hN "bit32" (by decide), hv.left]
  | update op =>
    rw [value_updateBefore]
    exact meets_updateBefore (h.place ht)

theorem meets_literal {v : Expr} (h : v.leaves = []) :
    Meets N (ValueLeft N) (asValue (pure (.ofExpr v))) [] := by
  have hv : v.mentions N = [] := by simp [Expr.mentions, h]
  exact (Meets.pure (Q := fun r ps => ValueLeft N r.value ps) ⟨hv, fun _ => rfl⟩).map
    fun _ _ h => h

/-- The value of a node, by those of its parts and of the parts of these. -/
theorem meets_value (hN : Unwritten N) {e : Source.Expr} (ht : Tracks N pool e)
    (hk : KeepsCalls pool e)
    (hc : ∀ c ∈ e.children, Tracks N pool c → NodeMeets N pool c)
    (hd : ∀ c ∈ e.children, ∀ d ∈ c.children, Tracks N pool d → NodeMeets N pool d) :
    Meets N (ValueLeft N) (value pool e) e.calls := by
  have part {c : Source.Expr} (hm : c ∈ e.children) (he : ∀ info f args, e ≠ .call info f args) :
      NodeMeets N pool c := hc c hm (ht.part hm he)
  cases e with
  | ident info name =>
    rw [value_ident]
    have hname : name ∉ N := ht.others name (by simp [Source.Expr.others])
    exact .pure ⟨Expr.mentions_ident_of_not_mem hname, fun _ => rfl⟩
  | this info =>
    have hself := mentions_written hN "self" (by decide)
    exact (Meets.pure (Q := fun r ps => ValueLeft N r.value ps) ⟨hself, fun _ => rfl⟩).map
      fun _ _ h => h
  | super info =>
    rw [value_super]
    refine (Meets.ofError (Q := fun name ps => ValueLeft N (.ident name) ps)
      fun name hname => ?_).map fun _ _ h => h
    exact ⟨Expr.mentions_ident_of_not_mem (ht.superClass hname), fun _ => rfl⟩
  | number | string | bool | undefined | error => exact meets_literal rfl
  | paren info inner =>
    rw [value_paren]
    exact (part List.mem_cons_self (by simp)).value.map fun _ _ hv => .of_not_simple hv.left rfl
  | spread info inner =>
    exact (Meets.fail (Q := fun r ps => ValueLeft N r.value ps) _).map fun _ _ h => h
  | property info object name =>
    rw [value_property]
    exact (part List.mem_cons_self (by simp)).value.map fun _ _ hv => .of_not_simple hv.left rfl
  | element info object index =>
    rw [value_element]
    have ho := part List.mem_cons_self (by simp)
    have hi := part (List.mem_cons_of_mem _ List.mem_cons_self) (by simp)
    refine (meets_inOrderPair operandLeft_valueLeft ho.value hi.value).map ?_
    rintro p ps ⟨qs, rs, hqs, hrs, hps⟩
    refine .of_not_simple ?_ rfl
    simp [hqs.left, (left_shiftIndex hrs).left, hps]
  | call info callee args =>
    rw [value_call]
    exact meets_call hN ht hk hc hd .value
  | binary info op l r =>
    have hl := part List.mem_cons_self (by simp)
    have hr := part (List.mem_cons_of_mem _ List.mem_cons_self) (by simp)
    exact meets_binary hN hk hl hr
  | prefixed info op inner => exact meets_prefixed hN hk (part List.mem_cons_self (by simp))
  | postfixed info op inner =>
    rw [value_updateAfter]
    exact meets_updateAfter ((part List.mem_cons_self (by simp)).place hk.targets)
  | array info es =>
    rw [value_array, Source.Expr.calls, Source.Expr.callsList_eq_flatMap]
    have hes := meets_operands fun e hm => part hm (by simp)
    refine (meets_inOrder operandLeft_valueLeft hes).map fun vs ps h => .of_not_simple ?_ rfl
    rw [Expr.mentions_positional, h.flatMap operandLeft_valueLeft]
  | object info ps =>
    rw [value_object, Source.Expr.calls, Source.Expr.callsProperties_eq_flatMap]
    have hps := meets_propertyOperands fun p hp => part (List.mem_map.2 ⟨p, hp, rfl⟩) (by simp)
    have hall := (meets_inOrder operandLeft_valueLeft hps).and
      (P := fun vs => (ps.map (·.1)).length = vs.length) fun n vs e h => by
        rw [length_of_inOrder h, propertyOperands_eq_map]
        simp
    refine hall.map ?_
    rintro vs qs ⟨h, hlength⟩
    refine .of_not_simple ?_ rfl
    rw [Expr.mentions_named hlength, h.flatMap operandLeft_valueLeft]

theorem meets_place {e : Source.Expr} (ht : Tracks N pool e)
    (hc : ∀ c ∈ e.children, Tracks N pool c → NodeMeets N pool c)
    (hv : Meets N (ValueLeft N) (value pool e) e.calls) (h : e.IsTarget) :
    Meets N (PlaceLeft N) (asPlace (reference pool e)) e.calls := by
  rcases h with h | hnil
  · have part {c : Source.Expr} (hm : c ∈ e.children) : NodeMeets N pool c :=
      hc c hm (ht.part hm (by rintro info f args rfl; cases h))
    cases e with
    | ident info name => exact meets_asPlace_of_no_calls hv
    | property info object name => exact meets_asPlace_property (part List.mem_cons_self).value
    | element info object index =>
      have ho := part (c := object) List.mem_cons_self
      have hi := part (c := index) (List.mem_cons_of_mem _ List.mem_cons_self)
      exact meets_asPlace_element ho.value hi.value
    | paren info inner => exact meets_asPlace_paren ((part List.mem_cons_self).place (.inl h))
    | _ => cases h
  · rw [hnil] at hv ⊢
    exact meets_asPlace_of_no_calls hv

/-- Lowering a node meets its calls. -/
theorem meets_node (hN : Unwritten N) {e : Source.Expr} (h : e.Everywhere (KeepsCalls pool))
    (ht : Tracks N pool e) : NodeMeets N pool e := by
  revert ht
  refine h.induct₂ (motive := fun e => Tracks N pool e → NodeMeets N pool e)
    fun e hk hc hd ht => ?_
  have hvalue := meets_value hN ht hk hc hd
  refine ⟨hvalue, meets_place ht hc hvalue, fun hp htarget source ty hs => ?_⟩
  refine meets_pattern hN hp (fun c hm => hc c hm (ht.part hm ?_)) htarget hs
  rintro info f args rfl
  cases hp

end ScriptLowering.Lower
