import ScriptLowering.Proofs.Walk.Calls

/-!
# Walks over covered nodes

A node whose parts are walked as they are lowered is walked so itself.  By
induction on the depth, a walk over a well-formed file that may go as deep as
the arena is long does not panic.

    binary operators reach their form on two values only when they have one    (binary_eq)
    w covers the nodes before b → step f w covers those before b + 1             (covers_step)
    walker f depth covers the nodes before depth                                  (covers_walker)
-/

namespace ScriptLowering.Walk

open Lower (Place)
open Source (BinaryOp Node NodeInfo PropertyNode)
open Target (Expr)

section WellFormed

variable {f : NamedFile} (hf : f.toFile.WellFormed) (htypes : f.types.WellFormed)
  (hready : f.Ready)
variable {w : Walker} {bound : Nat} (hw : Covers f w bound)
variable {a b : ExprId} {t u : Source.Expr}

/-! ### Operators -/

section Operators

variable (ha : a.index < bound) (hat : f.Reads a t)

include hw ha hat in
theorem update_eq (op : Source.UpdateOp) (span : Span) (isPrefix : Bool) :
    update w op span a isPrefix =
      lift (if isPrefix then Lower.updateBefore op span (Lower.reference f.types.pool t)
        else Lower.updateAfter op span (Lower.reference f.types.pool t)) := by
  cases isPrefix <;>
    simp only [update, (hw ha hat).place, pinPlace_eq, pushTemp_eq, emit_eq, Lower.updateBefore,
      Lower.updateAfter, lift_bind, lift_pure, Bool.false_eq_true, if_true, if_false, pure_bind]

include hf htypes hready hw ha hat

theorem prefixed_eq (op : Source.PrefixOp) (info : NodeInfo) :
    prefixed f w info op a = lift (Lower.value f.types.pool (.prefixed info op t)) := by
  obtain ⟨n, hn⟩ := hat.node hf
  have hv := (hw ha hat).value
  cases op with
  | not =>
    have hty : f.types.pool.Holds t.ty := hn.ty ▸ htypes.holds_typeOf a
    simp only [prefixed, hv, hn.ty, truthiness_eq htypes.pool hty, Lower.value_not,
      map_eq_pure_bind, lift_bind, lift_pure]
  | neg | plus =>
    simp only [prefixed, hv, Lower.value_neg, Lower.value_plus, map_eq_pure_bind, lift_bind,
      lift_pure]
  | bitNot =>
    have hname : enterName f "bnot" = pure () := enterName_eq (hready.operators "bnot" (by decide))
    simp only [prefixed, hv, hname, Lower.value_bitNot, map_eq_pure_bind, lift_bind, lift_pure,
      pure_bind]
  | update op =>
    rw [Lower.value_updateBefore]
    exact update_eq hw ha hat op info.span true

variable (hb : b.index < bound) (hbu : f.Reads b u)

include hb hbu

theorem assignment_eq {op : BinaryOp} (hop : op.isAssignment) (info : NodeInfo) :
    assignment f w op info a b = lift (Lower.value f.types.pool (.binary info op t u)) := by
  obtain ⟨n, hn⟩ := hat.node hf
  obtain ⟨m, hm⟩ := hbu.node hf
  have hty : f.types.pool.Holds t.ty := hn.ty ▸ htypes.holds_typeOf a
  have huty : f.types.pool.Holds u.ty := hm.ty ▸ htypes.holds_typeOf b
  rw [assignment, node_bind hn.node, hn.grows.isPattern_eq]
  simp only [hm.ty]
  by_cases hp : t.isPattern
  · have hsub : f.types.pool.HoldsSubType (.single u.ty) := huty
    have pattern (source : Expr) := (hw ha hat).pattern hp source hsub
    rw [if_pos hp, Lower.value_pattern _ _ _ _ _ hop hp]
    simp only [Lower.destructuring, (hw hb hbu).value, pushTemp_eq, pattern, lift_bind, lift_pure]
  · rw [if_neg hp]
    have hp : t.isPattern = false := by simpa using hp
    rcases (BinaryOp.isAssignment_iff op).1 hop with rfl | ⟨op, rfl⟩
    · rw [Lower.value_assign _ _ _ _ hp, (hw ha hat).place, (hw hb hbu).value, hn.span]
      exact assignValue_eq
    · have hinfo : infoOf f a n = t.info := hn.grows.info_eq.symm
      rw [Lower.value_assignWith _ _ _ _ _ hp, (hw ha hat).place, (hw hb hbu).value, hinfo]
      exact compoundValue_eq hready htypes.pool hty huty op

/-- An operator is asked for its form on two values only when it has one. -/
theorem binary_eq (op : BinaryOp) (info : NodeInfo) :
    binary f w info op a b = lift (Lower.value f.types.pool (.binary info op t u)) := by
  obtain ⟨n, hn⟩ := hat.node hf
  obtain ⟨m, hm⟩ := hbu.node hf
  have hty : f.types.pool.Holds t.ty := hn.ty ▸ htypes.holds_typeOf a
  have huty : f.types.pool.Holds u.ty := hm.ty ▸ htypes.holds_typeOf b
  have hpair := pair_eq hf hw ha hb hat hbu
  cases op with
  | loose op =>
    rw [Lower.value_loose, binary]
    exact looseEquality_eq op info.span
  | logical op =>
    rw [Lower.value_logical, binary, (hw ha hat).value, (hw hb hbu).value, hn.ty]
    exact shortCircuit_eq htypes.pool hty op _ _
  | assign => exact assignment_eq hf htypes hready hw ha hat hb hbu rfl info
  | assignWith op => exact assignment_eq hf htypes hready hw ha hat hb hbu rfl info
  | arithmetic op =>
    have values (l r : Expr) := onValues_arithmetic hready htypes.pool (l := ⟨l, t.ty⟩)
      (r := ⟨r, u.ty⟩) hty huty op info.span
    have step : binary f w info (.arithmetic op) a b = (do
        let p ← pair f w a b
        onValues f (.arithmetic op) info.span ⟨p.1, f.types.typeOf a⟩
          ⟨p.2, f.types.typeOf b⟩) := rfl
    rw [step, hpair, hn.ty, hm.ty, Lower.value_arithmetic]
    simp only [values, map_eq_pure_bind, lift_bind, lift_pure]
  | relation op =>
    have step : binary f w info (.relation op) a b = (do
        let p ← pair f w a b
        relation op info.span p.1 p.2) := rfl
    simp only [step, hpair, relation_eq, Lower.value_relation, lift_bind]

end Operators

/-! ### Nodes -/

section Node

variable {e : ExprId} {n : Node} (h : f.ReadsNode e t n) (he : e.index < bound + 1)

include h he in
theorem part_lt (ids : List ExprId) (hids : f.arena.parts n.kind = .ok ids) :
    ∀ c ∈ ids, c.index < bound :=
  fun c hc => Nat.lt_of_lt_of_le (h.lt ids hids c hc) (Nat.le_of_lt_succ he)

include hf htypes hready hw h he in
theorem valueOf_eq : valueOf f w e n = lift (Lower.value f.types.pool t) := by
  obtain ⟨kind, span⟩ := n
  have hlt := part_lt h he
  have htype := htypes.holds_typeOf e
  cases h.grows with
  | ident | this | number | string | bool | undefined | error => exact (lift_pure _).symm
  | super =>
    simp only [valueOf, superClass_eq htype, Lower.value_super, map_eq_pure_bind, lift_bind,
      lift_pure]
  | @paren inner t hi =>
    have hi' := hlt [inner] rfl inner List.mem_cons_self
    simp only [valueOf, (hw hi' hi).value, Lower.value_paren, map_eq_pure_bind, lift_bind,
      lift_pure]
  | spread => exact fail_eq _
  | @property object t ho name =>
    have ho' := hlt [object] rfl object List.mem_cons_self
    simp only [valueOf, (hw ho' ho).value, Lower.value_property, map_eq_pure_bind, lift_bind,
      lift_pure]
  | @element o i t u ho hi =>
    obtain ⟨ho', hi'⟩ := List.forall_mem_cons.1 (hlt [o, i] rfl)
    have hi' := List.forall_mem_singleton.1 hi'
    simp only [valueOf, element_eq hf htypes hw ho' hi' ho hi, Lower.value_element,
      map_eq_pure_bind, lift_bind, lift_pure, bind_assoc, pure_bind]
  | @call c t r ids ts hc hr hs =>
    have hparts := hlt (c :: ids) (by simp only [Source.Arena.parts, hr]; rfl)
    obtain ⟨hc', hs'⟩ := List.forall_mem_cons.1 hparts
    rw [Lower.value_call]
    exact call_eq hf htypes hw hs hs' hc' hc hready .value htype hr
  | @binary op l r t u hl hr =>
    obtain ⟨hl', hr'⟩ := List.forall_mem_cons.1 (hlt [l, r] rfl)
    have hr' := List.forall_mem_singleton.1 hr'
    exact binary_eq hf htypes hready hw hl' hl hr' hr op _
  | @prefixed op c t hc =>
    have hc' := hlt [c] rfl c List.mem_cons_self
    exact prefixed_eq hf htypes hready hw hc' hc op _
  | @postfixed op c t hc =>
    have hc' := hlt [c] rfl c List.mem_cons_self
    rw [Lower.value_updateAfter]
    exact update_eq hw hc' hc op span false
  | @array r ids ts hr hs =>
    have operands := lowers_operands hf hw hs (hlt ids hr) 0
    simp only [valueOf, exprs, indexed_bind_ok hr, inOrder_eq operands, Lower.value_array,
      map_eq_pure_bind, lift_bind, lift_pure]
  | @object r ps ts hr hs =>
    have hparts := hlt (ps.map (·.value)) (by simp only [Source.Arena.parts, hr]; rfl)
    have operands := lowers_propertyOperands hf hw hs hparts 0
    have names : ps.map (·.name) = ts.map (·.1) := by
      rw [← List.forall₂_eq_eq_eq, List.forall₂_map_left_iff, List.forall₂_map_right_iff]
      exact hs.imp fun _ _ h => h.1
    simp only [valueOf, properties, indexed_bind_ok hr, inOrder_eq operands, names,
      Lower.value_object, map_eq_pure_bind, lift_bind, lift_pure]

include hf htypes hready hw h he in
theorem placeOf_eq :
    placeOf f w e n = lift (Lower.asPlace (Lower.reference f.types.pool t)) := by
  have hvalue := valueOf_eq hf htypes hready hw h he
  obtain ⟨kind, span⟩ := n
  have hlt := part_lt h he
  have whole (hx : Lower.reference f.types.pool t = .asReference (Lower.value f.types.pool t)) :
      (do return .whole (← valueOf f w e ⟨kind, span⟩) : Walk Place) =
        lift (Lower.asPlace (Lower.reference f.types.pool t)) := by
    rw [hx, hvalue, Lower.asPlace_asReference, lift_map, map_eq_pure_bind]
  cases h.grows with
  | @paren inner t hi =>
    have hi' := hlt [inner] rfl inner List.mem_cons_self
    rw [Lower.asPlace_paren]
    exact (hw hi' hi).place
  | @property object t ho name =>
    have ho' := hlt [object] rfl object List.mem_cons_self
    simp only [placeOf, (hw ho' ho).value, Lower.asPlace_property, map_eq_pure_bind, lift_bind,
      lift_pure]
  | @element o i t u ho hi =>
    obtain ⟨ho', hi'⟩ := List.forall_mem_cons.1 (hlt [o, i] rfl)
    have hi' := List.forall_mem_singleton.1 hi'
    simp only [placeOf, element_eq hf htypes hw ho' hi' ho hi, Lower.asPlace_element,
      map_eq_pure_bind, lift_bind, lift_pure, bind_assoc, pure_bind]
  | ident | this | number | string | bool | undefined | error | spread => exact whole rfl
  | super => exact whole (Lower.reference_super ..)
  | call => exact whole (by rw [Lower.reference_call, Lower.value_call])
  | binary => exact whole (Lower.reference_binary ..)
  | prefixed => exact whole (Lower.reference_prefixed ..)
  | postfixed => exact whole (Lower.reference_postfixed ..)
  | array => exact whole (Lower.reference_array ..)
  | object => exact whole (Lower.reference_object ..)

end Node

/-! ### Patterns -/

section Patterns

variable {ty : SubType} (hty : f.types.pool.HoldsSubType ty)

include hf htypes hw hty

/-- A part is assigned from its slot, or the walk stops for want of its type. -/
theorem assignPart_eq (ha : a.index < bound) (hat : f.Reads a t) (slot : Expr) (index : SubIndex) :
    assignPart f w a slot ty index =
      lift (Lower.assignPart f.types.pool t
        (fun source ty => Lower.destructure f.types.pool t source ty)
        (Lower.asPlaceExpr (Lower.reference f.types.pool t)) slot ty index) := by
  obtain ⟨n, hn⟩ := hat.node hf
  rw [assignPart, node_bind hn.node, hn.grows.isPattern_eq]
  unfold Lower.assignPart
  by_cases hp : t.isPattern
  · rw [if_pos hp, if_pos hp, check_bind_ok (subType_eq htypes.pool hty index), hn.span]
    simp only [ofFault_eq, pushTemp_eq]
    cases hs : f.types.pool.subType ty index with
    | error fault => exact lift_stop_bind _ _
    | ok partTy =>
      have hpart := TypePool.holds_subType htypes.pool hty hs
      simp only [Lower.ofFault, lift_pure, pure_bind, (hw ha hat).pattern hp _ hpart, lift_bind]
  · rw [if_neg hp, if_neg hp]
    obtain ⟨hk, rfl⟩ | ⟨hk, hundefined⟩ := hn.grows.undefined_or
    · rw [if_pos hk]
      exact (lift_pure _).symm
    · rw [if_neg hk, (hw ha hat).place]
      split
      next info => exact absurd rfl (hundefined info)
      next =>
        simp only [Lower.asPlace, Lower.asPlaceExpr, emit_eq, map_eq_pure_bind, lift_bind,
          lift_pure, bind_assoc, pure_bind]

theorem assignElements_eq {ids : List ExprId} {ts : List Source.Expr}
    (hs : List.Forall₂ f.Reads ids ts) (hlt : ∀ c ∈ ids, c.index < bound) (position : Nat)
    (source : Expr) :
    assignElements f w ids position source ty =
      lift (Lower.assignElements f.types.pool ts position source ty) := by
  induction hs generalizing position with
  | nil => exact (lift_pure _).symm
  | cons hr _ ih =>
    obtain ⟨hc, hrest⟩ := List.forall_mem_cons.1 hlt
    rw [assignElements, Lower.assignElements, assignPart_eq hf htypes hw hty hc hr, lift_bind]
    exact bind_congr fun _ => ih hrest (position + 1)

theorem assignProperties_eq {ps : List PropertyNode} {ts : List (String × Source.Expr)}
    (hs : List.Forall₂ (fun p t => p.name = t.1 ∧ f.Reads p.value t.2) ps ts)
    (hlt : ∀ c ∈ ps.map (·.value), c.index < bound) (source : Expr) :
    assignProperties f w ps source ty =
      lift (Lower.assignProperties f.types.pool ts source ty) := by
  induction hs with
  | nil => exact (lift_pure _).symm
  | cons hr _ ih =>
    obtain ⟨hc, hrest⟩ := List.forall_mem_cons.1 hlt
    rw [assignProperties, Lower.assignProperties, assignPart_eq hf htypes hw hty hc hr.2, lift_bind,
      hr.1]
    exact bind_congr fun _ => ih hrest

variable {e : ExprId} {n : Node} (h : f.ReadsNode e t n) (he : e.index < bound + 1)

include h he

theorem patternOf_eq (hp : t.isPattern) (source : Expr) :
    patternOf f w e n source ty = lift (Lower.destructure f.types.pool t source ty) := by
  obtain ⟨kind, span⟩ := n
  have hlt := part_lt h he
  cases h.grows with
  | @array r ids ts hr hs =>
    have elements (source : Expr) := assignElements_eq hf htypes hw hty hs (hlt ids hr) 0 source
    simp only [patternOf, exprs, indexed_bind_ok hr, indexableSource_eq htypes.pool hty, elements,
      Lower.destructure, lift_bind]
  | @object r ps ts hr hs =>
    have hparts := hlt (ps.map (·.value)) (by simp only [Source.Arena.parts, hr]; rfl)
    simp only [patternOf, properties, indexed_bind_ok hr,
      assignProperties_eq hf htypes hw hty hs hparts, Lower.destructure]
  | _ => cases hp

end Patterns

/-! ### Runs -/

include hf htypes hready

/-- A node is walked as it is lowered when its parts are. -/
theorem covers_step (hw : Covers f w bound) : Covers f (step f w) (bound + 1) := by
  intro e t he hr
  obtain ⟨n, hn⟩ := hr.node hf
  exact ⟨(node_bind hn.node _).trans (valueOf_eq hf htypes hready hw hn he),
    (node_bind hn.node _).trans (placeOf_eq hf htypes hready hw hn he),
    fun hp source _ hty =>
      (node_bind hn.node _).trans (patternOf_eq hf htypes hw hty hn he hp source)⟩

/-- A walk covers all nodes that come before its depth. -/
theorem covers_walker (depth : Nat) : Covers f (walker f depth) depth := by
  induction depth with
  | zero => exact fun _ _ he => absurd he (Nat.not_lt_zero _)
  | succ depth ih => exact covers_step hf htypes hready ih

end WellFormed

end ScriptLowering.Walk
