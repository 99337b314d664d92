import ScriptLowering.Proofs.Source.Everywhere

/-!
# Values of nodes

The value of each kind of node, as an operation on the values of its parts, and
what kind of place a location is lowered to.

    value (l && r) = shortCircuit .and (value l) (value r)                (value_logical)
    value (x = e) = assignValue x e, value ([x] = e) = destructuring e     (value_assign, value_pattern)
    l.isLocation → the place of l is a variable or a member                (isLocation_place)
-/

namespace ScriptLowering.Lower

open Target (Expr Stmt)
open Source (NodeInfo)

variable (pool : TypePool) (info : NodeInfo)

/-! ### Nodes that are no places -/

theorem reference_binary (op : Source.BinaryOp) (l r : Source.Expr) :
    reference pool (.binary info op l r) = asReference (value pool (.binary info op l r)) :=
  congrArg asReference (asValue_asReference _).symm

theorem reference_prefixed (op : Source.PrefixOp) (e : Source.Expr) :
    reference pool (.prefixed info op e) = asReference (value pool (.prefixed info op e)) :=
  congrArg asReference (asValue_asReference _).symm

theorem reference_postfixed (op : Source.UpdateOp) (e : Source.Expr) :
    reference pool (.postfixed info op e) = asReference (value pool (.postfixed info op e)) :=
  congrArg asReference (asValue_asReference _).symm

theorem reference_call (callee : Source.Expr) (args : List Source.Expr) :
    reference pool (.call info callee args) =
      asReference (call pool .value (.call info callee args)) := by
  cases callee <;> rfl

theorem reference_super :
    reference pool (.super info) = asReference (value pool (.super info)) :=
  congrArg asReference (asValue_asReference _).symm

theorem asReference_asValue_bind_pure {α : Type} (x : Lower α) (f : α → Expr) :
    asReference (asValue (x >>= fun a => pure (.ofExpr (f a)))) =
      x >>= fun a => pure (.ofExpr (f a)) := by
  simp only [asReference, asValue, ← map_eq_pure_bind, Functor.map_map, Reference.value_ofExpr]

theorem reference_array (es : List Source.Expr) :
    reference pool (.array info es) = asReference (value pool (.array info es)) :=
  (asReference_asValue_bind_pure _ _).symm

theorem reference_object (ps : List (String × Source.Expr)) :
    reference pool (.object info ps) = asReference (value pool (.object info ps)) :=
  (asReference_asValue_bind_pure _ _).symm

/-! ### Leaves, parentheses and members -/

theorem asValue_bind_pure {α : Type} (x : Lower α) (f : α → Reference) :
    asValue (x >>= fun a => pure (f a)) = (fun a => (f a).value) <$> x := by
  simp only [asValue, ← map_eq_pure_bind, Functor.map_map]

theorem value_ident (name : String) :
    value pool (.ident info name) = pure (.ident name) :=
  map_pure _ _

theorem value_super :
    value pool (.super info) = .ident <$> ofError (superClass pool info.ty info.span) :=
  asValue_asReference _

theorem value_paren (e : Source.Expr) :
    value pool (.paren info e) = Expr.paren <$> value pool e := by
  have inner : Expr.paren <$> asValue (reference pool e) =
      (fun r => Expr.paren r.value) <$> reference pool e := Functor.map_map ..
  exact (Functor.map_map ..).trans inner.symm

theorem value_property (object : Source.Expr) (name : String) :
    value pool (.property info object name) = (.property · name) <$> value pool object :=
  asValue_bind_pure _ _

theorem value_element (object index : Source.Expr) :
    value pool (.element info object index) = (fun p => .index p.1 (shiftIndex pool object.ty p.2))
      <$> inOrderPair ⟨object.span, value pool object⟩ ⟨index.span, value pool index⟩ :=
  asValue_bind_pure _ fun p : Expr × Expr => .plain (.index p.1 (shiftIndex pool object.ty p.2))

theorem value_array (es : List Source.Expr) :
    value pool (.array info es) = (fun vs => .table (vs.map .positional))
      <$> inOrder (operands pool es) :=
  asValue_bind_pure _ _

theorem value_object (ps : List (String × Source.Expr)) :
    value pool (.object info ps) = (fun vs => .table (List.zipWith .named (ps.map (·.1)) vs))
      <$> inOrder (propertyOperands pool ps) :=
  asValue_bind_pure _ _

/-- Arguments that are no spread are lowered one like another. -/
theorem arguments_eq_map {es : List Source.Expr} (h : ∀ e ∈ es, ∀ i inner, e ≠ .spread i inner) :
    arguments pool es = es.map fun e => argument pool e.info (value pool e) := by
  induction es with
  | nil => rfl
  | cons e rest ih =>
    obtain ⟨he, hrest⟩ := List.forall_mem_cons.1 h
    cases e with
    | spread i inner => exact absurd rfl (he i inner)
    | _ => exact congrArg (List.cons _) (ih hrest)

/-- What holds of each argument lowered as it is, and of each spread, holds of all operands. -/
theorem forall_mem_arguments {Q : Operand → Prop} {es : List Source.Expr}
    (plain : ∀ e ∈ es, Q (argument pool e.info (value pool e)))
    (spread : ∀ e ∈ es, ∀ i inner, e = .spread i inner →
      ∀ isLast, Q (spreadArgument i isLast (value pool inner))) :
    ∀ x ∈ arguments pool es, Q x := by
  induction es with
  | nil => exact nofun
  | cons e rest ih =>
    obtain ⟨hplain, hrest⟩ := List.forall_mem_cons.1 plain
    obtain ⟨hspread, hspreads⟩ := List.forall_mem_cons.1 spread
    have ih' := ih hrest hspreads
    cases e with
    | spread i inner => exact List.forall_mem_cons.2 ⟨hspread i inner rfl rest.isEmpty, ih'⟩
    | _ => exact List.forall_mem_cons.2 ⟨hplain, ih'⟩

/-! ### Binary operators -/

variable (l r : Source.Expr)

theorem value_arithmetic (op : Source.ArithmeticOp) :
    value pool (.binary info (.arithmetic op) l r) =
      (fun p => arithmetic pool op ⟨p.1, l.ty⟩ ⟨p.2, r.ty⟩)
        <$> inOrderPair ⟨l.span, value pool l⟩ ⟨r.span, value pool r⟩ :=
  (asValue_asReference _).trans (map_eq_pure_bind _ _).symm

theorem value_relation (op : Source.RelationOp) :
    value pool (.binary info (.relation op) l r) =
      (inOrderPair ⟨l.span, value pool l⟩ ⟨r.span, value pool r⟩ >>= fun p =>
        relation op info.span p.1 p.2) :=
  asValue_asReference _

theorem value_loose (op : Source.LooseOp) :
    value pool (.binary info (.loose op) l r) = looseEquality op info.span :=
  asValue_asReference _

theorem value_logical (op : Source.LogicalOp) :
    value pool (.binary info (.logical op) l r) =
      shortCircuit pool op info.span l.ty (value pool l) (value pool r) :=
  asValue_asReference _

theorem value_pattern (op : Source.BinaryOp) (hop : op.isAssignment) (hl : l.isPattern) :
    value pool (.binary info op l r) =
      destructuring info.span r.ty (value pool r) fun source ty => destructure pool l source ty := by
  rcases (Source.BinaryOp.isAssignment_iff op).1 hop with rfl | ⟨op, rfl⟩ <;>
    exact (asValue_asReference _).trans (if_pos hl)

theorem value_assign (hl : l.isPattern = false) :
    value pool (.binary info .assign l r) =
      assignValue l.span (reference pool l) (value pool r) :=
  (asValue_asReference _).trans (if_neg (by simp [hl]))

theorem value_assignWith (op : Source.ArithmeticOp) (hl : l.isPattern = false) :
    value pool (.binary info (.assignWith op) l r) =
      compoundValue pool op l.info r.ty (reference pool l) (value pool r) :=
  (asValue_asReference _).trans (if_neg (by simp [hl]))

/-! ### Unary operators -/

variable (e : Source.Expr)

theorem value_not :
    value pool (.prefixed info .not e) =
      (value pool e >>= fun v => .unary .not <$> truthiness pool e.ty info.span v) := by
  simp only [map_eq_pure_bind]
  exact asValue_asReference _

theorem value_neg : value pool (.prefixed info .neg e) = negate <$> value pool e :=
  asValue_asReference _

theorem value_plus :
    value pool (.prefixed info .plus e) =
      (fun v => .call (.ident "tonumber") [v]) <$> value pool e :=
  (asValue_asReference _).trans (map_eq_pure_bind _ _).symm

theorem value_bitNot :
    value pool (.prefixed info .bitNot e) =
      (fun v => .call (libraryMember "bit32" "bnot") [v]) <$> value pool e :=
  (asValue_asReference _).trans (map_eq_pure_bind _ _).symm

theorem value_updateBefore (op : Source.UpdateOp) :
    value pool (.prefixed info (.update op) e) = updateBefore op info.span (reference pool e) :=
  asValue_asReference _

theorem value_updateAfter (op : Source.UpdateOp) :
    value pool (.postfixed info op e) = updateAfter op info.span (reference pool e) :=
  asValue_asReference _

/-! ### Expression statements -/

theorem statementBody_assign (hl : l.isPattern = false) :
    statementBody pool (.binary info .assign l r) =
      some <$> assignStatement l.span (reference pool l) (value pool r) := by
  simp only [statementBody, hl, Bool.false_eq_true, if_false]

theorem statementBody_assignWith (op : Source.ArithmeticOp) (hl : l.isPattern = false) :
    statementBody pool (.binary info (.assignWith op) l r) =
      some <$> compoundStatement pool op l.info r.ty (reference pool l) (value pool r) := by
  simp only [statementBody, hl, Bool.false_eq_true, if_false]

/-- A destructuring, and any operator but an assignment, is a value to drop. -/
theorem statementBody_binary (op : Source.BinaryOp) (h : l.isPattern ∨ op.isAssignment = false) :
    statementBody pool (.binary info op l r) = discard <$> value pool (.binary info op l r) := by
  cases hl : l.isPattern with
  | true => simp only [statementBody, hl, if_true]
  | false =>
    have hop : op.isAssignment = false := by simpa [hl] using h
    cases op with
    | assign | assignWith => cases hop
    | _ => simp only [statementBody, hl, Bool.false_eq_true, if_false]

/-! ### Places -/

/-- A variable or a member. -/
def Place.IsLocation : Place → Prop
  | whole e => ∃ name, e = .ident name
  | property _ _ | index _ _ => True

theorem isLocation_place {pool : TypePool} {l : Source.Expr} (hl : l.isLocation) {n : Nat}
    {r : Reference} {e : Effects} (h : reference pool l n = (.ok r, e)) : r.place.IsLocation := by
  fun_induction Source.Expr.isLocation l generalizing n r e with
  | case1 info name =>
    cases h
    exact ⟨name, rfl⟩
  | case2 info object name =>
    obtain ⟨o, e₁, e₂, -, hr, -⟩ := bind_eq_ok.1 h
    cases hr
    trivial
  | case3 info object index =>
    obtain ⟨⟨o, i⟩, e₁, e₂, -, hr, -⟩ := bind_eq_ok.1 h
    cases hr
    trivial
  | case4 info inner ih =>
    obtain ⟨r', hr, rfl⟩ := map_eq_ok.1 h
    rw [Reference.place_paren]
    exact ih hl hr
  | case5 => cases hl

/-! ### Places of nodes -/

theorem asPlace_bind_pure {α : Type} (x : Lower α) (f : α → Reference) :
    asPlace (x >>= fun a => pure (f a)) = (fun a => (f a).place) <$> x := by
  simp only [asPlace, ← map_eq_pure_bind, Functor.map_map]

theorem asPlace_paren :
    asPlace (reference pool (.paren info e)) = asPlace (reference pool e) :=
  Functor.map_map Reference.paren Reference.place _

theorem asPlace_property (name : String) :
    asPlace (reference pool (.property info e name)) = (Place.property · name) <$> value pool e :=
  asPlace_bind_pure _ _

theorem asPlace_element (object index : Source.Expr) :
    asPlace (reference pool (.element info object index)) =
      (fun p => .index p.1 (shiftIndex pool object.ty p.2))
        <$> inOrderPair ⟨object.span, value pool object⟩ ⟨index.span, value pool index⟩ :=
  asPlace_bind_pure _ fun p : Expr × Expr => .plain (.index p.1 (shiftIndex pool object.ty p.2))

/-- The place of what is no location and no member is its value. -/
theorem asPlace_asReference (x : Lower Expr) : asPlace (asReference x) = Place.whole <$> x :=
  Functor.map_map ..

end ScriptLowering.Lower
