import ScriptLowering.Target.Stmt

/-!
# Leaves of target code

The identifiers and temporaries of target code, in the order in which it is
evaluated: a target's parts before the assigned value, subexpressions left to
right, a condition before its block.

    e.isStable → e has no identifier among its leaves               (names_of_isStable)
    the leaves of ss ++ tt are those of ss, then those of tt         (leavesAll_append)
-/

namespace ScriptLowering.Target

/-- A leaf that stands for something bound elsewhere. -/
inductive Leaf where
  | ident (name : String)
  | temp (id : Nat)
  deriving DecidableEq

@[simp] def Leaf.name? : Leaf → Option String
  | ident name => some name
  | temp _ => none

mutual

@[simp] def Expr.leaves : Expr → List Leaf
  | .placeholder | .nil | .bool _ | .number _ | .string _ => []
  | .ident name => [.ident name]
  | .temp id => [.temp id]
  | .binary _ a b | .index a b => a.leaves ++ b.leaves
  | .unary _ a | .paren a | .property a _ | .pack a => a.leaves
  | .call f xs => f.leaves ++ Expr.leavesList xs
  | .method r _ xs => r.leaves ++ Expr.leavesList xs
  | .table fs => Field.leavesList fs
termination_by structural e => e

@[simp] def Expr.leavesList : List Expr → List Leaf
  | [] => []
  | e :: es => e.leaves ++ Expr.leavesList es
termination_by structural es => es

@[simp] def Field.leaves : Field → List Leaf
  | .positional e | .named _ e => e.leaves
termination_by structural f => f

@[simp] def Field.leavesList : List Field → List Leaf
  | [] => []
  | f :: fs => f.leaves ++ Field.leavesList fs
termination_by structural fs => fs

end

@[simp] def Binding.leaves : Binding → List Leaf
  | name x => [.ident x]
  | temp id => [.temp id]
  | discard => []

mutual

@[simp] def Stmt.leaves : Stmt → List Leaf
  | .call e => e.leaves
  | .assign t v | .compound _ t v => t.leaves ++ v.leaves
  | .declare b none => b.leaves
  | .declare b (some v) => v.leaves ++ b.leaves
  | .ifThen c body => c.leaves ++ Stmt.leavesAll body
termination_by structural s => s

@[simp] def Stmt.leavesAll : List Stmt → List Leaf
  | [] => []
  | s :: ss => s.leaves ++ Stmt.leavesAll ss
termination_by structural ss => ss

end

/-- The identifiers of an expression. -/
def Expr.names (e : Expr) : List String := e.leaves.filterMap Leaf.name?

/-- The identifiers of a list of statements. -/
def Stmt.namesAll (ss : List Stmt) : List String := (leavesAll ss).filterMap Leaf.name?

/-- Every temporary in the expression is among those given. -/
def Expr.ReadsIn (e : Expr) (V : List Nat) : Prop := ∀ i, .temp i ∈ e.leaves → i ∈ V

/-! ## Lemmas -/

theorem Expr.leavesList_eq_flatMap (es : List Expr) : leavesList es = es.flatMap leaves := by
  induction es with
  | nil => rfl
  | cons e es ih => simp [ih]

theorem Field.leavesList_eq_flatMap (fs : List Field) : leavesList fs = fs.flatMap leaves := by
  induction fs with
  | nil => rfl
  | cons f fs ih => simp [ih]

theorem Field.leavesList_positional (es : List Expr) :
    leavesList (es.map .positional) = Expr.leavesList es := by
  induction es with
  | nil => rfl
  | cons e es ih => simp [ih]

theorem Field.leavesList_named (names : List String) (es : List Expr)
    (h : names.length = es.length) :
    leavesList (List.zipWith .named names es) = Expr.leavesList es := by
  induction es generalizing names with
  | nil =>
    obtain rfl := List.length_eq_zero_iff.1 h
    rfl
  | cons e es ih =>
    obtain ⟨name, names, rfl⟩ := List.exists_cons_of_length_eq_add_one h
    simp [ih names (by simpa using h)]

@[simp] theorem Stmt.leavesAll_append (ss tt : List Stmt) :
    leavesAll (ss ++ tt) = leavesAll ss ++ leavesAll tt := by
  induction ss with
  | nil => rfl
  | cons s ss ih => simp [ih]

/-- A stable expression reads a temporary or nothing. -/
theorem Expr.names_of_isStable {e : Expr} (h : e.isStable) : e.names = [] := by
  fun_induction isStable e
  next inner ih => simpa [names, leaves] using ih h
  next => rfl
  next => rfl
  next e _ _ _ => cases e <;> simp_all [isPrimitive, names, leaves]

namespace Expr

variable {V W : List Nat}

theorem ReadsIn.mono {e : Expr} (h : e.ReadsIn V) (hVW : ∀ i ∈ V, i ∈ W) : e.ReadsIn W :=
  fun i hi => hVW i (h i hi)

theorem readsIn_of_no_leaves {e : Expr} (h : e.leaves = []) : e.ReadsIn V := by
  simp [ReadsIn, h]

@[simp] theorem readsIn_placeholder : placeholder.ReadsIn V := readsIn_of_no_leaves rfl
@[simp] theorem readsIn_nil : nil.ReadsIn V := readsIn_of_no_leaves rfl
@[simp] theorem readsIn_bool (b : Bool) : (bool b).ReadsIn V := readsIn_of_no_leaves rfl
@[simp] theorem readsIn_number (n : Number) : (number n).ReadsIn V := readsIn_of_no_leaves rfl
@[simp] theorem readsIn_string (s : String) : (string s).ReadsIn V := readsIn_of_no_leaves rfl

@[simp] theorem readsIn_ident (name : String) : (ident name).ReadsIn V := by
  simp [ReadsIn]

@[simp] theorem readsIn_temp {id : Nat} : (temp id).ReadsIn V ↔ id ∈ V := by
  simp [ReadsIn]

@[simp] theorem readsIn_binary {op : BinaryOp} {a b : Expr} :
    (binary op a b).ReadsIn V ↔ a.ReadsIn V ∧ b.ReadsIn V := by
  simp [ReadsIn, or_imp, forall_and]

@[simp] theorem readsIn_arithmetic {op : ArithmeticOp} {a b : Expr} :
    (arithmetic op a b).ReadsIn V ↔ a.ReadsIn V ∧ b.ReadsIn V := readsIn_binary

@[simp] theorem readsIn_index {a b : Expr} :
    (index a b).ReadsIn V ↔ a.ReadsIn V ∧ b.ReadsIn V := by
  simp [ReadsIn, or_imp, forall_and]

@[simp] theorem readsIn_unary {op : UnaryOp} {a : Expr} :
    (unary op a).ReadsIn V ↔ a.ReadsIn V := by
  simp [ReadsIn]

@[simp] theorem readsIn_paren {a : Expr} : (paren a).ReadsIn V ↔ a.ReadsIn V := by
  simp [ReadsIn]

@[simp] theorem readsIn_property {a : Expr} {name : String} :
    (property a name).ReadsIn V ↔ a.ReadsIn V := by
  simp [ReadsIn]

@[simp] theorem readsIn_pack {a : Expr} : (pack a).ReadsIn V ↔ a.ReadsIn V := by
  simp [ReadsIn]

theorem mem_leavesList {l : Leaf} {es : List Expr} :
    l ∈ leavesList es ↔ ∃ e ∈ es, l ∈ e.leaves := by
  simp [leavesList_eq_flatMap]

@[simp] theorem readsIn_call {f : Expr} {xs : List Expr} :
    (call f xs).ReadsIn V ↔ f.ReadsIn V ∧ ∀ x ∈ xs, x.ReadsIn V := by
  simp only [ReadsIn, leaves, List.mem_append, mem_leavesList]
  grind

@[simp] theorem readsIn_method {r : Expr} {name : String} {xs : List Expr} :
    (method r name xs).ReadsIn V ↔ r.ReadsIn V ∧ ∀ x ∈ xs, x.ReadsIn V := by
  simp only [ReadsIn, leaves, List.mem_append, mem_leavesList]
  grind

theorem readsIn_positional {es : List Expr} :
    (table (es.map .positional)).ReadsIn V ↔ ∀ e ∈ es, e.ReadsIn V := by
  simp only [ReadsIn, leaves, Field.leavesList_positional, mem_leavesList]
  grind

theorem readsIn_named {names : List String} {es : List Expr} (h : names.length = es.length) :
    (table (List.zipWith .named names es)).ReadsIn V ↔ ∀ e ∈ es, e.ReadsIn V := by
  simp only [ReadsIn, leaves, Field.leavesList_named names es h, mem_leavesList]
  grind

end Expr

end ScriptLowering.Target
