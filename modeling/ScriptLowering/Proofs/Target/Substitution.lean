import ScriptLowering.Proofs.Target.Leaves

/-!
# Substitution for temporaries

Replacing the temporaries of an expression by expressions.  Renumbering is the
case in which each is replaced by a temporary again; then statements, which also
declare temporaries, can be renumbered too.

    no temporary of e is replaced → e.subst σ = e                         (subst_eq_self)
    renumbering keeps what can be said of an expression without running it  (isStable_shift, …)
-/

namespace ScriptLowering.Target

/-! ## Algorithm -/

mutual

def Expr.subst (σ : Nat → Expr) : Expr → Expr
  | .temp id => σ id
  | .placeholder => .placeholder
  | .ident name => .ident name
  | .nil => .nil
  | .bool b => .bool b
  | .number n => .number n
  | .string s => .string s
  | .binary op a b => .binary op (a.subst σ) (b.subst σ)
  | .unary op a => .unary op (a.subst σ)
  | .paren a => .paren (a.subst σ)
  | .property a name => .property (a.subst σ) name
  | .index a b => .index (a.subst σ) (b.subst σ)
  | .call f xs => .call (f.subst σ) (Expr.substList σ xs)
  | .method r name xs => .method (r.subst σ) name (Expr.substList σ xs)
  | .table fs => .table (Field.substList σ fs)
  | .pack a => .pack (a.subst σ)
termination_by structural e => e

def Expr.substList (σ : Nat → Expr) : List Expr → List Expr
  | [] => []
  | e :: es => e.subst σ :: Expr.substList σ es
termination_by structural es => es

def Field.subst (σ : Nat → Expr) : Field → Field
  | .positional e => .positional (e.subst σ)
  | .named name e => .named name (e.subst σ)
termination_by structural f => f

def Field.substList (σ : Nat → Expr) : List Field → List Field
  | [] => []
  | f :: fs => f.subst σ :: Field.substList σ fs
termination_by structural fs => fs

end

/-- Every temporary counted up. -/
def Expr.shift (k : Nat) (e : Expr) : Expr := e.subst fun i => .temp (i + k)

def Binding.shift (k : Nat) : Binding → Binding
  | temp id => temp (id + k)
  | name x => name x
  | discard => discard

mutual

def Stmt.shift (k : Nat) : Stmt → Stmt
  | .call e => .call (e.shift k)
  | .assign t v => .assign (t.shift k) (v.shift k)
  | .compound op t v => .compound op (t.shift k) (v.shift k)
  | .declare b v => .declare (b.shift k) (v.map (Expr.shift k))
  | .ifThen c body => .ifThen (c.shift k) (Stmt.shiftAll k body)
termination_by structural s => s

def Stmt.shiftAll (k : Nat) : List Stmt → List Stmt
  | [] => []
  | s :: ss => s.shift k :: Stmt.shiftAll k ss
termination_by structural ss => ss

end

/-! ## Lemmas -/

theorem Expr.substList_eq_map (σ : Nat → Expr) (es : List Expr) :
    substList σ es = es.map (subst σ) := by
  induction es with
  | nil => rfl
  | cons e es ih => rw [substList, ih, List.map_cons]

theorem Field.substList_eq_map (σ : Nat → Expr) (fs : List Field) :
    substList σ fs = fs.map (subst σ) := by
  induction fs with
  | nil => rfl
  | cons f fs ih => rw [substList, ih, List.map_cons]

@[simp] theorem Stmt.shiftAll_eq_map (k : Nat) (ss : List Stmt) :
    shiftAll k ss = ss.map (shift k) := by
  induction ss with
  | nil => rfl
  | cons s ss ih => rw [shiftAll, ih, List.map_cons]

mutual

/-- Only the temporaries that occur matter. -/
theorem Expr.subst_eq_self {σ : Nat → Expr} :
    ∀ e : Expr, (∀ i, .temp i ∈ e.leaves → σ i = .temp i) → e.subst σ = e
  | .temp id, h => h id (List.mem_singleton.2 rfl)
  | .placeholder, _ | .ident _, _ | .nil, _ | .bool _, _ | .number _, _ | .string _, _ => rfl
  | .binary _ a b, h | .index a b, h => by
    simp only [Expr.subst, Expr.subst_eq_self a fun i hi => h i (List.mem_append_left _ hi),
      Expr.subst_eq_self b fun i hi => h i (List.mem_append_right _ hi)]
  | .unary _ a, h | .paren a, h | .property a _, h | .pack a, h => by
    simp only [Expr.subst, Expr.subst_eq_self a h]
  | .call f xs, h | .method f _ xs, h => by
    simp only [Expr.subst, Expr.subst_eq_self f fun i hi => h i (List.mem_append_left _ hi),
      Expr.substList_eq_self xs fun i hi => h i (List.mem_append_right _ hi)]
  | .table fs, h => by simp only [Expr.subst, Field.substList_eq_self fs h]
termination_by structural e => e

theorem Expr.substList_eq_self {σ : Nat → Expr} :
    ∀ es : List Expr, (∀ i, .temp i ∈ Expr.leavesList es → σ i = .temp i) →
      Expr.substList σ es = es
  | [], _ => rfl
  | e :: es, h => by
    simp only [Expr.substList, Expr.subst_eq_self e fun i hi => h i (List.mem_append_left _ hi),
      Expr.substList_eq_self es fun i hi => h i (List.mem_append_right _ hi)]
termination_by structural es => es

theorem Field.subst_eq_self {σ : Nat → Expr} :
    ∀ f : Field, (∀ i, .temp i ∈ f.leaves → σ i = .temp i) → f.subst σ = f
  | .positional e, h | .named _ e, h => by simp only [Field.subst, Expr.subst_eq_self e h]
termination_by structural f => f

theorem Field.substList_eq_self {σ : Nat → Expr} :
    ∀ fs : List Field, (∀ i, .temp i ∈ Field.leavesList fs → σ i = .temp i) →
      Field.substList σ fs = fs
  | [], _ => rfl
  | f :: fs, h => by
    simp only [Field.substList, Field.subst_eq_self f fun i hi => h i (List.mem_append_left _ hi),
      Field.substList_eq_self fs fun i hi => h i (List.mem_append_right _ hi)]
termination_by structural fs => fs

end

namespace Expr

@[simp] theorem subst_arithmetic (σ : Nat → Expr) (op : ArithmeticOp) (a b : Expr) :
    (arithmetic op a b).subst σ = arithmetic op (a.subst σ) (b.subst σ) := rfl

@[simp] theorem subst_call (σ : Nat → Expr) (f : Expr) (xs : List Expr) :
    (call f xs).subst σ = call (f.subst σ) (xs.map (subst σ)) := by
  rw [subst, substList_eq_map]

@[simp] theorem subst_method (σ : Nat → Expr) (r : Expr) (name : String) (xs : List Expr) :
    (method r name xs).subst σ = method (r.subst σ) name (xs.map (subst σ)) := by
  rw [subst, substList_eq_map]

@[simp] theorem subst_temp (e : Expr) : e.subst temp = e := subst_eq_self e fun _ _ => rfl

/-! ### Renumbering -/

section

variable (k : Nat)

@[simp] theorem shift_placeholder : placeholder.shift k = placeholder := rfl
@[simp] theorem shift_ident (name : String) : (ident name).shift k = ident name := rfl
@[simp] theorem shift_temp (id : Nat) : (temp id).shift k = temp (id + k) := rfl
@[simp] theorem shift_nil : nil.shift k = nil := rfl
@[simp] theorem shift_bool (b : Bool) : (bool b).shift k = bool b := rfl
@[simp] theorem shift_number (n : Number) : (number n).shift k = number n := rfl
@[simp] theorem shift_string (s : String) : (string s).shift k = string s := rfl

@[simp] theorem shift_binary (op : BinaryOp) (a b : Expr) :
    (binary op a b).shift k = binary op (a.shift k) (b.shift k) := rfl

@[simp] theorem shift_arithmetic (op : ArithmeticOp) (a b : Expr) :
    (arithmetic op a b).shift k = arithmetic op (a.shift k) (b.shift k) := rfl

@[simp] theorem shift_unary (op : UnaryOp) (a : Expr) :
    (unary op a).shift k = unary op (a.shift k) := rfl

@[simp] theorem shift_paren (a : Expr) : (paren a).shift k = paren (a.shift k) := rfl

@[simp] theorem shift_property (a : Expr) (name : String) :
    (property a name).shift k = property (a.shift k) name := rfl

@[simp] theorem shift_index (a b : Expr) :
    (index a b).shift k = index (a.shift k) (b.shift k) := rfl

@[simp] theorem shift_pack (a : Expr) : (pack a).shift k = pack (a.shift k) := rfl

@[simp] theorem shift_call (f : Expr) (xs : List Expr) :
    (call f xs).shift k = call (f.shift k) (xs.map (shift k)) := subst_call ..

@[simp] theorem shift_method (r : Expr) (name : String) (xs : List Expr) :
    (method r name xs).shift k = method (r.shift k) name (xs.map (shift k)) := subst_method ..

theorem shift_positional (es : List Expr) :
    (table (es.map .positional)).shift k = table ((es.map (shift k)).map .positional) := by
  simp only [shift, subst, Field.substList_eq_map, List.map_map]
  rfl

theorem shift_named (names : List String) (es : List Expr) :
    (table (List.zipWith .named names es)).shift k =
      table (List.zipWith .named names (es.map (shift k))) := by
  simp only [shift, subst, Field.substList_eq_map, List.map_zipWith, List.zipWith_map_right]
  rfl

@[simp] theorem isIdentifier_shift (e : Expr) : (e.shift k).isIdentifier = e.isIdentifier := by
  cases e <;> rfl

@[simp] theorem isPrimitive_shift (e : Expr) : (e.shift k).isPrimitive = e.isPrimitive := by
  cases e <;> rfl

@[simp] theorem isSimple_shift (e : Expr) : (e.shift k).isSimple = e.isSimple := by
  simp only [isSimple, isIdentifier_shift, isPrimitive_shift]

@[simp] theorem isCall_shift (e : Expr) : (e.shift k).isCall = e.isCall := by cases e <;> rfl

@[simp] theorem isBinary_shift (e : Expr) : (e.shift k).isBinary = e.isBinary := by
  cases e <;> rfl

@[simp] theorem isStable_shift (e : Expr) : (e.shift k).isStable = e.isStable := by
  fun_induction isStable e with
  | case1 inner ih => exact ih
  | case2 | case3 => rfl
  | case4 e hparen htemp hhole =>
    cases e with
    | paren inner => exact (hparen inner rfl).elim
    | temp id => exact (htemp id rfl).elim
    | placeholder => exact (hhole rfl).elim
    | _ => rfl

end

end Expr

@[simp] theorem Stmt.shift_declareTemp (k id : Nat) (v : Expr) :
    (declareTemp id v).shift k = declareTemp (id + k) (v.shift k) := rfl

end ScriptLowering.Target
