import ScriptLowering.Target.Stmt

/-!
# Members of a global table

The members of a global table that target code names, in the order in which they
are written.  A simple expression names none.

    (property (ident table) m).members table = [m]                       (members_member)
    (call f xs).members T = f.members T ++ xs.flatMap (members T)           (members_call)
-/

namespace ScriptLowering.Target

/-! ## Algorithm -/

/-- The expression is the table itself. -/
def Expr.isTable (table : String) : Expr → Bool
  | .ident name => name == table
  | _ => false

mutual

@[simp] def Expr.members (table : String) : Expr → List String
  | .placeholder | .ident _ | .temp _ | .nil | .bool _ | .number _ | .string _ => []
  | .property a name => (if a.isTable table then [name] else []) ++ a.members table
  | .binary _ a b | .index a b => a.members table ++ b.members table
  | .unary _ a | .paren a | .pack a => a.members table
  | .call f xs => f.members table ++ Expr.membersList table xs
  | .method r _ xs => r.members table ++ Expr.membersList table xs
  | .table fs => Field.membersList table fs
termination_by structural e => e

@[simp] def Expr.membersList (table : String) : List Expr → List String
  | [] => []
  | e :: es => e.members table ++ Expr.membersList table es
termination_by structural es => es

@[simp] def Field.members (table : String) : Field → List String
  | .positional e | .named _ e => e.members table
termination_by structural f => f

@[simp] def Field.membersList (table : String) : List Field → List String
  | [] => []
  | f :: fs => f.members table ++ Field.membersList table fs
termination_by structural fs => fs

end

mutual

@[simp] def Stmt.members (table : String) : Stmt → List String
  | .call e => e.members table
  | .assign t v | .compound _ t v => t.members table ++ v.members table
  | .declare _ none => []
  | .declare _ (some v) => v.members table
  | .ifThen c body => c.members table ++ Stmt.membersAll table body
termination_by structural s => s

@[simp] def Stmt.membersAll (table : String) : List Stmt → List String
  | [] => []
  | s :: ss => s.members table ++ Stmt.membersAll table ss
termination_by structural ss => ss

end

/-! ## Lemmas -/

variable {T : String}

namespace Expr

theorem membersList_eq_flatMap (es : List Expr) : membersList T es = es.flatMap (members T) := by
  induction es with
  | nil => rfl
  | cons e es ih => simp [ih]

theorem members_member (name : String) : (property (ident T) name).members T = [name] := by
  simp [isTable]

theorem members_property_of_isTable {a : Expr} (h : a.isTable T = false) (name : String) :
    (property a name).members T = a.members T := by
  simp [h]

theorem members_call (f : Expr) (xs : List Expr) :
    (call f xs).members T = f.members T ++ xs.flatMap (members T) := by
  simp [membersList_eq_flatMap]

theorem members_method (r : Expr) (name : String) (xs : List Expr) :
    (method r name xs).members T = r.members T ++ xs.flatMap (members T) := by
  simp [membersList_eq_flatMap]

theorem members_positional (es : List Expr) :
    (table (es.map .positional)).members T = es.flatMap (members T) := by
  rw [members]
  induction es with
  | nil => rfl
  | cons e es ih => simp [ih]

theorem members_named {names : List String} {es : List Expr} (h : names.length = es.length) :
    (table (List.zipWith .named names es)).members T = es.flatMap (members T) := by
  rw [members]
  induction es generalizing names with
  | nil =>
    obtain rfl := List.length_eq_zero_iff.1 h
    rfl
  | cons e es ih =>
    obtain ⟨name, names, rfl⟩ := List.exists_cons_of_length_eq_add_one h
    simp [ih (by simpa using h)]

theorem members_of_isSimple {e : Expr} (h : e.isSimple) : e.members T = [] := by
  cases e with
  | placeholder | ident | temp | nil | bool | number | string => rfl
  | _ => cases h

end Expr

end ScriptLowering.Target
