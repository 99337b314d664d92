import ScriptLowering.Target.Stmt

/-!
# Formed target code

The trees of the target have any expression where its grammar has a narrower
class: a call statement and a pack take a call, an assignment writes to a
location.  Formed code keeps to these classes at every depth.  What counts as a
location is a parameter.

    FormedAll (ss ++ tt) ↔ FormedAll ss ∧ FormedAll tt                  (formedAll_append)
    the fields of a table formed ↔ their values formed       (formed_positional, formed_named)
-/

namespace ScriptLowering.Target

/-! ## Algorithm -/

/-- An identifier, a temporary or a member. -/
def Expr.isLocation : Expr → Bool
  | .ident _ | .temp _ | .property _ _ | .index _ _ => true
  | _ => false

/-- The list is not empty and its last statement assigns to a temporary. -/
def Stmt.EndsInTemp (body : List Stmt) : Prop :=
  ∃ before id v, body = before ++ [.assign (.temp id) v]

mutual

/-- Each pack in the expression wraps a call. -/
@[simp] def Expr.Formed : Expr → Prop
  | .placeholder | .ident _ | .temp _ | .nil | .bool _ | .number _ | .string _ => True
  | .binary _ a b | .index a b => a.Formed ∧ b.Formed
  | .unary _ a | .paren a | .property a _ => a.Formed
  | .pack a => a.isCall ∧ a.Formed
  | .call f xs => f.Formed ∧ Expr.FormedList xs
  | .method r _ xs => r.Formed ∧ Expr.FormedList xs
  | .table fs => Field.FormedList fs
termination_by structural e => e

@[simp] def Expr.FormedList : List Expr → Prop
  | [] => True
  | e :: es => e.Formed ∧ Expr.FormedList es
termination_by structural es => es

@[simp] def Field.Formed : Field → Prop
  | .positional e | .named _ e => e.Formed
termination_by structural f => f

@[simp] def Field.FormedList : List Field → Prop
  | [] => True
  | f :: fs => f.Formed ∧ Field.FormedList fs
termination_by structural fs => fs

end

mutual

@[simp] def Stmt.Formed (writable : Expr → Prop) : Stmt → Prop
  | .call e => e.isCall ∧ e.Formed
  | .assign t v | .compound _ t v => writable t ∧ t.Formed ∧ v.Formed
  | .declare _ none => True
  | .declare .discard (some v) => (v.isIdentifier = false ∧ v.isCall = false) ∧ v.Formed
  | .declare (.name _) (some v) | .declare (.temp _) (some v) => v.Formed
  | .ifThen c body => c.Formed ∧ Stmt.EndsInTemp body ∧ Stmt.FormedAll writable body
termination_by structural s => s

@[simp] def Stmt.FormedAll (writable : Expr → Prop) : List Stmt → Prop
  | [] => True
  | s :: ss => s.Formed writable ∧ Stmt.FormedAll writable ss
termination_by structural ss => ss

end

/-! ## Lemmas -/

namespace Expr

theorem formedList_iff (es : List Expr) : FormedList es ↔ ∀ e ∈ es, e.Formed := by
  induction es with
  | nil => simp
  | cons e es ih => simp [ih]

theorem formed_positional (es : List Expr) :
    (table (es.map .positional)).Formed ↔ FormedList es := by
  induction es with
  | nil => simp
  | cons e es ih => simpa using fun _ => ih

/-- A table has fields for no more names than there are values. -/
theorem formed_named (names : List String) {es : List Expr} (h : FormedList es) :
    (table (List.zipWith .named names es)).Formed := by
  rw [formedList_iff] at h
  rw [Formed]
  induction es generalizing names with
  | nil => simp
  | cons e es ih =>
    obtain ⟨he, hes⟩ := List.forall_mem_cons.1 h
    cases names with
    | nil => trivial
    | cons name names => exact ⟨he, ih names hes⟩

end Expr

namespace Stmt

variable {writable : Expr → Prop}

theorem formedAll_append (ss tt : List Stmt) :
    FormedAll writable (ss ++ tt) ↔ FormedAll writable ss ∧ FormedAll writable tt := by
  induction ss with
  | nil => simp
  | cons s ss ih => simp [ih, and_assoc]

theorem endsInTemp_append (before : List Stmt) (id : Nat) (v : Expr) :
    EndsInTemp (before ++ [.assign (.temp id) v]) := ⟨before, id, v, rfl⟩

end Stmt

end ScriptLowering.Target
