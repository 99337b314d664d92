import ScriptLowering.Target.Stmt

/-!
# Subterms of target code

The expressions that target code is made of, in the order in which evaluation
gets to their results: the parts of an expression before the whole.

    x is a proper part of e → x is smaller than e                      (size_lt_of_mem_parts)
    x is none of es → x stands once in the subterms of x before es       (Once.subterms_append)
-/

namespace ScriptLowering.Target

/-! ## Algorithm -/

mutual

/-- The proper parts of an expression, each after its own. -/
@[simp] def Expr.parts : Expr → List Expr
  | .placeholder | .ident _ | .temp _ | .nil | .bool _ | .number _ | .string _ => []
  | .binary _ a b | .index a b => a.parts ++ a :: (b.parts ++ [b])
  | .unary _ a | .paren a | .property a _ | .pack a => a.parts ++ [a]
  | .call f xs => f.parts ++ f :: Expr.partsList xs
  | .method r _ xs => r.parts ++ r :: Expr.partsList xs
  | .table fs => Field.partsList fs
termination_by structural e => e

@[simp] def Expr.partsList : List Expr → List Expr
  | [] => []
  | e :: es => e.parts ++ e :: Expr.partsList es
termination_by structural es => es

@[simp] def Field.parts : Field → List Expr
  | .positional e | .named _ e => e.parts ++ [e]
termination_by structural f => f

@[simp] def Field.partsList : List Field → List Expr
  | [] => []
  | f :: fs => f.parts ++ Field.partsList fs
termination_by structural fs => fs

end

/-- An expression after its parts. -/
def Expr.subterms (e : Expr) : List Expr := e.parts ++ [e]

mutual

/-- The expressions of a statement that are evaluated: of a target its parts. -/
@[simp] def Stmt.subterms : Stmt → List Expr
  | .call e => e.subterms
  | .assign t v | .compound _ t v => t.parts ++ v.subterms
  | .declare _ none => []
  | .declare _ (some v) => v.subterms
  | .ifThen c body => c.subterms ++ Stmt.subtermsAll body
termination_by structural s => s

@[simp] def Stmt.subtermsAll : List Stmt → List Expr
  | [] => []
  | s :: ss => s.subterms ++ Stmt.subtermsAll ss
termination_by structural ss => ss

end

/-- The expression stands in the list in one place only. -/
def Once (x : Expr) (es : List Expr) : Prop :=
  ∃ before after, es = before ++ x :: after ∧ x ∉ before ∧ x ∉ after

/-! ## Lemmas -/

mutual

theorem Expr.size_lt_of_mem_parts {x : Expr} : ∀ e : Expr, x ∈ e.parts → sizeOf x < sizeOf e
  | .placeholder, h | .ident _, h | .temp _, h | .nil, h | .bool _, h | .number _, h
  | .string _, h => by cases h
  | .binary _ a b, h | .index a b, h => by
    have ha := Expr.size_lt_of_mem_parts (x := x) a
    have hb := Expr.size_lt_of_mem_parts (x := x) b
    simp at h ⊢
    grind
  | .unary _ a, h | .paren a, h | .property a _, h | .pack a, h => by
    have ha := Expr.size_lt_of_mem_parts (x := x) a
    simp at h ⊢
    grind
  | .call f xs, h | .method f _ xs, h => by
    have hf := Expr.size_lt_of_mem_parts (x := x) f
    have hxs := Expr.size_lt_of_mem_partsList (x := x) xs
    simp at h ⊢
    grind
  | .table fs, h => by
    have hfs := Field.size_lt_of_mem_partsList fs h
    simp only [Expr.table.sizeOf_spec]
    omega
termination_by structural e => e

theorem Expr.size_lt_of_mem_partsList {x : Expr} :
    ∀ es : List Expr, x ∈ Expr.partsList es → sizeOf x < sizeOf es
  | [], h => by cases h
  | e :: es, h => by
    have he := Expr.size_lt_of_mem_parts (x := x) e
    have hes := Expr.size_lt_of_mem_partsList (x := x) es
    simp at h ⊢
    grind
termination_by structural es => es

theorem Field.size_lt_of_mem_parts {x : Expr} : ∀ f : Field, x ∈ f.parts → sizeOf x < sizeOf f
  | .positional e, h | .named _ e, h => by
    have he := Expr.size_lt_of_mem_parts (x := x) e
    simp at h ⊢
    grind
termination_by structural f => f

theorem Field.size_lt_of_mem_partsList {x : Expr} :
    ∀ fs : List Field, x ∈ Field.partsList fs → sizeOf x < sizeOf fs
  | [], h => by cases h
  | f :: fs, h => by
    have hf := Field.size_lt_of_mem_parts (x := x) f
    have hfs := Field.size_lt_of_mem_partsList (x := x) fs
    simp at h ⊢
    grind
termination_by structural fs => fs

end

/-- An expression is no proper part of itself. -/
theorem Expr.not_mem_parts_self (e : Expr) : e ∉ e.parts := fun h =>
  Nat.lt_irrefl _ (size_lt_of_mem_parts e h)

/-- Among its subterms an expression stands once, and in no list that lacks it. -/
theorem Once.subterms_append {x : Expr} {es : List Expr} (h : x ∉ es) :
    Once x (x.subterms ++ es) :=
  ⟨x.parts, es, by simp [Expr.subterms], x.not_mem_parts_self, h⟩

end ScriptLowering.Target
