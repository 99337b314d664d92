import ScriptLowering.Proofs.Target.Leaves

/-!
# Mentions of given names

The identifiers of target code that are among given names, in the order in which
the code is evaluated.

    e.isStable → e.mentions N = []                                    (mentions_of_isStable)
    (call f xs).mentions N = f.mentions N ++ xs.flatMap (mentions N)    (mentions_call)
-/

namespace ScriptLowering.Target

variable {N : List String}

/-! ## Algorithm -/

/-- The identifiers among some leaves that have a name of `N`. -/
def mentionsIn (N : List String) (ls : List Leaf) : List String :=
  (ls.filterMap Leaf.name?).filter (· ∈ N)

def Expr.mentions (N : List String) (e : Expr) : List String := mentionsIn N e.leaves

def Stmt.mentions (N : List String) (s : Stmt) : List String := mentionsIn N s.leaves

def Stmt.mentionsAll (N : List String) (ss : List Stmt) : List String := mentionsIn N (leavesAll ss)

/-! ## Lemmas -/

@[simp] theorem mentionsIn_nil : mentionsIn N [] = [] := rfl

@[simp] theorem mentionsIn_append (l m : List Leaf) :
    mentionsIn N (l ++ m) = mentionsIn N l ++ mentionsIn N m := by
  simp [mentionsIn]

@[simp] theorem mentionsIn_temp (id : Nat) : mentionsIn N [.temp id] = [] := rfl

theorem mentionsIn_leavesList (es : List Expr) :
    mentionsIn N (Expr.leavesList es) = es.flatMap (Expr.mentions N) := by
  induction es with
  | nil => rfl
  | cons e es ih => simp [Expr.mentions, ih]

namespace Expr

theorem mentions_ident (x : String) : (ident x).mentions N = if x ∈ N then [x] else [] := by
  simp [mentions, mentionsIn, List.filter_cons]

theorem mentions_ident_of_not_mem {x : String} (h : x ∉ N) : (ident x).mentions N = [] := by
  simp [mentions_ident, h]

@[simp] theorem mentions_placeholder : placeholder.mentions N = [] := rfl
@[simp] theorem mentions_temp (id : Nat) : (temp id).mentions N = [] := rfl
@[simp] theorem mentions_nil : nil.mentions N = [] := rfl
@[simp] theorem mentions_bool (b : Bool) : (bool b).mentions N = [] := rfl
@[simp] theorem mentions_number (n : Number) : (number n).mentions N = [] := rfl
@[simp] theorem mentions_string (s : String) : (string s).mentions N = [] := rfl

@[simp] theorem mentions_binary (op : BinaryOp) (a b : Expr) :
    (binary op a b).mentions N = a.mentions N ++ b.mentions N := by
  simp [mentions]

@[simp] theorem mentions_arithmetic (op : ArithmeticOp) (a b : Expr) :
    (arithmetic op a b).mentions N = a.mentions N ++ b.mentions N := mentions_binary ..

@[simp] theorem mentions_index (a b : Expr) :
    (index a b).mentions N = a.mentions N ++ b.mentions N := by
  simp [mentions]

@[simp] theorem mentions_unary (op : UnaryOp) (a : Expr) :
    (unary op a).mentions N = a.mentions N := rfl

@[simp] theorem mentions_paren (a : Expr) : (paren a).mentions N = a.mentions N := rfl

@[simp] theorem mentions_property (a : Expr) (name : String) :
    (property a name).mentions N = a.mentions N := rfl

@[simp] theorem mentions_pack (a : Expr) : (pack a).mentions N = a.mentions N := rfl

@[simp] theorem mentions_call (f : Expr) (xs : List Expr) :
    (call f xs).mentions N = f.mentions N ++ xs.flatMap (mentions N) := by
  rw [← mentionsIn_leavesList]
  simp [mentions]

@[simp] theorem mentions_method (r : Expr) (name : String) (xs : List Expr) :
    (method r name xs).mentions N = r.mentions N ++ xs.flatMap (mentions N) := by
  rw [← mentionsIn_leavesList]
  simp [mentions]

theorem mentions_positional (es : List Expr) :
    (table (es.map .positional)).mentions N = es.flatMap (mentions N) := by
  rw [← mentionsIn_leavesList, mentions, leaves, Field.leavesList_positional]

theorem mentions_named {names : List String} {es : List Expr} (h : names.length = es.length) :
    (table (List.zipWith .named names es)).mentions N = es.flatMap (mentions N) := by
  rw [← mentionsIn_leavesList, mentions, leaves, Field.leavesList_named names es h]

theorem mentions_of_isStable {e : Expr} (h : e.isStable) : e.mentions N = [] := by
  have := names_of_isStable h
  rw [names] at this
  simp [mentions, mentionsIn, this]

end Expr

namespace Stmt

@[simp] theorem mentionsAll_nil : mentionsAll N [] = [] := rfl

@[simp] theorem mentionsAll_append (ss tt : List Stmt) :
    mentionsAll N (ss ++ tt) = mentionsAll N ss ++ mentionsAll N tt := by
  simp [mentionsAll]

@[simp] theorem mentionsAll_cons (s : Stmt) (ss : List Stmt) :
    mentionsAll N (s :: ss) = s.mentions N ++ mentionsAll N ss := by
  simp [mentionsAll, mentions]

@[simp] theorem mentions_call (e : Expr) : (call e).mentions N = e.mentions N := rfl

@[simp] theorem mentions_assign (t v : Expr) :
    (assign t v).mentions N = t.mentions N ++ v.mentions N := by
  simp [mentions, Expr.mentions]

@[simp] theorem mentions_compound (op : ArithmeticOp) (t v : Expr) :
    (compound op t v).mentions N = t.mentions N ++ v.mentions N := by
  simp [mentions, Expr.mentions]

@[simp] theorem mentions_declareTemp (id : Nat) (v : Expr) :
    (declareTemp id v).mentions N = v.mentions N := by
  simp [mentions, declareTemp, Expr.mentions]

@[simp] theorem mentions_discard (v : Expr) :
    (declare .discard (some v)).mentions N = v.mentions N := by
  simp [mentions, Expr.mentions]

@[simp] theorem mentions_ifThen (c : Expr) (body : List Stmt) :
    (ifThen c body).mentions N = c.mentions N ++ mentionsAll N body := by
  simp [mentions, mentionsAll, Expr.mentions]

/-- Binding a name that is not among them adds nothing. -/
theorem mentions_declareName {x : String} (h : x ∉ N) (v : Option Expr) :
    (declare (.name x) v).mentions N = v.toList.flatMap (Expr.mentions N) := by
  have hx : mentionsIn N [.ident x] = [] := by simp [mentionsIn, h]
  cases v <;> simp [mentions, Expr.mentions, hx]

end Stmt

end ScriptLowering.Target
