import ScriptLowering.Proofs.Source.Calls

/-!
# Visits

The nodes of a file in the order in which lowering comes to them, each with the
role it plays there: a call before its callee and arguments, other parts left to
right, an assigned value before the pattern it goes to.  Lowering does not come
to the operands of a loose comparison.

    e.inside = the visits of the parts of e, none if e is a loose comparison     (inside_eq)
    w ∈ v.visits ↔ w is v or reached from it through nodes that are not loose      (mem_visits)
-/

namespace ScriptLowering.Source

/-! ## Algorithm -/

/-- What a node is to the node or the statement that it is a part of. -/
inductive Role where
  /-- An expression statement. -/
  | statement
  /-- The callee of the call with this span. -/
  | callee (call : Span)
  | argument (isLast : Bool)
  | part
  deriving DecidableEq

/-- A node in its role. -/
structure Visit where
  role : Role
  node : Expr

namespace Expr

def isSpread : Expr → Bool
  | spread _ _ => true
  | _ => false

/-- The arguments of a call. -/
def asArguments : List Expr → List Visit
  | [] => []
  | e :: rest => ⟨.argument rest.isEmpty, e⟩ :: asArguments rest

/-- The parts of a node in the order in which lowering comes to them. -/
def visitedParts : Expr → List Visit
  | call info f args => ⟨.callee info.span, f⟩ :: asArguments args
  | binary _ op l r =>
    if op.isAssignment && l.isPattern then [⟨.part, r⟩, ⟨.part, l⟩] else [⟨.part, l⟩, ⟨.part, r⟩]
  | e => e.children.map (⟨.part, ·⟩)

mutual

/-- All that is visited inside a node. -/
def inside : Expr → List Visit
  | ident _ _ | this _ | super _ | number _ _ | string _ _ | bool _ _ | undefined _ | error _ => []
  | paren _ e | spread _ e | property _ e _ | prefixed _ _ e | postfixed _ _ e =>
    ⟨.part, e⟩ :: e.inside
  | element _ a b => ⟨.part, a⟩ :: a.inside ++ ⟨.part, b⟩ :: b.inside
  | binary _ (.loose _) _ _ => []
  | binary _ op l r =>
    if op.isAssignment && l.isPattern then ⟨.part, r⟩ :: r.inside ++ ⟨.part, l⟩ :: l.inside
    else ⟨.part, l⟩ :: l.inside ++ ⟨.part, r⟩ :: r.inside
  | call info f args => ⟨.callee info.span, f⟩ :: f.inside ++ insideArguments args
  | array _ es => insideList es
  | object _ ps => insideProperties ps
termination_by structural e => e

def insideList : List Expr → List Visit
  | [] => []
  | e :: es => ⟨.part, e⟩ :: e.inside ++ insideList es
termination_by structural es => es

def insideArguments : List Expr → List Visit
  | [] => []
  | e :: rest => ⟨.argument rest.isEmpty, e⟩ :: e.inside ++ insideArguments rest
termination_by structural es => es

def insideProperties : List (String × Expr) → List Visit
  | [] => []
  | (_, e) :: ps => ⟨.part, e⟩ :: e.inside ++ insideProperties ps
termination_by structural ps => ps

end

end Expr

/-- A node and all that is visited inside it. -/
def Visit.visits (v : Visit) : List Visit := v :: v.node.inside

/-- What a statement begins with, if it has an expression. -/
def Stmt.root? (s : Stmt Expr) : Option Visit :=
  match s.kind with
  | .expr e => some ⟨.statement, e⟩
  | .letDecl _ init => init.map (⟨.part, ·⟩)
  | .importDecl _ | .exportDecl _ => none

def Stmt.visits (s : Stmt Expr) : List Visit := s.root?.toList.flatMap Visit.visits

/-- All that is visited in a file. -/
def File.visits (f : File) : List Visit := f.body.flatMap Stmt.visits

/-- The node is the first one, or a descendant of it that is in no operand of a
loose comparison. -/
inductive Visit.Reaches (v : Visit) : Visit → Prop
  | here : Reaches v v
  | step {w x : Visit} (h : Reaches v w) (hw : w.node.isLoose = false)
      (hx : x ∈ w.node.visitedParts) : Reaches v x

/-- The node is live: reached from the expression of a statement. -/
def File.Live (f : File) (v : Visit) : Prop := ∃ s ∈ f.body, ∃ r ∈ s.root?, r.Reaches v

/-! ## Lemmas -/

namespace Expr

theorem insideList_eq_flatMap (es : List Expr) :
    insideList es = (es.map (⟨.part, ·⟩)).flatMap Visit.visits := by
  induction es with
  | nil => rfl
  | cons e es ih => simp [insideList, Visit.visits, ih]

theorem insideArguments_eq_flatMap (es : List Expr) :
    insideArguments es = (asArguments es).flatMap Visit.visits := by
  induction es with
  | nil => rfl
  | cons e es ih => simp [insideArguments, asArguments, Visit.visits, ih]

theorem insideProperties_eq_flatMap (ps : List (String × Expr)) :
    insideProperties ps = (ps.map fun p => (⟨.part, p.2⟩ : Visit)).flatMap Visit.visits := by
  induction ps with
  | nil => rfl
  | cons p ps ih => simp [insideProperties, Visit.visits, ih]

theorem inside_loose {e : Expr} (h : e.isLoose) : e.inside = [] := by
  cases e with
  | binary _ op _ _ => cases op <;> first | rfl | cases h
  | _ => cases h

theorem inside_binary (info : NodeInfo) {op : BinaryOp} (l r : Expr)
    (h : (binary info op l r).isLoose = false) :
    (binary info op l r).inside =
      if op.isAssignment && l.isPattern then ⟨.part, r⟩ :: r.inside ++ ⟨.part, l⟩ :: l.inside
      else ⟨.part, l⟩ :: l.inside ++ ⟨.part, r⟩ :: r.inside := by
  cases op with
  | loose => cases h
  | _ => rfl

theorem inside_eq {e : Expr} (h : e.isLoose = false) :
    e.inside = e.visitedParts.flatMap Visit.visits := by
  cases e with
  | binary info op l r =>
    rw [inside_binary info l r h, visitedParts]
    split <;> simp [Visit.visits]
  | call info f args => simp [inside, visitedParts, Visit.visits, insideArguments_eq_flatMap]
  | array info es => exact insideList_eq_flatMap es
  | object info ps =>
    show insideProperties ps = (((ps.map (·.2)).map (Visit.mk .part)).flatMap Visit.visits)
    rw [insideProperties_eq_flatMap, List.map_map]
    rfl
  | _ => simp [inside, visitedParts, children, Visit.visits]

theorem node_mem_of_asArguments {es : List Expr} {v : Visit} (h : v ∈ asArguments es) :
    v.node ∈ es := by
  induction es with
  | nil => cases h
  | cons e es ih =>
    rcases List.mem_cons.1 h with rfl | h
    · exact List.mem_cons_self
    · exact List.mem_cons_of_mem _ (ih h)

theorem node_mem_children {e : Expr} {v : Visit} (h : v ∈ e.visitedParts) :
    v.node ∈ e.children := by
  cases e with
  | call info f args =>
    rcases List.mem_cons.1 h with rfl | h
    · exact List.mem_cons_self
    · exact List.mem_cons_of_mem _ (node_mem_of_asArguments h)
  | binary info op l r =>
    rw [visitedParts] at h
    split at h <;> simp only [List.mem_cons, List.not_mem_nil, or_false] at h <;>
      rcases h with rfl | rfl <;> simp [children]
  | _ =>
    obtain ⟨c, hc, rfl⟩ := List.mem_map.1 h
    exact hc

end Expr

namespace Visit

theorem mem_visits_cons {v w x : Visit} (hv : v.node.isLoose = false)
    (hw : w ∈ v.node.visitedParts) (hx : x ∈ w.visits) : x ∈ v.visits := by
  refine List.mem_cons_of_mem _ ?_
  rw [Expr.inside_eq hv]
  exact List.mem_flatMap.2 ⟨w, hw, hx⟩

/-- What is visited is the node itself or is visited in one of its parts. -/
theorem mem_visits_cases {v x : Visit} (h : x ∈ v.visits) :
    x = v ∨ v.node.isLoose = false ∧ ∃ w ∈ v.node.visitedParts, x ∈ w.visits := by
  rcases List.mem_cons.1 h with rfl | h
  · exact .inl rfl
  cases hv : v.node.isLoose with
  | true =>
    rw [Expr.inside_loose hv] at h
    cases h
  | false =>
    rw [Expr.inside_eq hv] at h
    exact .inr ⟨rfl, List.mem_flatMap.1 h⟩

theorem Reaches.cons {v w x : Visit} (hv : v.node.isLoose = false)
    (hw : w ∈ v.node.visitedParts) (h : w.Reaches x) : v.Reaches x := by
  induction h with
  | here => exact .step .here hv hw
  | step _ hy hz ih => exact .step ih hy hz

/-- Induction from the parts of a node to the node. -/
theorem induct {motive : Visit → Prop}
    (step : ∀ v, (∀ w ∈ v.node.visitedParts, motive w) → motive v) (v : Visit) : motive v := by
  have key (e : Expr) : ∀ role, motive ⟨role, e⟩ := by
    have all := Expr.everywhere_of_forall (P := fun _ => True) (fun _ => trivial) e
    induction all with
    | mk _ _ ih => exact fun role => step _ fun w hw => ih _ (Expr.node_mem_children hw) w.role
  exact key v.node v.role

theorem mem_visits {v x : Visit} : x ∈ v.visits ↔ v.Reaches x := by
  constructor
  · induction v using induct with
    | step v ih =>
      intro h
      rcases mem_visits_cases h with rfl | ⟨hv, w, hw, hx⟩
      · exact .here
      · exact .cons hv hw (ih w hw hx)
  · intro h
    have closed (v w x : Visit) (hw : w ∈ v.visits) (hs : w.node.isLoose = false)
        (hx : x ∈ w.node.visitedParts) : x ∈ v.visits := by
      induction v using induct with
      | step v ih =>
        rcases mem_visits_cases hw with rfl | ⟨hv, u, hu, hw⟩
        · exact mem_visits_cons hs hx List.mem_cons_self
        · exact mem_visits_cons hv hu (ih u hu hw)
    induction h with
    | here => exact List.mem_cons_self
    | step _ hs hx ih => exact closed v _ _ ih hs hx

end Visit

theorem File.mem_visits {f : File} {v : Visit} : v ∈ f.visits ↔ f.Live v := by
  simp only [visits, Stmt.visits, Live, List.mem_flatMap, Option.mem_toList, Option.mem_def,
    Visit.mem_visits]

end ScriptLowering.Source
