import ScriptLowering.Proofs.Source.Everywhere

/-!
# Calls of a file

The callees of plain calls, in the order in which the source evaluates them: a
callee or receiver before the arguments, a target before the assigned value, but
an assigned value before the parts of a pattern.  All other identifiers of a file
are listed apart from them, with the class names that a `super` stands for.
-/

namespace ScriptLowering.Source

namespace Expr

/-! ## Algorithm -/

def name? : Expr → Option String
  | ident _ name => some name
  | _ => none

mutual

/-- The names of called identifiers, in order of evaluation. -/
def calls : Expr → List String
  | ident _ _ | this _ | super _ | number _ _ | string _ _ | bool _ _ | undefined _ | error _ => []
  | paren _ e | spread _ e | property _ e _ | prefixed _ _ e | postfixed _ _ e => e.calls
  | element _ a b => a.calls ++ b.calls
  | binary _ op l r =>
    if op.isAssignment && l.isPattern then r.calls ++ l.calls else l.calls ++ r.calls
  | call _ f args => f.name?.toList ++ (f.calls ++ callsList args)
  | array _ es => callsList es
  | object _ ps => callsProperties ps
termination_by structural e => e

def callsList : List Expr → List String
  | [] => []
  | e :: es => e.calls ++ callsList es
termination_by structural es => es

def callsProperties : List (String × Expr) → List String
  | [] => []
  | (_, e) :: ps => e.calls ++ callsProperties ps
termination_by structural ps => ps

end

mutual

/-- The identifiers that are not called, and the class names. -/
def others (pool : TypePool) : Expr → List String
  | ident _ name => [name]
  | super info => (pool.symbolName? info.ty).toList
  | this _ | number _ _ | string _ _ | bool _ _ | undefined _ | error _ => []
  | paren _ e | spread _ e | property _ e _ | prefixed _ _ e | postfixed _ _ e => e.others pool
  | element _ a b | binary _ _ a b => a.others pool ++ b.others pool
  | call _ f args => (if f.name?.isSome then [] else f.others pool) ++ othersList pool args
  | array _ es => othersList pool es
  | object _ ps => othersProperties pool ps
termination_by structural e => e

def othersList (pool : TypePool) : List Expr → List String
  | [] => []
  | e :: es => e.others pool ++ othersList pool es
termination_by structural es => es

def othersProperties (pool : TypePool) : List (String × Expr) → List String
  | [] => []
  | (_, e) :: ps => e.others pool ++ othersProperties pool ps
termination_by structural ps => ps

end

/-- Loose equality is reported, and its operands are not lowered. -/
def isLoose : Expr → Bool
  | binary _ (.loose _) _ _ => true
  | _ => false

/-- A receiver that is the constructor of objects is an identifier: it is not evaluated. -/
def HasNamedConstructor (pool : TypePool) : Expr → Prop
  | call _ (property _ o _) _ => pool.symbolName? o.ty = some "ObjectConstructor" → o.name?.isSome
  | _ => True

/-- A location, or anything without a call in it. -/
def IsTarget (e : Expr) : Prop := e.isLocation ∨ e.calls = []

/-- What is asked of each node so that lowering it drops no call and doubles none. -/
structure KeepsCalls (pool : TypePool) (e : Expr) : Prop where
  strict : e.isLoose = false
  constructor : e.HasNamedConstructor pool
  targets : e.TargetsAre IsTarget

end Expr

def Stmt.calls (s : Stmt Expr) : List String := s.expr?.toList.flatMap Expr.calls

def Stmt.others (pool : TypePool) (s : Stmt Expr) : List String :=
  match s.kind with
  | .expr e => e.others pool
  | .letDecl name init => name :: init.toList.flatMap (Expr.others pool)
  | .importDecl _ | .exportDecl _ => []

namespace File

def calls (f : File) : List String := f.body.flatMap Stmt.calls

def others (f : File) : List String := f.body.flatMap (Stmt.others f.types.pool)

end File

/-! ## Lemmas -/

namespace Expr

theorem callsList_eq_flatMap (es : List Expr) : callsList es = es.flatMap calls := by
  induction es with
  | nil => rfl
  | cons e es ih => simp [callsList, ih]

theorem callsProperties_eq_flatMap (ps : List (String × Expr)) :
    callsProperties ps = ps.flatMap (·.2.calls) := by
  induction ps with
  | nil => rfl
  | cons p ps ih => simp [callsProperties, ih]

theorem othersList_eq_flatMap (pool : TypePool) (es : List Expr) :
    othersList pool es = es.flatMap (others pool) := by
  induction es with
  | nil => rfl
  | cons e es ih => simp [othersList, ih]

theorem othersProperties_eq_flatMap (pool : TypePool) (ps : List (String × Expr)) :
    othersProperties pool ps = ps.flatMap (·.2.others pool) := by
  induction ps with
  | nil => rfl
  | cons p ps ih => simp [othersProperties, ih]

theorem calls_call_ident (info i : NodeInfo) (name : String) (args : List Expr) :
    (call info (ident i name) args).calls = name :: args.flatMap calls := by
  simp [calls, name?, callsList_eq_flatMap]

/-- The calls of a part are calls of the whole. -/
theorem calls_subset {c e : Expr} (h : c ∈ e.children) : ∀ x ∈ c.calls, x ∈ e.calls := by
  intro x hx
  cases e with
  | binary info op l r =>
    simp only [children, List.mem_cons, List.not_mem_nil, or_false] at h
    rcases h with rfl | rfl <;> unfold calls <;> split <;> simp [hx]
  | element info a b =>
    simp only [children, List.mem_cons, List.not_mem_nil, or_false] at h
    rcases h with rfl | rfl <;> simp [calls, hx]
  | call info f args =>
    simp only [calls, callsList_eq_flatMap, List.mem_append, List.mem_flatMap]
    rcases List.mem_cons.1 h with rfl | h
    · exact .inr (.inl hx)
    · exact .inr (.inr ⟨c, h, hx⟩)
  | array info es =>
    simp only [calls, callsList_eq_flatMap, List.mem_flatMap]
    exact ⟨c, h, hx⟩
  | object info ps =>
    obtain ⟨p, hp, rfl⟩ := List.mem_map.1 h
    simp only [calls, callsProperties_eq_flatMap, List.mem_flatMap]
    exact ⟨p, hp, hx⟩
  | paren | spread | property | prefixed | postfixed =>
    obtain rfl := List.mem_singleton.1 h
    exact hx
  | _ => cases h

/-- The other identifiers of a part are others of the whole; a callee is a part of its own kind. -/
theorem others_subset {pool : TypePool} {c e : Expr} (h : c ∈ e.children)
    (he : ∀ info f args, e ≠ call info f args) : ∀ x ∈ c.others pool, x ∈ e.others pool := by
  intro x hx
  cases e with
  | binary | element =>
    simp only [children, List.mem_cons, List.not_mem_nil, or_false] at h
    rcases h with rfl | rfl <;> simp [others, hx]
  | call info f args => exact absurd rfl (he info f args)
  | array info es =>
    simp only [others, othersList_eq_flatMap, List.mem_flatMap]
    exact ⟨c, h, hx⟩
  | object info ps =>
    obtain ⟨p, hp, rfl⟩ := List.mem_map.1 h
    simp only [others, othersProperties_eq_flatMap, List.mem_flatMap]
    exact ⟨p, hp, hx⟩
  | paren | spread | property | prefixed | postfixed =>
    obtain rfl := List.mem_singleton.1 h
    exact hx
  | _ => cases h

theorem others_argument {pool : TypePool} {info : NodeInfo} {c f : Expr} {args : List Expr}
    (h : c ∈ args) : ∀ x ∈ c.others pool, x ∈ (call info f args).others pool := by
  intro x hx
  simp only [others, othersList_eq_flatMap, List.mem_append, List.mem_flatMap]
  exact .inr ⟨c, h, hx⟩

theorem others_callee {pool : TypePool} {info : NodeInfo} {f : Expr} {args : List Expr}
    (hf : f.name? = none) : ∀ x ∈ f.others pool, x ∈ (call info f args).others pool := by
  intro x hx
  simp [others, hf, hx]

end Expr

end ScriptLowering.Source
