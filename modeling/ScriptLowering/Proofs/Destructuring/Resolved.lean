import ScriptLowering.Lowering.Expr
import ScriptLowering.Proofs.Semantics.Source

/-!
# Resolved patterns

A pattern whose targets are variables, with the conversions that the types of its
levels ask for settled.  What it assigns is said level by level: a level converts
its value or leaves it as it is, and each part that is not left out gets the member
at its step.

    resolve pool e ty = some p → e is a pattern, its targets are variables, and
      the type has a sub-type at each pattern in it                       (resolvePart_cases)
-/

namespace ScriptLowering

/-- What a step reads; arrays of the target count from one. -/
def SubIndex.key {Ref : Type} : SubIndex → Value Ref
  | .name property => .string property
  | .position i => .number ((Number.ofNat i).add .one)

namespace Lower

variable {w : World} {pool : TypePool}

/-! ## Algorithm -/

inductive Pattern where
  | leaf (name : String)
  | elided
  /-- A value to be converted or not, and what goes where from it. -/
  | level (converts : Bool) (parts : List (SubIndex × Pattern))

/-- A part of a pattern; `nested` resolves it if it is a pattern itself. -/
def resolvePart (pool : TypePool) (part : Source.Expr) (nested : SubType → Option Pattern)
    (ty : SubType) (index : SubIndex) : Option Pattern :=
  if part.isPattern then
    match pool.subType ty index with
    | .ok partTy => nested partTy
    | .error _ => none
  else
    match part with
    | .undefined _ => some .elided
    | part => Pattern.leaf <$> part.variable?

mutual

/-- The pattern to which a value of the type is assigned. -/
def resolve (pool : TypePool) : Source.Expr → SubType → Option Pattern
  | .array _ es, ty => .level (!isIndexable pool ty) <$> resolveElements pool es 0 ty
  | .object _ ps, ty => .level false <$> resolveProperties pool ps ty
  | _, _ => none
termination_by structural e => e

def resolveElements (pool : TypePool) :
    List Source.Expr → Nat → SubType → Option (List (SubIndex × Pattern))
  | [], _, _ => some []
  | e :: rest, i, ty => do
    let part ← resolvePart pool e (fun ty => resolve pool e ty) ty (.position i)
    return (.position i, part) :: (← resolveElements pool rest (i + 1) ty)
termination_by structural es => es

def resolveProperties (pool : TypePool) :
    List (String × Source.Expr) → SubType → Option (List (SubIndex × Pattern))
  | [], _ => some []
  | (name, e) :: rest, ty => do
    let part ← resolvePart pool e (fun ty => resolve pool e ty) ty (.name name)
    return (.name name, part) :: (← resolveProperties pool rest ty)
termination_by structural ps => ps

end

/-- `TS.array.from(x)` -/
def convert (x : w.Val) : w.Run w.Val := do
  let ts ← Run.readVar "TS"
  let array ← Run.readMember ts (.string "array")
  let f ← Run.readMember array (.string "from")
  Run.callValue f [x]

/-- What the parts of a level are read from. -/
def indexed (converts : Bool) (x : w.Val) : w.Run w.Val := if converts then convert x else pure x

namespace Pattern

mutual

/-- The variables, from left to right. -/
def leaves : Pattern → List String
  | leaf name => [name]
  | elided => []
  | level _ parts => leavesAll parts
termination_by structural p => p

def leavesAll : List (SubIndex × Pattern) → List String
  | [] => []
  | (_, p) :: rest => leaves p ++ leavesAll rest
termination_by structural ps => ps

end

/-- The value is neither read nor kept. -/
def isElided : Pattern → Bool
  | elided => true
  | _ => false

mutual

/-- Assigns a value to the pattern. -/
def assign : Pattern → w.Val → w.Run Unit
  | leaf name, x => Run.writeVar name x
  | elided, _ => pure ()
  | level converts parts, x => indexed converts x >>= assignAll parts
termination_by structural p => p

/-- Assigns the members of a value to the parts. -/
def assignAll : List (SubIndex × Pattern) → w.Val → w.Run Unit
  | [], _ => pure ()
  | (index, p) :: rest, x =>
    (if p.isElided then pure () else Run.readMember x index.key >>= assign p) >>= fun _ =>
      assignAll rest x
termination_by structural ps => ps

end

end Pattern

/-! ## Lemmas -/

/-- A part is a pattern with a sub-type, is left out, or is a variable. -/
theorem resolvePart_cases {part : Source.Expr} {nested : SubType → Option Pattern} {ty : SubType}
    {index : SubIndex} {p : Pattern} (h : resolvePart pool part nested ty index = some p) :
    (part.isPattern ∧ ∃ partTy, pool.subType ty index = .ok partTy ∧ nested partTy = some p) ∨
      (∃ info, part = .undefined info ∧ p = .elided) ∨
      part.isPattern = false ∧ ∃ name, part.variable? = some name ∧ p = .leaf name := by
  unfold resolvePart at h
  split at h
  next hpart =>
    split at h
    next partTy hty => exact .inl ⟨hpart, partTy, hty, h⟩
    next => cases h
  next hpart =>
    split at h
    next info =>
      cases h
      exact .inr (.inl ⟨info, rfl, rfl⟩)
    next =>
      obtain ⟨name, hname, rfl⟩ := Option.map_eq_some_iff.1 h
      exact .inr (.inr ⟨Bool.eq_false_iff.2 hpart, name, hname, rfl⟩)

/-- Only a part that is left out resolves to nothing to assign. -/
theorem not_isElided_of_resolve {e : Source.Expr} {ty : SubType} {p : Pattern}
    (h : resolve pool e ty = some p) : p.isElided = false := by
  cases e with
  | array info es =>
    obtain ⟨parts, -, rfl⟩ := Option.map_eq_some_iff.1 h
    rfl
  | object info ps =>
    obtain ⟨parts, -, rfl⟩ := Option.map_eq_some_iff.1 h
    rfl
  | _ => cases h

end Lower

end ScriptLowering
