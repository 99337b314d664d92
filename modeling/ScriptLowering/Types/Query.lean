import ScriptLowering.Types.Pool

/-!
# Questions about types

What lowering asks of a type.  A union is asked through its members: a type is
*definitely* so when it has members and all of them are so, and *possibly* so
when some member is so, or is `any` or `unknown`.  An id outside the pool has no
data and so no flag.
-/

namespace ScriptLowering

namespace TypePool

/-- Whether the type itself has the flag. -/
def has (p : TypePool) (t : TypeId) (f : TypeFlag) : Bool := (p.flags t).contains f

/-- Every union member satisfies the predicate, and there is one. -/
def isDefinitely (p : TypePool) (t : TypeId) (pred : TypeId → Bool) : Bool :=
  !(p.unionMembers t).isEmpty && (p.unionMembers t).all pred

/-- Some union member satisfies the predicate or could be anything. -/
def isPossibly (p : TypePool) (t : TypeId) (pred : TypeId → Bool) : Bool :=
  (p.unionMembers t).any fun m => m == .unknown || p.has m .any || pred m

def isDefinitelyA (p : TypePool) (t : TypeId) (f : TypeFlag) : Bool :=
  p.isDefinitely t (p.has · f)

def isPossiblyA (p : TypePool) (t : TypeId) (f : TypeFlag) : Bool :=
  p.isPossibly t (p.has · f)

/-- The type arguments of an instance, or the elements of a tuple. -/
def typeArguments (p : TypePool) (t : TypeId) : List TypeId :=
  match p.data? t with
  | some (.instanceOf _ _ args) => args
  | some (.tuple elements) => elements
  | _ => []

/-- The element type of a plain array. -/
def elementType? (p : TypePool) (t : TypeId) : Option TypeId :=
  match p.data? t with
  | some (.array element) => some element
  | _ => none

/-- What a multi-value return wraps. -/
def returnInner? (p : TypePool) (t : TypeId) : Option TypeId :=
  match p.data? t with
  | some (.tupleReturn inner) => some inner
  | _ => none

/-- The type of the first declared property of that name. -/
def propertyType? (p : TypePool) (t : TypeId) (name : String) : Option TypeId :=
  match p.data? t with
  | some (.object _ properties) => properties.lookup name
  | _ => none

/-- The declared name of an instance or object type. -/
def symbolName? (p : TypePool) (t : TypeId) : Option String :=
  match p.data? t with
  | some (.instanceOf _ name _) => some name
  | some (.object name _) => name
  | _ => none

/-- The signatures of all union members, in order. -/
def callSignatures (p : TypePool) (t : TypeId) : List Signature :=
  (p.unionMembers t).flatMap fun m =>
    match p.data? m with
    | some (.function signatures) => signatures
    | _ => []

/-! ## Lemmas -/

/-- The flags of a type are those of its data. -/
theorem has_eq (p : TypePool) (t : TypeId) (f : TypeFlag) :
    p.has t f = match p.data? t with
      | some d => d.has f
      | none => false := by
  cases h : p.data? t with
  | some d => rw [has, flags_of_data? h, Bool.eq_iff_iff, List.contains_iff_mem, d.mem_flags]
  | none =>
    have hnone : p.entries[t.index]? = none := Option.map_eq_none_iff.1 h
    simp [has, flags, hnone]

theorem isDefinitely_iff (p : TypePool) (t : TypeId) (pred : TypeId → Bool) :
    p.isDefinitely t pred ↔ p.unionMembers t ≠ [] ∧ ∀ m ∈ p.unionMembers t, pred m := by
  simp [isDefinitely]

theorem isPossibly_iff (p : TypePool) (t : TypeId) (pred : TypeId → Bool) :
    p.isPossibly t pred ↔ ∃ m ∈ p.unionMembers t, m = .unknown ∨ p.has m .any ∨ pred m := by
  simp [isPossibly, or_assoc]

end TypePool

end ScriptLowering
