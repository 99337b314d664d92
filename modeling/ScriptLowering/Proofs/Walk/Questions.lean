import ScriptLowering.Proofs.Types.WellFormed
import ScriptLowering.Proofs.Walk.Lowerer

/-!
# Questions of a walk

What a walk asks of types it reads off the pool, entry by entry, and a type that
is not there is a panic.  In a well-formed pool each question has the answer that
the pool gives at once.

    p.WellFormed, p holds t → definitely p t f = ok (p.isDefinitely t f)      (definitely_eq)
    p.WellFormed, p holds ty → subType p ty i = ok (p.subType ty i)           (subType_eq)
-/

namespace ScriptLowering.Walk

variable {α : Type}

/-! ## Algorithm -/

/-- What only the entry of the type can answer. -/
def reading (p : TypePool) (t : TypeId) (answer : α) : Except Panic α :=
  if t.index < p.size then .ok answer else .error .index

def definitely (p : TypePool) (t : TypeId) (pred : TypeId → Except Panic Bool) :
    Except Panic Bool := do
  let members ← reading p t (p.unionMembers t)
  if members.isEmpty then return false else members.allM pred

def possibly (p : TypePool) (t : TypeId) (pred : TypeId → Except Panic Bool) :
    Except Panic Bool := do
  let members ← reading p t (p.unionMembers t)
  members.anyM fun m => do
    if m == .unknown then return true
    else if ← reading p m (p.has m .any) then return true
    else pred m

def definitelyA (p : TypePool) (t : TypeId) (f : TypeFlag) : Except Panic Bool :=
  definitely p t fun m => reading p m (p.has m f)

def possiblyA (p : TypePool) (t : TypeId) (f : TypeFlag) : Except Panic Bool :=
  possibly p t fun m => reading p m (p.has m f)

/-- The signatures of the type itself. -/
def ownSignatures (p : TypePool) (t : TypeId) : List Signature :=
  match p.data? t with
  | some (.function signatures) => signatures
  | _ => []

def callSignatures (p : TypePool) (t : TypeId) : Except Panic (List Signature) := do
  let members ← reading p t (p.unionMembers t)
  return (← members.mapM fun m => reading p m (ownSignatures p m)).flatten

def firstArgument (p : TypePool) (t : TypeId) : Except Panic (Except Fault SubType) :=
  reading p t (p.firstArgument t)

/-- The element at a position, by the kinds of types that have elements, in order. -/
def positionType (p : TypePool) (t : TypeId) (i : Nat) : Except Panic (Except Fault SubType) := do
  if ← definitelyA p t .array then
    if ← reading p t (p.has t .tuple) then
      return TypePool.elementAt (← reading p t (p.typeArguments t)) i
    else
      match ← reading p t (p.elementType? t) with
      | some element => return .ok (.single element)
      | none => return .error (.noElementType t)
  else if ← definitelyA p t .string then return .ok (.single t)
  else if ← definitelyA p t .set then firstArgument p t
  else if ← definitelyA p t .map then return .ok (.sequence (← reading p t (p.typeArguments t)))
  else if ← definitelyA p t .generator then firstArgument p t
  else return .error (.noSubType t i)

/-- The element at a position, under at most so many multi-value returns. -/
def elementOf (p : TypePool) (i : Nat) : Nat → TypeId → Except Panic (Except Fault SubType)
  | 0, _ => .error .depth
  | depth + 1, t => do
    match ← reading p t (p.returnInner? t) with
    | some inner => elementOf p i depth inner
    | none => positionType p t i

def subType (p : TypePool) : SubType → SubIndex → Except Panic (Except Fault SubType)
  | .sequence elements, .position i => return TypePool.elementAt elements i
  | .sequence _, .name _ => return .error .nameInSequence
  | .single t, .name name => do
    match ← reading p t (p.propertyType? t name) with
    | some property => return .ok (.single property)
    | none => return .error (.noProperty t)
  | .single t, .position i => elementOf p i p.size t

/-! ## Lemmas -/

variable {p : TypePool} {t : TypeId}

theorem reading_eq (h : p.Holds t) (a : α) : reading p t a = .ok a := if_pos h

theorem allM_eq {xs : List α} {f : α → Except Panic Bool} {g : α → Bool}
    (h : ∀ x ∈ xs, f x = .ok (g x)) : xs.allM f = .ok (xs.all g) := by
  induction xs with
  | nil => rfl
  | cons x xs ih =>
    obtain ⟨hx, hxs⟩ := List.forall_mem_cons.1 h
    rw [List.allM, hx]
    cases hg : g x
    · simp [hg, bind, Except.bind, pure, Except.pure]
    · simp [hg, bind, Except.bind, ih hxs]

theorem anyM_eq {xs : List α} {f : α → Except Panic Bool} {g : α → Bool}
    (h : ∀ x ∈ xs, f x = .ok (g x)) : xs.anyM f = .ok (xs.any g) := by
  induction xs with
  | nil => rfl
  | cons x xs ih =>
    obtain ⟨hx, hxs⟩ := List.forall_mem_cons.1 h
    rw [List.anyM, hx]
    cases hg : g x
    · simp [hg, bind, Except.bind, ih hxs]
    · simp [hg, bind, Except.bind, pure, Except.pure]

section WellFormed

variable (hp : p.WellFormed) (ht : p.Holds t)
include hp ht

theorem definitely_eq {f : TypeId → Except Panic Bool} {g : TypeId → Bool}
    (h : ∀ m, p.Holds m → f m = .ok (g m)) : definitely p t f = .ok (p.isDefinitely t g) := by
  have hall := allM_eq fun m hm => h m (TypePool.holds_unionMembers hp ht m hm)
  simp only [definitely, reading_eq ht, bind, Except.bind, TypePool.isDefinitely, hall]
  cases (p.unionMembers t).isEmpty <;> rfl

theorem possibly_eq {f : TypeId → Except Panic Bool} {g : TypeId → Bool}
    (h : ∀ m, p.Holds m → f m = .ok (g m)) : possibly p t f = .ok (p.isPossibly t g) := by
  simp only [possibly, reading_eq ht, bind, Except.bind, TypePool.isPossibly]
  refine anyM_eq fun m hm => ?_
  have hm := TypePool.holds_unionMembers hp ht m hm
  simp only [reading_eq hm, h m hm]
  cases m == TypeId.unknown <;> cases p.has m .any <;> rfl

theorem definitelyA_eq (f : TypeFlag) : definitelyA p t f = .ok (p.isDefinitelyA t f) :=
  definitely_eq hp ht fun _ hm => reading_eq hm _

theorem possiblyA_eq (f : TypeFlag) : possiblyA p t f = .ok (p.isPossiblyA t f) :=
  possibly_eq hp ht fun _ hm => reading_eq hm _

theorem callSignatures_eq : callSignatures p t = .ok (p.callSignatures t) := by
  have h : ∀ ms : List TypeId, (∀ m ∈ ms, p.Holds m) →
      ms.mapM (fun m => reading p m (ownSignatures p m)) = .ok (ms.map (ownSignatures p)) := by
    intro ms
    induction ms with
    | nil => exact fun _ => rfl
    | cons m ms ih =>
      intro hms
      obtain ⟨hm, hms⟩ := List.forall_mem_cons.1 hms
      rw [List.mapM_cons, reading_eq hm, ih hms]
      rfl
  simp only [callSignatures, reading_eq ht, bind, Except.bind,
    h _ (TypePool.holds_unionMembers hp ht), TypePool.callSignatures, List.flatMap]
  rfl

theorem positionType_eq (i : Nat) : positionType p t i = .ok (p.positionType t i) := by
  cases he : p.elementType? t <;>
    simp only [positionType, definitelyA_eq hp ht, reading_eq ht, firstArgument, bind, Except.bind,
      TypePool.positionType, he] <;>
    repeat' split
  all_goals rfl

theorem elementOf_eq {depth : Nat} (hd : t.index < depth) (i : Nat) :
    elementOf p i depth t = .ok (p.positionType (p.returned t) i) := by
  induction depth generalizing t with
  | zero => omega
  | succ depth ih =>
    simp only [elementOf, reading_eq ht, bind, Except.bind]
    cases hr : p.returnInner? t with
    | none =>
      rw [TypePool.returned_of_no_returnInner hr]
      exact positionType_eq hp ht i
    | some inner =>
      have hlt := TypePool.lt_of_returnInner hp hr
      rw [TypePool.returned_of_returnInner hp hr]
      exact ih (Nat.lt_trans hlt ht) (by omega)

end WellFormed

/-- A sub-type is found, or missed, as the pool says. -/
theorem subType_eq (hp : p.WellFormed) {ty : SubType} (ht : p.HoldsSubType ty) (index : SubIndex) :
    subType p ty index = .ok (p.subType ty index) := by
  cases ty with
  | sequence elements => cases index <;> rfl
  | single t =>
    cases index with
    | name name =>
      simp only [subType, reading_eq ht, bind, Except.bind, TypePool.subType]
      cases p.propertyType? t name <;> rfl
    | position i => exact elementOf_eq hp ht ht i

end ScriptLowering.Walk
