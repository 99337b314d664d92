import ScriptLowering.Proofs.Types.Returns
import ScriptLowering.Proofs.Types.WellFormed

/-!
# Positions that have a type

Which rule finds the element at a position is asked of the union members; what it
then takes, it takes from the type itself.  So of a type whose values have
positions a union of arrays, of sets or of generators is answered with a fault,
and a union of maps with an entry of no types.

    p.Built, p.Proper, p.HasPositions t →
      p.subType t i = .ok _ ↔ t is no union, or one of strings or of maps,
        and no tuple that ends before i                                      (subType_position_iff)
-/

namespace ScriptLowering.TypePool

/-! ## Algorithm -/

/-- Containers have the type arguments that they are known by, and a multi-value
return wraps a tuple. -/
def ProperData (p : TypePool) : TypeData → Prop
  | .instanceOf .map _ args => args.length = 2
  | .instanceOf .set _ args | .instanceOf .generator _ args => args ≠ []
  | .tupleReturn inner => p.has inner .tuple
  | _ => True

def Proper (p : TypePool) : Prop := ∀ e ∈ p.entries.toList, p.ProperData e.data

instance (p : TypePool) : (d : TypeData) → Decidable (p.ProperData d)
  | .instanceOf .map _ args => inferInstanceAs (Decidable (args.length = 2))
  | .instanceOf .set _ args | .instanceOf .generator _ args =>
    inferInstanceAs (Decidable (args ≠ []))
  | .tupleReturn inner => inferInstanceAs (Decidable (p.has inner .tuple))
  | .instanceOf .plain _ _ | .primitive _ | .array _ | .tuple _ | .object _ _ | .function _
  | .union _ => .isTrue trivial

instance (p : TypePool) : Decidable p.Proper :=
  inferInstanceAs (Decidable (∀ e ∈ p.entries.toList, p.ProperData e.data))

/-- The kinds of types whose values have positions. -/
def positionFlags : List TypeFlag := [.array, .string, .set, .map, .generator]

/-- All union members are of one kind with positions, or the type is a
multi-value return. -/
def HasPositions (p : TypePool) (t : TypeId) : Prop :=
  (∃ f ∈ positionFlags, ∀ m ∈ p.unionMembers t, p.has m f) ∨ p.has t .tupleReturn

/-- What is found at a position of a type of this shape. -/
def atPosition (t : TypeId) (i : Nat) : TypeData → Except Fault SubType
  | .array element => .ok (.single element)
  | .tuple elements => elementAt elements i
  | .primitive .string => .ok (.single t)
  | .instanceOf .set _ (arg :: _) | .instanceOf .generator _ (arg :: _) => .ok (.single arg)
  | .instanceOf .set _ [] | .instanceOf .generator _ [] => .error (.noTypeArguments t)
  | .instanceOf .map _ args => .ok (.sequence args)
  | _ => .error (.noSubType t i)

/-- How a position of the type is answered. -/
structure Answers (p : TypePool) (t : TypeId) (i : Nat) : Prop where
  ok_iff : (∃ s, p.subType (.single t) (.position i) = .ok s) ↔
    (p.has t .union → p.isDefinitelyA t .string ∨ p.isDefinitelyA t .map) ∧
      ∀ elements, p.data? (p.returned t) = some (.tuple elements) → i < elements.length
  map : p.isDefinitelyA t .map → p.has t .union = false → ∃ key value,
    p.typeArguments t = [key, value] ∧
      p.subType (.single t) (.position i) = .ok (.sequence [key, value])
  maps : p.isDefinitelyA t .map → p.has t .union →
    p.subType (.single t) (.position i) = .ok (.sequence [])

/-! ## Lemmas -/

variable {p : TypePool} {t : TypeId} {f : TypeFlag} {i : Nat}

theorem Proper.data (h : p.Proper) {d : TypeData} (hd : p.data? t = some d) : p.ProperData d := by
  obtain ⟨e, he, rfl⟩ := exists_entry hd
  exact h e he

theorem elementAt_ok_iff {elements : List TypeId} :
    (∃ s, elementAt elements i = .ok s) ↔ i < elements.length := by
  unfold elementAt
  split
  next h => simpa using (List.getElem?_eq_some_iff.1 h).1
  next h => simpa using h

/-- Only a multi-value return wraps another type. -/
theorem returned_of_has (h : p.has t f) (hft : f ≠ .tuple) (hf : f ≠ .tupleReturn) :
    p.returned t = t := by
  refine returned_of_no_returnInner ?_
  unfold returnInner?
  split
  next inner hd => exact absurd (has_unique h (has_tupleReturn_iff.2 ⟨inner, hd⟩) hft (by decide)) hf
  next => rfl

/-! ### Types that are no union -/

theorem positionType_of_not_union {d : TypeData} (hd : p.data? t = some d)
    (hu : p.has t .union = false) : p.positionType t i = atPosition t i d := by
  have hflag (f : TypeFlag) : p.isDefinitelyA t f = d.has f := by
    rw [isDefinitelyA_of_not_union hu, has_eq, hd]
  unfold positionType
  simp only [hflag, has_eq, elementType?, typeArguments, firstArgument, hd]
  cases d with
  | primitive q => cases q <;> rfl
  | instanceOf kind name args => cases kind <;> cases args <;> rfl
  | union members => simp [has_eq, hd, TypeData.has] at hu
  | _ => rfl

theorem atPosition_ok_iff {d : TypeData} (hd : p.ProperData d) (hf : f ∈ positionFlags)
    (h : d.has f) :
    (∃ s, atPosition t i d = .ok s) ↔ ∀ elements, d = .tuple elements → i < elements.length := by
  simp only [positionFlags, List.mem_cons, List.not_mem_nil, or_false] at hf
  cases d with
  | tuple elements => simp [atPosition, elementAt_ok_iff]
  | array element => simp [atPosition]
  | primitive q => cases q <;> simp_all [TypeData.has, atPosition]
  | instanceOf kind name args =>
    cases kind with
    | map => simp [atPosition]
    | set | generator =>
      obtain ⟨arg, rest, rfl⟩ := List.exists_cons_of_ne_nil hd
      simp [atPosition]
    | plain => simp_all [TypeData.has]
  | object | function | tupleReturn | union => simp_all [TypeData.has]

theorem atPosition_map {d : TypeData} (hd : p.ProperData d) (h : d.has .map) :
    ∃ name key value, d = .instanceOf .map name [key, value] ∧
      atPosition t i d = .ok (.sequence [key, value]) := by
  obtain ⟨name, args, rfl⟩ := TypeData.has_map_iff.1 h
  match args, hd with
  | [key, value], _ => exact ⟨name, key, value, rfl, rfl⟩

theorem answers_of_single (ha : p.Proper) (hf : f ∈ positionFlags) (h : p.has t f) (i : Nat) :
    p.Answers t i := by
  have hft : f ≠ .tuple := ne_of_mem_of_not_mem hf (by decide)
  have hunion := not_union_of_has h hft (ne_of_mem_of_not_mem hf (by decide))
  have hreturned := returned_of_has h hft (ne_of_mem_of_not_mem hf (by decide))
  obtain ⟨d, ht, hd⟩ := has_iff.1 h
  have hanswer : p.subType (.single t) (.position i) = atPosition t i d := by
    rw [subType, hreturned, positionType_of_not_union ht hunion]
  refine ⟨?_, fun hmap _ => ?_, fun _ hu => ?_⟩
  · rw [hanswer, hreturned, ht, atPosition_ok_iff (ha.data ht) hf hd]
    simp [hunion]
  · rw [isDefinitelyA_of_not_union hunion, has_eq, ht] at hmap
    obtain ⟨name, key, value, rfl, hentry⟩ := atPosition_map (ha.data ht) hmap
    exact ⟨key, value, by simp [typeArguments, ht], hanswer.trans hentry⟩
  · cases hunion.symm.trans hu

/-! ### Multi-value returns -/

theorem answers_of_return (hp : p.WellFormed) (ha : p.Proper) (h : p.has t .tupleReturn) (i : Nat) :
    p.Answers t i := by
  obtain ⟨inner, ht⟩ := has_tupleReturn_iff.1 h
  obtain ⟨d, hinner, hd⟩ := has_iff.1 (ha.data ht)
  obtain ⟨elements, rfl⟩ := TypeData.has_tuple_iff.1 hd
  have harray : p.has inner .array := has_iff.2 ⟨_, hinner, rfl⟩
  have hreturned : p.returned t = inner := by
    rw [returned_of_returnInner hp (u := inner) (by simp [returnInner?, ht])]
    exact returned_of_has harray (by decide) (by decide)
  have hanswer : p.subType (.single t) (.position i) = elementAt elements i := by
    rw [subType, hreturned,
      positionType_of_not_union hinner (not_union_of_has harray (by decide) (by decide))]
    rfl
  have hunion : p.has t .union = false := has_of_tupleReturn h (by decide)
  have hmap : p.isDefinitelyA t .map = false := by
    rw [isDefinitelyA_of_not_union hunion]
    exact has_of_tupleReturn h (by decide)
  refine ⟨?_, by simp [hmap], by simp [hmap]⟩
  simp [hanswer, elementAt_ok_iff, hunion, hreturned, hinner]

/-! ### Unions -/

/-- A union has no element type and no type arguments. -/
theorem positionType_of_union {members : List TypeId} (ht : p.data? t = some (.union members)) :
    p.positionType t i =
      if p.isDefinitelyA t .array then .error (.noElementType t)
      else if p.isDefinitelyA t .string then .ok (.single t)
      else if p.isDefinitelyA t .set then .error (.noTypeArguments t)
      else if p.isDefinitelyA t .map then .ok (.sequence [])
      else if p.isDefinitelyA t .generator then .error (.noTypeArguments t)
      else .error (.noSubType t i) := by
  unfold positionType
  simp [has_eq, elementType?, typeArguments, firstArgument, ht, TypeData.has]

theorem answers_of_union (hu : p.has t .union) (hf : f ∈ positionFlags) (h : p.isDefinitelyA t f)
    (i : Nat) : p.Answers t i := by
  obtain ⟨d, ht, hd⟩ := has_iff.1 hu
  obtain ⟨members, rfl⟩ := TypeData.has_union_iff.1 hd
  have hreturned : p.returned t = t := returned_of_has hu (by decide) (by decide)
  have honly (g : TypeFlag) (hg : g ∈ positionFlags) : p.isDefinitelyA t g ↔ f = g :=
    ⟨fun hg' => isDefinitelyA_unique h hg' (ne_of_mem_of_not_mem hf (by decide))
      (ne_of_mem_of_not_mem hg (by decide)), fun heq => heq ▸ h⟩
  have hanswer : p.subType (.single t) (.position i) =
      if f = .array then .error (.noElementType t)
      else if f = .string then .ok (.single t)
      else if f = .set then .error (.noTypeArguments t)
      else if f = .map then .ok (.sequence [])
      else if f = .generator then .error (.noTypeArguments t)
      else .error (.noSubType t i) := by
    rw [subType, hreturned, positionType_of_union ht]
    simp only [honly .array (by decide), honly .string (by decide), honly .set (by decide),
      honly .map (by decide), honly .generator (by decide)]
  refine ⟨?_, by simp [hu], fun hmap _ => ?_⟩
  · rw [hanswer, hreturned, ht, honly .string (by decide), honly .map (by decide)]
    simp only [positionFlags, List.mem_cons, List.not_mem_nil, or_false] at hf
    rcases hf with rfl | rfl | rfl | rfl | rfl <;> simp [hu]
  · obtain rfl := (honly .map (by decide)).1 hmap
    exact hanswer

/-- Of a type whose values have positions, each position has a type, but for those
at or after the end of a tuple and for those of a union of arrays, of sets or of
generators, which is asked for its parts as if it were one of its members. -/
theorem subType_position_iff (hp : p.Built) (ha : p.Proper) (h : p.HasPositions t) (i : Nat) :
    p.Answers t i := by
  rcases h with ⟨f, hf, h⟩ | h
  · have hdef : p.isDefinitelyA t f := isDefinitelyA_iff.2 ⟨hp.unionMembers_ne_nil t, h⟩
    cases hu : p.has t .union with
    | true => exact answers_of_union hu hf hdef i
    | false => exact answers_of_single ha hf (isDefinitelyA_of_not_union hu f ▸ hdef) i
  · exact answers_of_return hp.wellFormed ha h i

/-- A pool with the type of maps from strings to numbers. -/
def stringMaps : TypePool := (fresh.instanceOf .map "Map" [.string, .number]).2

theorem built_stringMaps : stringMaps.Built := .intern .fresh (by decide) nofun

/-- The part of a map at a position is an entry. -/
theorem subType_position_map : ∃ key value, stringMaps.typeArguments ⟨7⟩ = [key, value] ∧
    stringMaps.subType (.single ⟨7⟩) (.position 0) = .ok (.sequence [key, value]) :=
  (subType_position_iff built_stringMaps (by decide +kernel)
    (.inl ⟨.map, by decide, by decide +kernel⟩) 0).map (by decide +kernel) (by decide +kernel)

/-- A pool with the union of the arrays of numbers and the tuples of one number. -/
def numberLists : TypeId × TypePool :=
  ((fresh.array .number).2.tuple [.number]).2.union [⟨7⟩, ⟨8⟩]

theorem built_numberLists : numberLists.2.Built :=
  .union (.intern (.intern .fresh (by decide) nofun) (by decide +kernel) nofun) (by decide +kernel)

/-- All members are arrays, and the first position is a fault. -/
theorem subType_position_ne_ok : numberLists.2.Built ∧ numberLists.2.Proper ∧
    (∀ m ∈ numberLists.2.unionMembers numberLists.1, numberLists.2.has m .array) ∧
    numberLists.2.subType (.single numberLists.1) (.position 0) =
      .error (.noElementType numberLists.1) := by
  have ht : numberLists.2.data? numberLists.1 = some (.union [⟨7⟩, ⟨8⟩]) := by decide +kernel
  have hunion : numberLists.2.has numberLists.1 .union := has_iff.2 ⟨_, ht, rfl⟩
  have harray : numberLists.2.isDefinitelyA numberLists.1 .array := by decide +kernel
  refine ⟨built_numberLists, by decide +kernel, (isDefinitelyA_iff.1 harray).2, ?_⟩
  rw [subType, returned_of_has hunion (by decide) (by decide), positionType_of_union ht,
    if_pos harray]

end ScriptLowering.TypePool
