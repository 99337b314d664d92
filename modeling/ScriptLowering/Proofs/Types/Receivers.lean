import ScriptLowering.Lowering.Call.Form
import ScriptLowering.Proofs.Types.Members

/-!
# Receivers of a union type

Containers and strings are told by what all union members are, so a union of types
of one such family is in that family.  The other families are told by the name of
the type itself, and a union has no name: the rule that its types agree on is lost
unless they are one type.

    the types ts agree on a form →
      their union is called in that form iff all are definitely of one container
        or all are one type                                                 (union_form_iff)
-/

namespace ScriptLowering

/-! ## Algorithm -/

namespace CallRule

/-- The form that the rule settles by itself, without the callee's signatures. -/
def form? : CallRule → Option Lower.CallForm
  | helper h => some (.helper h)
  | nativeString => some .nativeString
  | renamedMethod name => some (.method name)
  | renamedField name => some (.field name)
  | operator op _ => some (.operator op)
  | generic => none

/-- The rule for a call of the member on a receiver of the type. -/
def onReceiver (p : TypePool) (member : String) (argCount : Nat) (t : TypeId) : CallRule :=
  find (.ofType p t) member argCount

end CallRule

namespace ReceiverFamily

/-- The flags of the types that are told by their members. -/
def containers : List TypeFlag := [.array, .string, .map, .set]

/-- What all members of the receiver's type are, if this is how the family is told. -/
def flag? : ReceiverFamily → Option TypeFlag
  | array => some .array
  | string => some .string
  | map => some .map
  | set => some .set
  | objectConstructor | promise | symbolConstructor | math _ | other => none

end ReceiverFamily

/-- What all members of the receiver's type are, if the form is of such a family. -/
def Lower.CallForm.flag? : Lower.CallForm → Option TypeFlag
  | .helper .array => some .array
  | .helper .string | .nativeString => some .string
  | .helper .map => some .map
  | .helper .set => some .set
  | .helper .object | .helper .runtime | .method _ | .field _ | .superMethod _ | .operator _ => none

/-! ## Lemmas -/

variable {p : TypePool} {t : TypeId} {ts : List TypeId} {f : TypeFlag} {member : String} {n : Nat}
  {form : Lower.CallForm}

open TypePool

/-! ### Families -/

namespace ReceiverFamily

theorem flag?_ofSymbol (name : String) : (ofSymbol name).flag? = none := by
  unfold ofSymbol
  repeat' split
  all_goals rfl

/-- A type is told by its members or by its name. -/
theorem ofType_cases (p : TypePool) (t : TypeId) :
    (∃ f ∈ containers, p.isDefinitelyA t f ∧ (ofType p t).flag? = some f) ∨
      (∀ f ∈ containers, p.isDefinitelyA t f = false) ∧ (ofType p t).flag? = none ∧
        ofType p t = ((p.symbolName? t).map ofSymbol).getD other := by
  unfold ofType
  split
  next h => exact .inl ⟨.array, by decide, h, rfl⟩
  split
  next h => exact .inl ⟨.string, by decide, h, rfl⟩
  split
  next h => exact .inl ⟨.map, by decide, h, rfl⟩
  split
  next h => exact .inl ⟨.set, by decide, h, rfl⟩
  next harray hstring hmap hset =>
    refine .inr ⟨by simp_all [containers], ?_⟩
    cases p.symbolName? t with
    | none => exact ⟨rfl, rfl⟩
    | some name => exact ⟨flag?_ofSymbol name, rfl⟩

theorem flag?_ofType_eq_some_iff :
    (ofType p t).flag? = some f ↔ f ∈ containers ∧ p.isDefinitelyA t f := by
  rcases ofType_cases p t with ⟨g, hg, hdef, hflag⟩ | ⟨hno, hflag, -⟩
  · rw [hflag, Option.some_inj]
    constructor
    · rintro rfl
      exact ⟨hg, hdef⟩
    · rintro ⟨hf, h⟩
      exact isDefinitelyA_unique hdef h (ne_of_mem_of_not_mem hg (by decide))
        (ne_of_mem_of_not_mem hf (by decide))
  · rw [hflag]
    refine iff_of_false nofun ?_
    rintro ⟨hf, h⟩
    cases (hno f hf).symm.trans h

/-- Families that are told by members are told apart by what these are. -/
theorem flag?_injective {a b : ReceiverFamily} (ha : a.flag? = some f) (hb : b.flag? = some f) :
    a = b := by
  cases a <;> cases ha <;> cases b <;> cases hb <;> rfl

end ReceiverFamily

open CallRule ReceiverFamily

/-- A form says what the members of the receiver's type are. -/
theorem CallRule.flag?_of_form? {family : ReceiverFamily}
    (h : (find family member n).form? = some form) : form.flag? = family.flag? := by
  cases family <;> simp only [find, ofNamespace] at h
  case other => cases h
  all_goals repeat' split at h
  all_goals cases h
  all_goals rfl

/-! ### Types that are told by their members -/

/-- The union of types of one container is of that container. -/
theorem onReceiver_union_of_flag (hne : ts ≠ []) (hform : form.flag? = some f)
    (h : ∀ t ∈ ts, (onReceiver p member n t).form? = some form) :
    (∀ t ∈ ts, f ∈ containers ∧ p.isDefinitelyA t f) ∧
      (onReceiver (p.union ts).2 member n (p.union ts).1).form? = some form := by
  have hdef : ∀ t ∈ ts, f ∈ containers ∧ p.isDefinitelyA t f := fun t ht =>
    flag?_ofType_eq_some_iff.1 ((flag?_of_form? (h t ht)).symm.trans hform)
  obtain ⟨t, ht⟩ := List.exists_mem_of_ne_nil _ hne
  have hf := (hdef t ht).1
  have hunion := isDefinitelyA_union (ne_of_mem_of_not_mem hf (by decide))
    (ne_of_mem_of_not_mem hf (by decide)) hne fun t ht => (hdef t ht).2
  have hfamily : ofType (p.union ts).2 (p.union ts).1 = ofType p t :=
    flag?_injective (flag?_ofType_eq_some_iff.2 ⟨hf, hunion⟩)
      (flag?_ofType_eq_some_iff.2 (hdef t ht))
  exact ⟨hdef, by rw [onReceiver, hfamily]; exact h t ht⟩

/-! ### Types that are told by their names -/

theorem TypePool.unionMembers_of_symbolName {name : String} (h : p.symbolName? t = some name) :
    p.unionMembers t = [t] ∧ t.index < p.size := by
  unfold symbolName? at h
  split at h
  next hd => exact ⟨by simp [unionMembers, hd], data?_lt hd⟩
  next hd => exact ⟨by simp [unionMembers, hd], data?_lt hd⟩
  next => cases h

/-- The type is told by its name. -/
structure Named (p : TypePool) (t : TypeId) : Prop where
  members : p.unionMembers t = [t]
  held : t.index < p.size
  not_container : ∀ f ∈ containers, p.isDefinitelyA t f = false

theorem named_of_form? (h : (onReceiver p member n t).form? = some form)
    (hform : form.flag? = none) : Named p t := by
  rcases ofType_cases p t with ⟨f, -, -, hflag⟩ | ⟨hno, -, hfamily⟩
  · rw [flag?_of_form? h, hflag] at hform
    cases hform
  · cases hs : p.symbolName? t with
    | some name =>
      obtain ⟨hmembers, hheld⟩ := unionMembers_of_symbolName hs
      exact ⟨hmembers, hheld, hno⟩
    | none =>
      rw [onReceiver, hfamily, hs] at h
      cases h

/-- Two types that are told by their names have a union that has none. -/
theorem ofType_union_of_named (h : ∀ t ∈ ts, Named p t) {u : TypeId} (ht : t ∈ ts) (hu : u ∈ ts)
    (htu : t ≠ u) : ofType (p.union ts).2 (p.union ts).1 = other := by
  have hmem {m : TypeId} (hm : m ∈ ts) : m ∈ p.flatten ts :=
    mem_flatten.2 ⟨m, hm, by simp [(h m hm).members]⟩
  rcases union_cases (List.ne_nil_of_mem (hmem ht)) with ⟨m, hm, -⟩ | hunion
  · have htm : t = m := by simpa [hm] using hmem ht
    have hum : u = m := by simpa [hm] using hmem hu
    exact absurd (htm.trans hum.symm) htu
  · rw [hunion]
    rcases ofType_cases (p.intern (.union (p.flatten ts))).2
      (p.intern (.union (p.flatten ts))).1 with ⟨f, hf, hdef, -⟩ | ⟨-, -, hfamily⟩
    · -- what the union definitely is, its member is
      have hflag := (isDefinitelyA_iff.1 hdef).2 t (by
        rw [unionMembers_intern_union]
        exact hmem ht)
      rw [has_intern _ (h t ht).held] at hflag
      have hdef' : p.isDefinitelyA t f := isDefinitelyA_iff.2 (by simp [(h t ht).members, hflag])
      cases ((h t ht).not_container f hf).symm.trans hdef'
    · rw [hfamily, symbolName?, data?_intern]
      rfl

/-- The union of types that are told by their names is told only if they are one type. -/
theorem onReceiver_union_of_named (hne : ts ≠ []) (hform : form.flag? = none)
    (h : ∀ t ∈ ts, (onReceiver p member n t).form? = some form) :
    if ∀ t ∈ ts, ∀ u ∈ ts, t = u then
      (onReceiver (p.union ts).2 member n (p.union ts).1).form? = some form
    else onReceiver (p.union ts).2 member n (p.union ts).1 = .generic := by
  have hnamed : ∀ t ∈ ts, Named p t := fun t ht => named_of_form? (h t ht) hform
  split
  next heq =>
    obtain ⟨t, ht, hunion⟩ := union_of_eq hne (fun t ht => (hnamed t ht).members) heq
    rw [hunion]
    exact h t ht
  next hdiff =>
    simp only [Classical.not_forall] at hdiff
    obtain ⟨t, ht, u, hu, htu⟩ := hdiff
    rw [onReceiver, ofType_union_of_named hnamed ht hu htu]
    rfl

/-! ### Unions -/

/-- Of types that agree on a form, the union is called in that form exactly if all
are of one container or all are one type.  Otherwise the call goes by the callee's
signatures. -/
theorem union_form_iff (hne : ts ≠ [])
    (h : ∀ t ∈ ts, (onReceiver p member n t).form? = some form) :
    ((onReceiver (p.union ts).2 member n (p.union ts).1).form? = some form ↔
      (∃ f ∈ containers, ∀ t ∈ ts, p.isDefinitelyA t f) ∨ ∀ t ∈ ts, ∀ u ∈ ts, t = u) ∧
    ((onReceiver (p.union ts).2 member n (p.union ts).1).form? ≠ some form →
      onReceiver (p.union ts).2 member n (p.union ts).1 = .generic) := by
  obtain ⟨t, ht⟩ := List.exists_mem_of_ne_nil _ hne
  cases hform : form.flag? with
  | some f =>
    obtain ⟨hdef, hunion⟩ := onReceiver_union_of_flag hne hform h
    exact ⟨iff_of_true hunion (.inl ⟨f, (hdef t ht).1, fun t ht => (hdef t ht).2⟩),
      fun hno => absurd hunion hno⟩
  | none =>
    have hno : ¬ ∃ f ∈ containers, ∀ t ∈ ts, p.isDefinitelyA t f := by
      rintro ⟨f, hf, hall⟩
      cases ((named_of_form? (h t ht) hform).not_container f hf).symm.trans (hall t ht)
    have hunion := onReceiver_union_of_named hne hform h
    split at hunion
    next heq => exact ⟨iff_of_true hunion (.inr heq), fun hno => absurd hunion hno⟩
    next hdiff =>
      exact ⟨iff_of_false (by simp [hunion, form?]) (not_or.2 ⟨hno, hdiff⟩), fun _ => hunion⟩

/-- A pool with the types of arrays of numbers and of arrays of strings. -/
def twoArrays : TypePool := ((TypePool.fresh.array .number).2.array .string).2

/-- Arrays are told by the members of their union. -/
theorem union_form_arrays :
    (onReceiver (twoArrays.union [⟨7⟩, ⟨8⟩]).2 "push" 1 (twoArrays.union [⟨7⟩, ⟨8⟩]).1).form? =
      some (.helper .array) :=
  (union_form_iff (List.cons_ne_nil _ _) (by decide +kernel)).1.2
    (.inl ⟨.array, by decide, by decide +kernel⟩)

/-- A pool with the promises of numbers and those of strings. -/
def twoPromises : TypePool :=
  ((TypePool.fresh.instanceOf .plain "Promise" [.number]).2.instanceOf .plain "Promise"
    [.string]).2

/-- The method `then` of promises is renamed, but not that of a union of two. -/
theorem union_form_promises :
    (∀ t ∈ [⟨7⟩, ⟨8⟩], onReceiver twoPromises "then" 1 t = .renamedMethod "andThen") ∧
      onReceiver (twoPromises.union [⟨7⟩, ⟨8⟩]).2 "then" 1 (twoPromises.union [⟨7⟩, ⟨8⟩]).1 =
        .generic := by
  decide +kernel

end ScriptLowering
