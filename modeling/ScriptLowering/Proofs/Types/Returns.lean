import ScriptLowering.Lowering.Pattern
import ScriptLowering.Proofs.Types.Members

/-!
# Multi-value returns among types

A multi-value return has no flag but its own.  A pattern indexes a value as it is
when each union member is an array or a multi-value return, so the arrays among
these are the members that are no multi-value return.

    t is a multi-value return → t has no other flag                               (has_of_tupleReturn)
    indexed as it is → all members are arrays iff none is a multi-value return    (forall_array_iff)
-/

namespace ScriptLowering

namespace TypePool

variable {pool : TypePool} {t : TypeId}

theorem has_tupleReturn_iff :
    pool.has t .tupleReturn ↔ ∃ inner, pool.data? t = some (.tupleReturn inner) := by
  constructor
  · intro h
    obtain ⟨d, hd, hflag⟩ := has_iff.1 h
    obtain ⟨inner, rfl⟩ := TypeData.has_tupleReturn_iff.1 hflag
    exact ⟨inner, hd⟩
  · rintro ⟨inner, hd⟩
    exact has_iff.2 ⟨_, hd, rfl⟩

theorem has_of_tupleReturn (h : pool.has t .tupleReturn) {f : TypeFlag} (hf : f ≠ .tupleReturn) :
    pool.has t f = false := by
  obtain ⟨inner, hdata⟩ := has_tupleReturn_iff.1 h
  simpa [has_eq, hdata, TypeData.has] using hf

end TypePool

namespace Lower

variable {pool : TypePool} {ty : TypeId}

/-- No union member of the type is a multi-value return. -/
def NoReturn (pool : TypePool) (ty : TypeId) : Prop :=
  ∀ m ∈ pool.unionMembers ty, pool.has m .tupleReturn = false

theorem isIndexable_single_iff : isIndexable pool (.single ty) ↔ pool.unionMembers ty ≠ [] ∧
    ∀ m ∈ pool.unionMembers ty, pool.has m .array ∨ pool.has m .tupleReturn := by
  simp [isIndexable, TypePool.isDefinitely_iff]

/-- Of what holds of every array and of no multi-value return. -/
theorem forall_members_iff (hty : isIndexable pool (.single ty)) {pred : TypeId → Bool}
    (harray : ∀ m, pool.has m .array → pred m)
    (hreturn : ∀ m, pool.has m .tupleReturn → pred m = false) :
    (∀ m ∈ pool.unionMembers ty, pred m) ↔ NoReturn pool ty := by
  have hmembers := (isIndexable_single_iff.1 hty).2
  constructor
  · intro h m hm
    refine Bool.eq_false_iff.2 fun hm' => ?_
    cases (hreturn m hm').symm.trans (h m hm)
  · intro h m hm
    exact harray m ((hmembers m hm).resolve_right (by simp [h m hm]))

theorem forall_array_iff (hty : isIndexable pool (.single ty)) :
    (∀ m ∈ pool.unionMembers ty, pool.has m .array) ↔ NoReturn pool ty :=
  forall_members_iff hty (fun _ h => h) fun _ h => TypePool.has_of_tupleReturn h (by decide)

end Lower

end ScriptLowering
