import Mathlib.Logic.Basic
import ScriptLowering.Types.Query

/-!
# Flags of union members

A type has one flag, but for tuples, which are arrays too.  So what all members
of a union are says what they are not, and a union that is joined from types is
definitely what each of these definitely is.

    p.isDefinitelyA t f, p.isDefinitelyA t g → f = g                     (isDefinitelyA_unique)
    all of ts definitely f → the union of ts definitely f                (isDefinitelyA_union)
-/

namespace ScriptLowering

namespace TypeData

variable {d : TypeData}

/-! ### Shapes that a flag tells -/

theorem has_union_iff : d.has .union ↔ ∃ members, d = .union members := by
  unfold has
  split <;> simp

theorem has_tuple_iff : d.has .tuple ↔ ∃ elements, d = .tuple elements := by
  unfold has
  split <;> simp

theorem has_tupleReturn_iff : d.has .tupleReturn ↔ ∃ inner, d = .tupleReturn inner := by
  unfold has
  split <;> simp

theorem has_map_iff : d.has .map ↔ ∃ name args, d = .instanceOf .map name args := by
  unfold has
  split <;> simp

end TypeData

namespace TypePool

variable {p : TypePool} {t : TypeId} {ts : List TypeId} {f g : TypeFlag}

/-! ### Flags -/

theorem has_iff : p.has t f ↔ ∃ d, p.data? t = some d ∧ d.has f := by
  rw [has_eq]
  cases p.data? t <;> simp

theorem has_unique (hf : p.has t f) (hg : p.has t g) (hft : f ≠ .tuple) (hgt : g ≠ .tuple) :
    f = g := by
  obtain ⟨d, hd, hdf⟩ := has_iff.1 hf
  obtain ⟨d', hd', hdg⟩ := has_iff.1 hg
  cases hd.symm.trans hd'
  unfold TypeData.has at hdf hdg
  split at hdf <;> simp_all

theorem isDefinitelyA_iff :
    p.isDefinitelyA t f ↔ p.unionMembers t ≠ [] ∧ ∀ m ∈ p.unionMembers t, p.has m f :=
  isDefinitely_iff ..

theorem isDefinitelyA_unique (hf : p.isDefinitelyA t f) (hg : p.isDefinitelyA t g)
    (hft : f ≠ .tuple) (hgt : g ≠ .tuple) : f = g := by
  obtain ⟨hne, hf⟩ := isDefinitelyA_iff.1 hf
  obtain ⟨m, hm⟩ := List.exists_mem_of_ne_nil _ hne
  exact has_unique (hf m hm) ((isDefinitelyA_iff.1 hg).2 m hm) hft hgt

/-! ### Types that are no union -/

theorem unionMembers_of_not_union (h : p.has t .union = false) : p.unionMembers t = [t] := by
  unfold unionMembers
  split
  next members hd => simp [has_eq, hd, TypeData.has] at h
  next => rfl

theorem isDefinitelyA_of_not_union (h : p.has t .union = false) (f : TypeFlag) :
    p.isDefinitelyA t f = p.has t f := by
  simp [isDefinitelyA, isDefinitely, unionMembers_of_not_union h]

theorem not_union_of_has (h : p.has t f) (hf : f ≠ .tuple) (hu : f ≠ .union) :
    p.has t .union = false :=
  Bool.eq_false_iff.2 fun hunion => hu (has_unique h hunion hf (by decide))

/-! ### Joined types -/

theorem mem_flatten {m : TypeId} : m ∈ p.flatten ts ↔ ∃ t ∈ ts, m ∈ p.unionMembers t := by
  simp [flatten]

/-- The flags of a type stay when data is added. -/
theorem has_intern (d : TypeData) (ht : t.index < p.size) (f : TypeFlag) :
    (p.intern d).2.has t f = p.has t f := by
  have hd : p.data? t = some p.entries[t.index].data := data?_eq_some_iff.2 ⟨ht, rfl⟩
  simp only [has_eq, hd, data?_intern_of_some hd d]

theorem unionMembers_intern_union (members : List TypeId) :
    (p.intern (.union members)).2.unionMembers (p.intern (.union members)).1 = members := by
  simp [unionMembers, data?_intern]

/-- A union is its only member or an entry of its own. -/
theorem union_cases (hne : p.flatten ts ≠ []) :
    (∃ t, p.flatten ts = [t] ∧ p.union ts = (t, p)) ∨
      p.union ts = p.intern (.union (p.flatten ts)) := by
  unfold union
  split
  next h => exact absurd h hne
  next t h => exact .inl ⟨t, h, rfl⟩
  next => exact .inr rfl

theorem isDefinitelyA_union (hft : f ≠ .tuple) (hf : f ≠ .union) (hne : ts ≠ [])
    (h : ∀ t ∈ ts, p.isDefinitelyA t f) : (p.union ts).2.isDefinitelyA (p.union ts).1 f := by
  have hmembers : ∀ m ∈ p.flatten ts, p.has m f := by
    intro m hm
    obtain ⟨t, ht, hmt⟩ := mem_flatten.1 hm
    exact (isDefinitelyA_iff.1 (h t ht)).2 m hmt
  have hflat : p.flatten ts ≠ [] := by
    obtain ⟨t, ht⟩ := List.exists_mem_of_ne_nil _ hne
    obtain ⟨m, hm⟩ := List.exists_mem_of_ne_nil _ (isDefinitelyA_iff.1 (h t ht)).1
    exact List.ne_nil_of_mem (mem_flatten.2 ⟨t, ht, hm⟩)
  rw [isDefinitelyA_iff]
  rcases union_cases hflat with ⟨m, hm, hunion⟩ | hunion
  · have hmf : p.has m f := hmembers m (hm ▸ List.mem_cons_self)
    rw [hunion, unionMembers_of_not_union (not_union_of_has hmf hft hf)]
    simpa using hmf
  · rw [hunion, unionMembers_intern_union]
    refine ⟨hflat, fun m hm => ?_⟩
    obtain ⟨d, hd, -⟩ := has_iff.1 (hmembers m hm)
    rw [has_intern _ (data?_lt hd)]
    exact hmembers m hm

theorem flatMap_unionMembers (h : ∀ t ∈ ts, p.unionMembers t = [t]) :
    ts.flatMap p.unionMembers = ts := by
  induction ts with
  | nil => rfl
  | cons t rest ih =>
    obtain ⟨ht, hrest⟩ := List.forall_mem_cons.1 h
    rw [List.flatMap_cons, ht, ih hrest]
    rfl

/-- Joining one type with itself, however often, gives that type. -/
theorem union_of_eq (hne : ts ≠ []) (h : ∀ t ∈ ts, p.unionMembers t = [t])
    (heq : ∀ t ∈ ts, ∀ u ∈ ts, t = u) : ∃ t ∈ ts, p.union ts = (t, p) := by
  cases ts with
  | nil => exact absurd rfl hne
  | cons t rest =>
    have hrest : rest.filter (fun u => !u == t) = [] := by
      rw [List.filter_eq_nil_iff]
      intro u hu
      simp [heq u (List.mem_cons_of_mem _ hu) t List.mem_cons_self]
    have hflat : p.flatten (t :: rest) = [t] := by
      rw [flatten, flatMap_unionMembers h, List.eraseDups_cons, hrest]
      rfl
    exact ⟨t, List.mem_cons_self, by simp [union, hflat]⟩

end TypePool

end ScriptLowering
