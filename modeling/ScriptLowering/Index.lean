/-!
# Indices of stores

A store that keeps each value once has an index beside it: a list of pairs that
tells of each value the place where it is read.

    a new value, a place so far free → the index with both is right      (Indexes.cons)
    the index is right → a value is read at one place only               (Indexes.unique)
-/

namespace ScriptLowering

variable {α β : Type} [BEq α] {index : List (α × β)} {read read' : β → Option α} {a : α} {b c : β}

/-- The index tells of each value where it is read. -/
def Indexes (index : List (α × β)) (read : β → Option α) : Prop :=
  ∀ a b, index.lookup a = some b ↔ read b = some a

namespace Indexes

theorem nil : @Indexes α β _ [] fun _ => none := by
  intro a b
  simp

theorem unique (h : Indexes index read) (hb : read b = some a) (hc : read c = some a) : b = c :=
  Option.some.inj (((h a b).2 hb).symm.trans ((h a c).2 hc))

theorem lookup_eq_none_iff (h : Indexes index read) :
    index.lookup a = none ↔ ∀ b, read b ≠ some a := by
  rw [Option.eq_none_iff_forall_ne_some]
  exact forall_congr' fun b => not_congr (h a b)

/-- A new value at a free place is found there, and the others where they were. -/
theorem cons [LawfulBEq α] (h : Indexes index read) (hnew : index.lookup a = none)
    (hfree : read b = none) (hself : read' b = some a) (hother : ∀ c, c ≠ b → read' c = read c) :
    Indexes ((a, b) :: index) read' := by
  intro u c
  rw [List.lookup_cons]
  by_cases hu : u = a
  · by_cases hc : c = b
    · simp [hu, hc, hself]
    · -- the new value was read nowhere, so not at another place now
      have hnot : read c ≠ some a := h.lookup_eq_none_iff.1 hnew c
      simp [hu, Ne.symm hc, hother c hc, hnot]
  · have hne : (u == a) = false := beq_false_of_ne hu
    by_cases hc : c = b
    · -- no older value has the place that was free
      simp [hne, hc, hself, h u b, hfree, Ne.symm hu]
    · simp [hne, hother c hc, h u c]

end Indexes

end ScriptLowering
