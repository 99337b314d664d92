import Mathlib.Algebra.BigOperators.Group.List.Basic
import Mathlib.Algebra.Ring.Nat
import Mathlib.Data.List.FinRange

/-!
# First occurrences

What a list is without repetitions: how this goes together with filtering and
joining, and how many entries there are, counted by their classes.

    (as.filter p).eraseDups = as.eraseDups.filter p                        (eraseDups_filter)
    the sizes of the classes of as add up to the length of as              (sum_length_filter)
-/

namespace ScriptLowering

variable {α β : Type}

section

variable [BEq α] [LawfulBEq α]

theorem eraseDups_filter (p : α → Bool) (as : List α) :
    (as.filter p).eraseDups = as.eraseDups.filter p := by
  match as with
  | [] => rfl
  | a :: as =>
    have ih := eraseDups_filter p (as.filter fun b => !b == a)
    by_cases ha : p a
    · rw [List.filter_cons_of_pos ha, List.eraseDups_cons, List.eraseDups_cons,
        List.filter_cons_of_pos ha, ← ih, List.filter_comm]
    · rw [List.filter_cons_of_neg ha, List.eraseDups_cons, List.filter_cons_of_neg ha, ← ih,
        List.filter_filter]
      congr 1
      refine List.filter_congr fun b _ => ?_
      by_cases hb : b = a
      · simp [hb, ha]
      · simp [hb]
termination_by as.length
decreasing_by exact Nat.lt_succ_of_le (List.length_filter_le ..)

theorem nodup_eraseDups (as : List α) : as.eraseDups.Nodup := by
  match as with
  | [] => exact List.nodup_nil
  | a :: as =>
    rw [List.eraseDups_cons, List.nodup_cons]
    exact ⟨by simp, nodup_eraseDups _⟩
termination_by as.length
decreasing_by exact Nat.lt_succ_of_le (List.length_filter_le ..)

theorem eraseDups_of_nodup {as : List α} (h : as.Nodup) : as.eraseDups = as := by
  induction as with
  | nil => rfl
  | cons a as ih =>
    obtain ⟨ha, has⟩ := List.nodup_cons.1 h
    have hrest : as.filter (fun b => !b == a) = as := by
      refine List.filter_eq_self.2 fun b hb => ?_
      simpa using fun heq : b = a => ha (heq ▸ hb)
    rw [List.eraseDups_cons, hrest, ih has]

theorem eraseDups_append_singleton (as : List α) (a : α) :
    (as ++ [a]).eraseDups = as.eraseDups ++ if a ∈ as then [] else [a] := by
  rw [List.eraseDups_append]
  by_cases h : a ∈ as <;> simp [List.removeAll, List.eraseDups_cons, h]

/-- Only the first occurrences in the parts matter to those in the whole. -/
theorem eraseDups_flatMap_eraseDups (f : β → List α) (bs : List β) :
    (bs.flatMap fun b => (f b).eraseDups).eraseDups = (bs.flatMap f).eraseDups := by
  induction bs with
  | nil => rfl
  | cons b bs ih =>
    simp only [List.flatMap_cons, List.eraseDups_append, List.removeAll, eraseDups_filter, ih,
      eraseDups_of_nodup (nodup_eraseDups _), List.elem_eq_contains, List.contains_eq_mem,
      List.mem_eraseDups]

end

/-- A list is counted class by class. -/
theorem sum_length_filter {n : Nat} (f : α → Fin n) (as : List α) :
    ((List.finRange n).map fun i => (as.filter (f · = i)).length).sum = as.length := by
  induction as with
  | nil => simp
  | cons a as ih =>
    have hstep (i : Fin n) : ((a :: as).filter (f · = i)).length =
        (as.filter (f · = i)).length + if f a = i then 1 else 0 := by
      by_cases h : f a = i <;> simp [h]
    have hone : ((List.finRange n).map fun i => if f a = i then 1 else 0).sum = 1 := by
      rw [List.sum_map_eq_nsmul_single (f a) _ fun i hi _ => if_neg hi.symm, List.count_finRange,
        if_pos rfl, one_nsmul]
    rw [List.map_congr_left fun i _ => hstep i, List.sum_map_add, ih, hone, List.length_cons]

end ScriptLowering
