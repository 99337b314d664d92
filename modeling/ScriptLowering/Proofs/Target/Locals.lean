import ScriptLowering.Proofs.Target.Leaves

/-!
# Locals and references

The names that the statements of a list declare for those after them, and the
names that a statement refers to, in its blocks as well.  A reference that lies
after a local of its name is *captured* by it.

    locals (ss ++ tt) = locals ss ++ locals tt                              (locals_append)
    what a list of pieces captures, by the piece that refers to it        (captures_flatMap)
-/

namespace ScriptLowering.Target

/-! ## Algorithm -/

/-- The name that a statement declares for those after it. -/
@[simp] def Stmt.local? : Stmt → Option String
  | .declare (.name name) _ => some name
  | .declare (.temp _) _ | .declare .discard _ => none
  | .call _ | .assign _ _ | .compound _ _ _ | .ifThen _ _ => none

/-- The names that are declared at the top level of a list of statements. -/
def Stmt.locals (ss : List Stmt) : List String := ss.filterMap Stmt.local?

mutual

/-- The names that a statement reads or writes, other than one that it declares. -/
@[simp] def Stmt.references : Stmt → List String
  | .call e => e.names
  | .assign t v | .compound _ t v => t.names ++ v.names
  | .declare _ none => []
  | .declare _ (some v) => v.names
  | .ifThen c body => c.names ++ Stmt.referencesAll body
termination_by structural s => s

@[simp] def Stmt.referencesAll : List Stmt → List String
  | [] => []
  | s :: ss => s.references ++ Stmt.referencesAll ss
termination_by structural ss => ss

end

/-- The statements refer to the name after a local that has it. -/
def Stmt.Captures (ss : List Stmt) (name : String) : Prop :=
  ∃ before s after, ss = before ++ s :: after ∧ name ∈ locals before ∧ name ∈ s.references

/-! ## Lemmas -/

namespace Stmt

theorem locals_append (ss tt : List Stmt) : locals (ss ++ tt) = locals ss ++ locals tt :=
  List.filterMap_append ..

theorem locals_eq_nil_iff {ss : List Stmt} : locals ss = [] ↔ ∀ s ∈ ss, s.local? = none :=
  List.filterMap_eq_nil_iff

/-- Where a statement of joined pieces stands: in one piece, after those before it. -/
theorem flatMap_eq_append_cons {α : Type} {us : List α} {code : α → List Stmt}
    {before after : List Stmt} {s : Stmt} (h : us.flatMap code = before ++ s :: after) :
    ∃ us₁ u us₂ pre post, us = us₁ ++ u :: us₂ ∧ code u = pre ++ s :: post ∧
      before = us₁.flatMap code ++ pre := by
  induction us generalizing before with
  | nil => simp at h
  | cons u us ih =>
    rw [List.flatMap_cons, List.append_eq_append_iff] at h
    rcases h with ⟨rest, rfl, h⟩ | ⟨tail, hu, h⟩
    · obtain ⟨us₁, v, us₂, pre, post, rfl, hv, rfl⟩ := ih h
      exact ⟨u :: us₁, v, us₂, pre, post, rfl, hv, by simp⟩
    · cases tail with
      | nil =>
        obtain ⟨us₁, v, us₂, pre, post, rfl, hv, hpre⟩ := @ih [] h.symm
        refine ⟨u :: us₁, v, us₂, pre, post, rfl, hv, ?_⟩
        rw [List.flatMap_cons, List.append_assoc, ← hpre, hu, List.append_nil, List.append_nil]
      | cons t tail =>
        obtain ⟨rfl, -⟩ := List.cons.inj h
        exact ⟨[], u, us, before, tail, rfl, hu, rfl⟩

/-- Joined pieces capture what one of them refers to after a local in it or before it. -/
theorem captures_flatMap {α : Type} {us : List α} {code : α → List Stmt} {name : String} :
    Captures (us.flatMap code) name ↔ ∃ us₁ u us₂ pre s post, us = us₁ ++ u :: us₂ ∧
      code u = pre ++ s :: post ∧ name ∈ locals (us₁.flatMap code ++ pre) ∧
        name ∈ s.references := by
  constructor
  · rintro ⟨before, s, after, h, hl, hr⟩
    obtain ⟨us₁, u, us₂, pre, post, hus, hu, rfl⟩ := flatMap_eq_append_cons h
    exact ⟨us₁, u, us₂, pre, s, post, hus, hu, hl, hr⟩
  · rintro ⟨us₁, u, us₂, pre, s, post, rfl, hu, hl, hr⟩
    refine ⟨us₁.flatMap code ++ pre, s, post ++ us₂.flatMap code, ?_, hl, hr⟩
    simp [hu]

theorem mem_referencesAll {ss : List Stmt} {name : String} :
    name ∈ referencesAll ss ↔ ∃ s ∈ ss, name ∈ s.references := by
  induction ss with
  | nil => simp
  | cons s ss ih => simp [ih]

end Stmt

end ScriptLowering.Target
