import Mathlib.Data.List.Forall2

/-!
# Runs of calls on a store

A store takes calls one after the other; each has an answer and leaves another
store, or ends the run with an error.  What one call keeps, a run keeps.

    one call leads from P done to P (done ++ [call]) → so does a run             (runAll_keeps)
    one call makes R for its answer and keeps it → R for all answers of a run    (runAll_answers)
-/

namespace ScriptLowering

variable {σ α β ε : Type} {step : σ → α → Except ε (β × σ)} {s s₁ s' : σ} {a : α} {b : β}
  {calls later : List α} {bs : List β}

/-- All calls in order, with their answers. -/
def runAll (step : σ → α → Except ε (β × σ)) : σ → List α → Except ε (List β × σ)
  | s, [] => .ok ([], s)
  | s, a :: calls => do
    let (b, s) ← step s a
    let (bs, s) ← runAll step s calls
    return (b :: bs, s)

/-! ## Lemmas -/

theorem runAll_cons (hb : step s a = .ok (b, s₁)) (hbs : runAll step s₁ calls = .ok (bs, s')) :
    runAll step s (a :: calls) = .ok (b :: bs, s') := by
  simp only [runAll, hb, hbs, bind, Except.bind]
  rfl

theorem runAll_cons_eq_ok (h : runAll step s (a :: calls) = .ok (bs, s')) :
    ∃ b s₁ cs, step s a = .ok (b, s₁) ∧ runAll step s₁ calls = .ok (cs, s') ∧ bs = b :: cs := by
  simp only [runAll, bind, Except.bind] at h
  split at h
  · cases h
  next hb =>
    split at h <;> cases h
    next hcs => exact ⟨_, _, _, hb, hcs, rfl⟩

/-- A run can be cut anywhere. -/
theorem runAll_append_eq_ok (h : runAll step s (calls ++ later) = .ok (bs, s')) :
    ∃ bs₁ s₁ bs₂, runAll step s calls = .ok (bs₁, s₁) ∧ runAll step s₁ later = .ok (bs₂, s') ∧
      bs = bs₁ ++ bs₂ := by
  induction calls generalizing s bs with
  | nil => exact ⟨[], s, bs, rfl, h, rfl⟩
  | cons a calls ih =>
    obtain ⟨b, s₁, cs, hb, hcs, rfl⟩ := runAll_cons_eq_ok h
    obtain ⟨bs₁, s₂, bs₂, h₁, h₂, rfl⟩ := ih hcs
    exact ⟨b :: bs₁, s₂, bs₂, runAll_cons hb h₁, h₂, rfl⟩

/-- What holds of a store and the calls made so far, if each call keeps it. -/
theorem runAll_keeps {P : σ → List α → Prop}
    (hstep : ∀ {s done a b s'}, P s done → step s a = .ok (b, s') → P s' (done ++ [a]))
    (done : List α) (hs : P s done) (h : runAll step s calls = .ok (bs, s')) :
    P s' (done ++ calls) := by
  induction calls generalizing s done bs with
  | nil =>
    cases h
    rwa [List.append_nil]
  | cons a calls ih =>
    obtain ⟨b, s₁, cs, hb, hcs, -⟩ := runAll_cons_eq_ok h
    rw [List.append_cons]
    exact ih _ (hstep hs hb) hcs

/-- What holds of a call and its answer from then on, if later calls keep it. -/
theorem runAll_answers {R : σ → α → β → Prop}
    (hnew : ∀ {s a b s'}, step s a = .ok (b, s') → R s' a b)
    (hkeep : ∀ {s a b a' b' s'}, R s a b → step s a' = .ok (b', s') → R s' a b)
    (h : runAll step s calls = .ok (bs, s')) : List.Forall₂ (R s') calls bs := by
  induction calls generalizing s bs with
  | nil =>
    cases h
    exact .nil
  | cons a calls ih =>
    obtain ⟨b, s₁, cs, hb, hcs, rfl⟩ := runAll_cons_eq_ok h
    have hlast : R s' a b :=
      runAll_keeps (P := fun s _ => R s a b) (fun hs => hkeep hs) [] (hnew hb) hcs
    exact .cons hlast (ih hcs)

end ScriptLowering
