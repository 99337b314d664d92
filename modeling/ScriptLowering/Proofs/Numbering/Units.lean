import ScriptLowering.Proofs.Numbering.Walkers

/-!
# Walks and the unit

What a walk does to the unit does not hang on the unit but for the ids of the
temporaries, and it only adds to it; the buffer of the lowerer is put back.  A
walk that does not panic needs an id for each temporary that it adds, so from a
lowerer with fewer ids left it panics.

    Uniform x: one result and one list of additions for every lowerer with ids for them
    x shifted by every count, x quiet → x uniform                        (uniform_of_shifted)
-/

namespace ScriptLowering.Walk

open Renumber (renumber)

variable {α β : Type}

/-! ## Algorithm -/

/-- The walk ends, with or without a result, and leaves the buffer as it was. -/
def EndsWith [Renumber α] (x : Walk α) (D : List Diagnostic) (T : List Temp) (H : HelperSet)
    (r : Except LowerError α) (l : Lowerer) : Prop :=
  x l = .ok (r.map (renumber l.unit.nextTemp),
    ⟨l.prereqs, ⟨l.unit.diagnostics.extend D, l.unit.temps ++ T.toArray, l.unit.helpers ∪ H⟩⟩)

/-- From every lowerer the walk panics, or from every one with enough ids it has the same
result, adds the same to the unit and leaves the buffer as it was; only the temporaries of
the result count from those already there.  Without enough ids it panics for want of one. -/
def Uniform [Renumber α] (x : Walk α) : Prop :=
  (∀ l, ∃ p, x l = .error p) ∨
    ∃ (D : List Diagnostic) (T : List Temp) (H : HelperSet) (r : Except LowerError α),
      ∀ l : Lowerer, (T.length ≤ l.idsLeft → x.EndsWith D T H r l) ∧
        (l.idsLeft < T.length → x l = .error .temps)

/-- From both lowerers the walk panics, or from both it has the same result, adds the same to the
unit and leaves the buffer as it was. -/
def Alike [Renumber α] (x : Walk α) (l l' : Lowerer) : Prop :=
  (∃ p p', x l = .error p ∧ x l' = .error p') ∨
    ∃ D T H r, x.EndsWith D T H r l ∧ x.EndsWith D T H r l'

/-- The walk leaves the buffer as it was, with or without a result. -/
def Quiet (x : Walk α) : Prop := ∀ l r l', x l = .ok (r, l') → l'.prereqs = l.prereqs

/-- `x++` -/
def updated : NamedFile where
  path := "updated.ts"
  arena := ⟨#[⟨.ident "x", .dummy⟩, ⟨.postfixed .increment ⟨0⟩, .dummy⟩], #[], #[]⟩
  types := .fresh
  stmts := [⟨.expr ⟨1⟩, .dummy⟩]
  names := .fresh

/-! ## Lemmas -/

namespace Quiet

theorem capture (x : Walk α) : Quiet (capture x) := by
  intro l r l' h
  unfold Walk.capture at h
  split at h <;> cases h
  rfl

theorem pure (a : α) : Quiet (pure a : Walk α) := by
  rintro l r l' ⟨⟩
  rfl

theorem bind {x : Walk α} {g : α → Walk β} (hx : Quiet x) (hg : ∀ a, Quiet (g a)) :
    Quiet (x >>= g) := by
  intro l r l' h
  rw [bind_apply] at h
  split at h
  next a l₁ hx₁ => exact (hg a l₁ r l' h).trans (hx l _ l₁ hx₁)
  next err l₁ hx₁ =>
    cases h
    exact hx l _ _ hx₁
  · cases h

end Quiet

section

variable {f : NamedFile} {w : Walker}

theorem quiet_expressionStatement (e : ExprId) : Quiet (expressionStatement f w e) :=
  (Quiet.capture _).bind fun _ => .pure _

theorem quiet_topLevel (s : Source.Stmt ExprId) : Quiet (topLevel f w s) := by
  obtain ⟨kind, span⟩ := s
  cases kind with
  | expr e => exact quiet_expressionStatement e
  | letDecl name init =>
    cases init with
    | none => exact .pure _
    | some init => exact (Quiet.capture _).bind fun _ => .pure _
  | importDecl | exportDecl => exact .pure _

end

/-- What was added to a lowerer without anything can be read off it. -/
theorem extend_empty_injective {a b : Effects}
    (h : Lowerer.extend ⟨[], .empty⟩ a = Lowerer.extend ⟨[], .empty⟩ b) : a = b := by
  have hdiagnostics := congrArg (·.unit.diagnostics.toList) h
  have htemps := congrArg (·.unit.temps.toList) h
  have hhelpers := congrArg (·.unit.helpers) h
  simp only [Lowerer.extend, UnitState.extend, UnitState.empty] at hdiagnostics htemps hhelpers
  refine Effects.ext_fields (congrArg Lowerer.prereqs h) ?_ ?_ ?_
  · simpa using hdiagnostics
  · simpa using htemps
  · simpa only [HelperSet.empty_union] using hhelpers

/-- What a walk does from the first id, counted up, it does from every id that is left. -/
theorem uniform_of_shifted [Renumber α] {x : Walk α} (hs : ∀ k, Shifted k x x) (hq : Quiet x) :
    Uniform x := by
  let first : Lowerer := ⟨[], .empty⟩
  have from_first (l : Lowerer) := hs l.unit.nextTemp first l (Nat.zero_add _).symm
  cases hx : x first with
  | error p =>
    refine .inl fun l => ?_
    obtain ⟨_, p', -, hl⟩ | ⟨r, e, hfirst, -⟩ := from_first l
    · exact ⟨p', hl⟩
    · cases hx.symm.trans hfirst
  | ok answer =>
    obtain ⟨_, _, hfirst, -⟩ | ⟨r, e, hfirst, -⟩ := from_first first
    · cases hx.symm.trans hfirst
    have hstmts : e.stmts = [] := hq first r _ hfirst
    refine .inr ⟨e.diagnostics, e.temps, e.helpers, r, fun l => ?_⟩
    obtain ⟨_, _, hpanic, -⟩ | ⟨r', e', hfirst', hl⟩ := from_first l
    · cases hx.symm.trans hpanic
    obtain ⟨rfl, hsame⟩ := Prod.mk.inj (Except.ok.inj (hfirst.symm.trans hfirst'))
    obtain rfl := extend_empty_injective hsame
    refine ⟨fun hroom => ?_, fun hfull => hl.trans (if_neg (Nat.not_le_of_lt hfull))⟩
    have hkept : l.extend (e.shift l.unit.nextTemp) = { l with unit := l.unit.extend e } :=
      l.extend_of_no_stmts (by rw [Effects.shift, hstmts]; rfl)
    rw [if_pos hroom, hkept] at hl
    exact hl

/-- A walk that adds a temporary is not begun alike where no id is left. -/
theorem Uniform.not_alike [Renumber α] {x : Walk α} (h : Uniform x) {l l' full : Lowerer}
    {r : Except LowerError α} (hx : x l = .ok (r, l'))
    (hmore : l.unit.nextTemp < l'.unit.nextTemp) (hfull : full.idsLeft = 0) : ¬Alike x l full := by
  obtain hpanics | ⟨D, T, H, r', hends⟩ := h
  · obtain ⟨p, hp⟩ := hpanics l
    cases hx.symm.trans hp
  have hroom : T.length ≤ l.idsLeft := Nat.le_of_not_lt fun hlt => by
    cases hx.symm.trans ((hends l).2 hlt)
  have hadds : 0 < T.length := by
    obtain ⟨-, rfl⟩ := Prod.mk.inj (Except.ok.inj (hx.symm.trans ((hends l).1 hroom)))
    simpa [UnitState.nextTemp] using hmore
  have hpanic : x full = .error .temps := (hends full).2 (hfull ▸ hadds)
  rintro (⟨p, _, hp, -⟩ | ⟨_, _, _, _, -, hend⟩)
  · cases hx.symm.trans hp
  · cases hpanic.symm.trans hend

/-! ## Main results -/

/-- Expressions, expression statements, writable targets and statements of any file are walked in
the same way from every lowerer, as far as there are ids. -/
theorem walks_uniform (f : NamedFile) (depth : Nat) (e : ExprId) (readAfterWrite : Bool)
    (s : Source.Stmt ExprId) :
    Uniform (expression (walker f depth) e) ∧
      Uniform (expressionStatement f (walker f depth) e) ∧
      Uniform (writableTarget f (walker f depth) e readAfterWrite) ∧
      Uniform (topLevel f (walker f depth) s) := by
  have hw (k : Nat) := shifted_walker k f depth
  refine ⟨?_, ?_, ?_, ?_⟩
  · exact uniform_of_shifted (fun k => ((hw k).value e).capture) (.capture _)
  · exact uniform_of_shifted (fun k => shifted_expressionStatement (hw k) e)
      (quiet_expressionStatement e)
  · exact uniform_of_shifted (fun k => shifted_writableTarget (hw k) e readAfterWrite) (.capture _)
  · exact uniform_of_shifted (fun k => shifted_topLevel (hw k) s) (quiet_topLevel s)

/-- `x++` needs a temporary, and all ids may be given away. -/
theorem not_alike_updated :
    let full : UnitState := { UnitState.empty with temps := Array.replicate tempLimit ⟨"", .dummy⟩ }
    ¬Alike (expression (walker updated 2) ⟨1⟩) ⟨[], .empty⟩ ⟨[], full⟩ := by
  intro full
  have hu : Uniform (expression (walker updated 2) ⟨1⟩) :=
    uniform_of_shifted (fun k => ((shifted_walker k updated 2).value ⟨1⟩).capture) (.capture _)
  have hfull : Lowerer.idsLeft ⟨[], full⟩ = 0 := by
    rw [Lowerer.idsLeft, UnitState.nextTemp, Array.size_replicate, Nat.sub_self]
  obtain ⟨r, l', hx, hone⟩ : ∃ r l', expression (walker updated 2) ⟨1⟩ ⟨[], .empty⟩ = .ok (r, l') ∧
      0 < l'.unit.nextTemp := ⟨_, _, rfl, by decide⟩
  exact hu.not_alike hx hone hfull

end ScriptLowering.Walk
