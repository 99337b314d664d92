import ScriptLowering.Compile
import ScriptLowering.Source.WellFormed

/-!
# Properties of all nodes

A property that holds everywhere in a tree is the form in which a file promises
something of its constructs.  Lowering looks at most two levels down (a call at
the object of its callee), so induction on such a tree hands out both levels.

    (∀ e, P e) → e.Everywhere P                                   (everywhere_of_forall)
    Q of the parts and of their parts gives Q of the node → Q e        (Everywhere.induct₂)
-/

namespace ScriptLowering.Source

namespace Expr

/-- The property holds of the expression and of every node in it. -/
inductive Everywhere (P : Expr → Prop) : Expr → Prop
  | mk {e : Expr} (here : P e) (parts : ∀ c ∈ e.children, Everywhere P c) : Everywhere P e

/-- A part left out of a pattern. -/
def isElided : Expr → Bool
  | undefined _ => true
  | _ => false

/-- An assignment target whose leaves satisfy the property.  In a pattern the
parts are targets of their own. -/
inductive TargetOf (P : Expr → Prop) : Expr → Prop
  | leaf {e : Expr} (hp : e.isPattern = false) (h : P e) : TargetOf P e
  | array {info : NodeInfo} {es : List Expr}
      (h : ∀ e ∈ es, e.isElided = false → TargetOf P e) : TargetOf P (.array info es)
  | object {info : NodeInfo} {ps : List (String × Expr)}
      (h : ∀ p ∈ ps, p.2.isElided = false → TargetOf P p.2) : TargetOf P (.object info ps)

/-- What an assignment or an update writes to satisfies the property. -/
def TargetsAre (P : Expr → Prop) : Expr → Prop
  | binary _ .assign l _ | binary _ (.assignWith _) l _ => TargetOf P l
  | prefixed _ (.update _) l | postfixed _ _ l => P l
  | _ => True

/-- What can be written to: an identifier, a member or a pattern, in any parentheses. -/
def isAssignable : Expr → Bool
  | ident _ _ | property _ _ _ | element _ _ _ | array _ _ | object _ _ => true
  | paren _ inner => inner.isAssignable
  | _ => false

/-- An identifier or a member, in any parentheses. -/
def isLocation : Expr → Bool
  | ident _ _ | property _ _ _ | element _ _ _ => true
  | paren _ inner => inner.isLocation
  | _ => false

/-! ## Lemmas -/

variable {P : Expr → Prop}

theorem Everywhere.here {e : Expr} (h : e.Everywhere P) : P e := by
  cases h with
  | mk here _ => exact here

theorem Everywhere.parts {e : Expr} (h : e.Everywhere P) : ∀ c ∈ e.children, c.Everywhere P := by
  cases h with
  | mk _ parts => exact parts

theorem Everywhere.imp {Q : Expr → Prop} (hPQ : ∀ e, P e → Q e) {e : Expr} (h : e.Everywhere P) :
    e.Everywhere Q := by
  induction h with
  | mk here _ ih => exact .mk (hPQ _ here) ih

theorem sizeOf_lt_of_mem_children {c e : Expr} (h : c ∈ e.children) : sizeOf c < sizeOf e := by
  cases e with
  | call info f args =>
    rcases List.mem_cons.1 h with rfl | h
    · simp only [call.sizeOf_spec]
      omega
    · have := List.sizeOf_lt_of_mem h
      simp only [call.sizeOf_spec]
      omega
  | array info es =>
    have := List.sizeOf_lt_of_mem (show c ∈ es from h)
    simp only [array.sizeOf_spec]
    omega
  | object info ps =>
    obtain ⟨⟨name, e⟩, hp, rfl⟩ := List.mem_map.1 h
    have := List.sizeOf_lt_of_mem hp
    simp only [object.sizeOf_spec, Prod.mk.sizeOf_spec] at *
    omega
  | _ => simp only [children, List.not_mem_nil, List.mem_cons, or_false] at h <;> grind

theorem everywhere_of_forall (h : ∀ e, P e) (e : Expr) : e.Everywhere P :=
  .mk (h e) fun c _ => everywhere_of_forall h c
termination_by sizeOf e
decreasing_by exact sizeOf_lt_of_mem_children ‹_›

theorem TargetOf.of_not_pattern {e : Expr} (h : e.TargetOf P) (hp : e.isPattern = false) :
    P e := by
  cases h with
  | leaf _ h => exact h
  | array | object => cases hp

/-- Everything is a target of some kind. -/
theorem targetOf_true (e : Expr) : e.TargetOf fun _ => True := by
  have all := everywhere_of_forall (P := fun _ => True) (fun _ => trivial) e
  induction all with
  | @mk e _ _ ih =>
    cases hp : e.isPattern with
    | false => exact .leaf hp trivial
    | true =>
      cases e with
      | array info es => exact .array fun e he _ => ih e he
      | object info ps => exact .object fun p hp _ => ih p.2 (List.mem_map.2 ⟨p, hp, rfl⟩)
      | _ => cases hp

/-- Induction with the parts of a node and the parts of these. -/
theorem Everywhere.induct₂ {motive : Expr → Prop}
    (step : ∀ e, P e → (∀ c ∈ e.children, motive c) →
      (∀ c ∈ e.children, ∀ d ∈ c.children, motive d) → motive e)
    {e : Expr} (h : e.Everywhere P) : motive e := by
  have key : motive e ∧ ∀ c ∈ e.children, motive c := by
    induction h with
    | mk here _ ih =>
      have hc := fun c hc => (ih c hc).1
      exact ⟨step _ here hc fun c hm => (ih c hm).2, hc⟩
  exact key.1

end Expr

/-- The statements of the file as trees; of a well-formed file, all of them. -/
def File.body (f : File) : List (Stmt Expr) :=
  f.stmts.filterMap fun s => (s.read (f.arena.trees f.types)).toOption

/-- The property holds of all that the statements of the file are read as. -/
def File.Everywhere (P : Expr → Prop) (f : File) : Prop :=
  ∀ s ∈ f.stmts, ∀ s', s.read (f.arena.trees f.types) = .ok s' → ∀ e ∈ s'.expr?, e.Everywhere P

theorem File.Everywhere.imp {P Q : Expr → Prop} (hPQ : ∀ e, P e → Q e) {f : File}
    (h : f.Everywhere P) : f.Everywhere Q :=
  fun s hs s' hr e he => (h s hs s' hr e he).imp hPQ

theorem File.everywhere_of_forall {P : Expr → Prop} (h : ∀ e, P e) (f : File) : f.Everywhere P :=
  fun _ _ _ _ e _ => Expr.everywhere_of_forall h e

theorem File.mem_body {f : File} {s' : Stmt Expr} :
    s' ∈ f.body ↔ ∃ s ∈ f.stmts, s.read (f.arena.trees f.types) = .ok s' := by
  have ok (r : Except Fault (Stmt Expr)) : r.toOption = some s' ↔ r = .ok s' := by
    cases r <;> simp [Except.toOption]
  simp only [body, List.mem_filterMap, ok]

theorem File.everywhere_iff {P : Expr → Prop} {f : File} :
    f.Everywhere P ↔ ∀ s ∈ f.body, ∀ e ∈ s.expr?, e.Everywhere P := by
  simp only [Everywhere, mem_body]
  exact ⟨fun h s' ⟨s, hs, hr⟩ => h s hs s' hr, fun h s hs s' hr => h s' ⟨s, hs, hr⟩⟩

end ScriptLowering.Source
