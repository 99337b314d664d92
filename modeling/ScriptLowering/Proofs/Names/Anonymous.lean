import ScriptLowering.Proofs.Lowering.Emitted
import ScriptLowering.Proofs.Target.Locals

/-!
# Actions that declare no names

Lowering an expression declares temporaries only.  An action is *anonymous* when
neither the statements that it emits nor those set apart in its result declare a
name.

    x anonymous, and f a anonymous for each nameless a → x >>= f anonymous          (bind)
    x anonymous → x.capture anonymous                                            (capture)
    operands anonymous → inOrder of them anonymous                    (anonymous_inOrder)
-/

namespace ScriptLowering

open Target (Expr Stmt)

/-! ## Algorithm -/

/-- Results with statements in them. -/
class Nameless (α : Type) where
  /-- No statement of the result declares a name. -/
  nameless : α → Prop

open Nameless (nameless)

instance : Nameless Unit := ⟨fun _ => True⟩

instance : Nameless Expr := ⟨fun _ => True⟩

instance : Nameless Stmt := ⟨fun s => s.local? = none⟩

instance {α : Type} [Nameless α] : Nameless (List α) := ⟨fun as => ∀ a ∈ as, nameless a⟩

instance {α : Type} [Nameless α] : Nameless (Option α) := ⟨fun o => ∀ a ∈ o, nameless a⟩

instance {α β : Type} [Nameless α] [Nameless β] : Nameless (α × β) :=
  ⟨fun p => nameless p.1 ∧ nameless p.2⟩

namespace Lower

instance : Nameless Place := ⟨fun _ => True⟩

instance : Nameless Reference := ⟨fun _ => True⟩

instance : Nameless WritableTarget := ⟨fun _ => True⟩

instance : Nameless Captured := ⟨fun c => nameless c.stmts⟩

/-- With a result, neither the emitted statements nor the result declare a name. -/
def Anonymous {α : Type} [Nameless α] (x : Lower α) : Prop :=
  ∀ ⦃n a e⦄, x n = (.ok a, e) → nameless e.stmts ∧ nameless a

/-! ## Lemmas -/

theorem nameless_nil {α : Type} [Nameless α] : nameless ([] : List α) := nofun

theorem nameless_cons {α : Type} [Nameless α] {a : α} {as : List α} (ha : nameless a)
    (has : nameless as) : nameless (a :: as) := List.forall_mem_cons.2 ⟨ha, has⟩

theorem nameless_append {α : Type} [Nameless α] {as bs : List α} (ha : nameless as)
    (hb : nameless bs) : nameless (as ++ bs) := List.forall_mem_append.2 ⟨ha, hb⟩

theorem nameless_iff_locals {ss : List Stmt} : nameless ss ↔ Stmt.locals ss = [] :=
  Stmt.locals_eq_nil_iff.symm

variable {α β : Type} [Nameless α] [Nameless β]

namespace Anonymous

variable {x : Lower α} {f : α → Lower β}

theorem pure {a : α} (h : nameless a) : Anonymous (pure a) := by
  rintro n _ _ ⟨⟩
  exact ⟨nameless_nil, h⟩

theorem stop (s : Stop) : Anonymous (stop s : Lower α) := by
  rintro n a e ⟨⟩

theorem fail (e : LowerError) : Anonymous (fail e : Lower α) := stop _

theorem effect {e : Effects} (h : nameless e.stmts) : Anonymous (effect e) := by
  rintro n _ _ ⟨⟩
  exact ⟨h, trivial⟩

theorem bind (hx : Anonymous x) (hf : ∀ a, nameless a → Anonymous (f a)) :
    Anonymous (x >>= f) := by
  intro n b e h
  obtain ⟨a, e₁, e₂, h₁, h₂, rfl⟩ := bind_eq_ok.1 h
  obtain ⟨hs₁, ha⟩ := hx h₁
  obtain ⟨hs₂, hb⟩ := hf a ha h₂
  exact ⟨nameless_append hs₁ hs₂, hb⟩

theorem map {g : α → β} (hx : Anonymous x) (hg : ∀ a, nameless a → nameless (g a)) :
    Anonymous (g <$> x) := by
  rw [map_eq_pure_bind]
  exact hx.bind fun a ha => .pure (hg a ha)

theorem capture (hx : Anonymous x) : Anonymous x.capture := by
  rintro n ⟨a, ss⟩ e h
  obtain ⟨e₁, h₁, rfl, rfl⟩ := capture_eq_ok.1 h
  obtain ⟨hs, ha⟩ := hx h₁
  exact ⟨nameless_nil, ha, hs⟩

/-- What is looked up without the state holds no statements. -/
theorem ofError_bind {γ : Type} {x : Except LowerError γ} {f : γ → Lower β}
    (hf : ∀ a, Anonymous (f a)) : Anonymous (ofError x >>= f) := by
  cases x with
  | error e => exact fail e
  | ok a =>
    rw [ofError, pure_bind]
    exact hf a

theorem ofFault_bind {γ : Type} {x : Except Fault γ} {f : γ → Lower β}
    (hf : ∀ a, Anonymous (f a)) : Anonymous (ofFault x >>= f) := by
  cases x with
  | error e => exact stop (.fault e)
  | ok a =>
    rw [ofFault, pure_bind]
    exact hf a

end Anonymous

/-! ### Statements and temporaries -/

theorem anonymous_emit {s : Stmt} (h : s.local? = none) : Anonymous (emit s) :=
  .effect (nameless_cons h nameless_nil)

theorem anonymous_emitAll {ss : List Stmt} (h : nameless ss) : Anonymous (emitAll ss) := .effect h

theorem anonymous_report (kind : DiagnosticKind) (span : Span) (message : String) :
    Anonymous (report kind span message) := .effect nameless_nil

theorem anonymous_useHelper (h : Helper) : Anonymous (useHelper h) := .effect nameless_nil

theorem anonymous_checkNotAny (pool : TypePool) (info : Source.NodeInfo) :
    Anonymous (checkNotAny pool info) := by
  unfold checkNotAny
  split
  · exact anonymous_report _ _ _
  · exact .pure trivial

theorem anonymous_pushTemp (hint : String) (span : Span) (v : Expr) :
    Anonymous (pushTemp hint span v) := by
  intro n a e h
  cases (pushTemp_apply hint span v n).symm.trans h
  exact ⟨nameless_cons rfl nameless_nil, trivial⟩

theorem anonymous_pushTempIfComplex (hint : String) (span : Span) (v : Expr) :
    Anonymous (pushTempIfComplex hint span v) := by
  unfold pushTempIfComplex
  split
  · exact .pure trivial
  · exact anonymous_pushTemp hint span v

theorem anonymous_pushTempIfUnstable (hint : String) (span : Span) (v : Expr) :
    Anonymous (pushTempIfUnstable hint span v) := by
  unfold pushTempIfUnstable
  split
  · exact .pure trivial
  · exact anonymous_pushTemp hint span v

/-! ### Operands -/

theorem anonymous_operand {x : Operand} (hx : Anonymous x.lower) : Anonymous x.capture := by
  unfold Operand.capture
  apply hx.capture.bind
  rintro ⟨v, ss⟩ ⟨-, hss⟩
  exact .pure hss

theorem anonymous_captureAll {xs : List Operand} (hx : ∀ x ∈ xs, Anonymous x.lower) :
    Anonymous (captureAll xs) := by
  induction xs with
  | nil => exact .pure nameless_nil
  | cons x xs ih =>
    obtain ⟨hfirst, hrest⟩ := List.forall_mem_cons.1 hx
    apply (anonymous_operand hfirst).bind
    intro c hc
    apply (ih hrest).bind
    intro cs hcs
    exact .pure (nameless_cons hc hcs)

theorem anonymous_settle {c : Captured} (hc : nameless c) (later : List Captured) :
    Anonymous (settle c later) := by
  unfold settle
  apply (anonymous_emitAll hc).bind
  intro _ _
  split
  · exact anonymous_pushTempIfUnstable _ _ _
  · exact .pure trivial

theorem anonymous_settleAll {cs : List Captured} (hcs : nameless cs) :
    Anonymous (settleAll cs) := by
  induction cs with
  | nil => exact .pure nameless_nil
  | cons c later ih =>
    obtain ⟨hc, hlater⟩ := List.forall_mem_cons.1 hcs
    apply (anonymous_settle hc later).bind
    intro v hv
    apply (ih hlater).bind
    intro vs hvs
    exact .pure (nameless_cons hv hvs)

theorem anonymous_inOrder {xs : List Operand} (hx : ∀ x ∈ xs, Anonymous x.lower) :
    Anonymous (inOrder xs) := (anonymous_captureAll hx).bind fun _ => anonymous_settleAll

theorem anonymous_inOrderCons {x : Operand} {xs : List Operand}
    (hx : ∀ y ∈ x :: xs, Anonymous y.lower) : Anonymous (inOrderCons x xs) := by
  intro n p e h
  obtain ⟨hs, hvs⟩ := anonymous_inOrder hx (inOrderCons_eq_ok h)
  exact ⟨hs, List.forall_mem_cons.1 hvs⟩

theorem anonymous_inOrderPair {x y : Operand} (hx : Anonymous x.lower) (hy : Anonymous y.lower) :
    Anonymous (inOrderPair x y) := by
  intro n p e h
  have hxy : ∀ z ∈ [x, y], Anonymous z.lower := by simp [hx, hy]
  obtain ⟨hs, -⟩ := anonymous_inOrder hxy (inOrderPair_eq_ok h)
  exact ⟨hs, trivial, trivial⟩

end Lower

end ScriptLowering
