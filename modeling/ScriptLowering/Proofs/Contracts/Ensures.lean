import ScriptLowering.Proofs.Target.Formed
import ScriptLowering.Proofs.Temporaries.Assignments

/-!
# Actions under a contract

A contract says where emitted code may write to and which faults may be raised.
An action ensures a property of its result when, from every id on, it ends in a
result with the property and has emitted formed code, in a hard error, or in a
fault that the contract allows.

    x ensures Q, and f a ensures R for each a with Q → x >>= f ensures R             (bind)
    x ensures Q → x.capture ensures Q of the result and formed statements           (capture)
-/

namespace ScriptLowering.Lower

open Target (Expr Stmt)
open Target.Stmt (FormedAll)

structure Contract where
  writable : Expr → Prop
  members : AllowsMembers writable
  temp (id : Nat) : writable (.temp id)
  allowed : Fault → Prop

/-- A way to end that keeps the contract. -/
def Contract.Kept {α : Type} (K : Contract) (Q : α → Prop) : Except Stop α × Effects → Prop
  | (.ok a, e) => FormedAll K.writable e.stmts ∧ Q a
  | (.error (.fault f), _) => K.allowed f
  | (.error (.error _), _) => True

def Ensures {α : Type} (K : Contract) (x : Lower α) (Q : α → Prop) : Prop := ∀ n, K.Kept Q (x n)

/-! ## Lemmas -/

variable {α β : Type} {K : Contract} {Q : α → Prop} {R : β → Prop}

namespace Ensures

theorem of_ok {x : Lower α} (hx : Ensures K x Q) {n : Nat} {a : α} {e : Effects}
    (h : x n = (.ok a, e)) : FormedAll K.writable e.stmts ∧ Q a := by
  have := hx n
  rwa [h] at this

theorem pure {a : α} (h : Q a) : Ensures K (pure a) Q := fun _ => ⟨trivial, h⟩

theorem fail (e : LowerError) : Ensures K (fail e) Q := fun _ => trivial

theorem effect {e : Effects} (h : FormedAll K.writable e.stmts) :
    Ensures K (effect e) fun _ => True := fun _ => ⟨h, trivial⟩

theorem bind {x : Lower α} {f : α → Lower β} (hx : Ensures K x Q)
    (hf : ∀ a, Q a → Ensures K (f a) R) : Ensures K (x >>= f) R := by
  intro n
  have h := hx n
  rw [bind_apply]
  revert h
  rcases x n with ⟨_ | a, e⟩
  next s => cases s <;> exact id
  next =>
    rintro ⟨hs, ha⟩
    have h' := hf a ha (n + e.temps.length)
    revert h'
    simp only
    rcases f a (n + e.temps.length) with ⟨_ | b, e'⟩
    next s => cases s <;> exact id
    next => exact fun ⟨hs', hb⟩ => ⟨(Stmt.formedAll_append _ _).2 ⟨hs, hs'⟩, hb⟩

/-- What is known of a result whenever there is one may be added to what is ensured. -/
theorem and {P : α → Prop} {x : Lower α} (hx : Ensures K x Q)
    (h : ∀ ⦃n a e⦄, x n = (.ok a, e) → P a) : Ensures K x fun a => Q a ∧ P a := by
  intro n
  have hn := hx n
  rcases hr : x n with ⟨_ | a, e⟩ <;> rw [hr] at hn
  next s => cases s <;> exact hn
  next => exact ⟨hn.1, hn.2, h hr⟩

theorem map {x : Lower α} {g : α → β} (hx : Ensures K x Q) (h : ∀ a, Q a → R (g a)) :
    Ensures K (g <$> x) R := by
  rw [map_eq_pure_bind]
  exact hx.bind fun a ha => .pure (h a ha)

theorem capture {x : Lower α} (hx : Ensures K x Q) :
    Ensures K x.capture fun p => Q p.1 ∧ FormedAll K.writable p.2 := by
  intro n
  have h := hx n
  unfold Lower.capture
  revert h
  rcases x n with ⟨_ | a, e⟩
  next s => cases s <;> exact id
  next => exact fun ⟨hs, ha⟩ => ⟨trivial, ha, hs⟩

theorem ofError {x : Except LowerError α} (h : ∀ a, x = .ok a → Q a) : Ensures K (ofError x) Q := by
  cases x with
  | error e => exact fail e
  | ok a => exact pure (h a rfl)

theorem ofFault {x : Except Fault α} (h : ∀ a, x = .ok a → Q a)
    (hf : ∀ f, x = .error f → K.allowed f) : Ensures K (ofFault x) Q := by
  cases x with
  | error f => exact fun _ => hf f rfl
  | ok a => exact pure (h a rfl)

end Ensures

/-! ### Statements and temporaries -/

theorem ensures_emit {s : Stmt} (h : s.Formed K.writable) : Ensures K (emit s) fun _ => True :=
  .effect ⟨h, trivial⟩

theorem ensures_emitAll {ss : List Stmt} (h : FormedAll K.writable ss) :
    Ensures K (emitAll ss) fun _ => True := .effect h

theorem ensures_report (kind : DiagnosticKind) (span : Span) (message : String) :
    Ensures K (report kind span message) fun _ => True := .effect trivial

theorem ensures_useHelper (h : Helper) : Ensures K (useHelper h) fun _ => True := .effect trivial

theorem ensures_checkNotAny (pool : TypePool) (info : Source.NodeInfo) :
    Ensures K (checkNotAny pool info) fun _ => True := by
  unfold checkNotAny
  split
  · exact ensures_report _ _ _
  · exact .pure trivial

variable {hint : String} {span : Span} {v : Expr}

theorem ensures_pushTemp (h : v.Formed) : Ensures K (pushTemp hint span v) Expr.Formed := by
  intro n
  rw [pushTemp_apply]
  exact ⟨⟨h, trivial⟩, trivial⟩

theorem ensures_pushTempIfComplex (h : v.Formed) :
    Ensures K (pushTempIfComplex hint span v) Expr.Formed := by
  unfold pushTempIfComplex
  split
  · exact .pure h
  · exact ensures_pushTemp h

theorem ensures_pushTempIfUnstable (h : v.Formed) :
    Ensures K (pushTempIfUnstable hint span v) Expr.Formed := by
  unfold pushTempIfUnstable
  split
  · exact .pure h
  · exact ensures_pushTemp h

/-! ### Operands -/

/-- A captured operand has a formed value after formed statements. -/
structure Captured.Formed (K : Contract) (c : Captured) : Prop where
  value : c.value.Formed
  stmts : FormedAll K.writable c.stmts

theorem ensures_operand {x : Operand} (h : Ensures K x.lower Expr.Formed) :
    Ensures K x.capture (Captured.Formed K) := by
  unfold Operand.capture
  refine h.capture.bind ?_
  rintro ⟨v, ss⟩ ⟨hv, hss⟩
  exact .pure ⟨hv, hss⟩

theorem ensures_captureAll {xs : List Operand} (h : ∀ x ∈ xs, Ensures K x.lower Expr.Formed) :
    Ensures K (captureAll xs) fun cs => ∀ c ∈ cs, c.Formed K := by
  induction xs with
  | nil => exact .pure nofun
  | cons x xs ih =>
    obtain ⟨hx, hxs⟩ := List.forall_mem_cons.1 h
    refine (ensures_operand hx).bind ?_
    intro c hc
    refine (ih hxs).bind ?_
    intro cs hcs
    exact .pure (List.forall_mem_cons.2 ⟨hc, hcs⟩)

theorem ensures_settle {c : Captured} (h : c.Formed K) (later : List Captured) :
    Ensures K (settle c later) Expr.Formed := by
  unfold settle
  refine (ensures_emitAll h.stmts).bind ?_
  intro _ _
  split
  · exact ensures_pushTempIfUnstable h.value
  · exact .pure h.value

theorem ensures_settleAll {cs : List Captured} (h : ∀ c ∈ cs, c.Formed K) :
    Ensures K (settleAll cs) Expr.FormedList := by
  induction cs with
  | nil => exact .pure trivial
  | cons c later ih =>
    obtain ⟨hc, hlater⟩ := List.forall_mem_cons.1 h
    refine (ensures_settle hc later).bind ?_
    intro v hv
    refine (ih hlater).bind ?_
    intro vs hvs
    exact .pure ⟨hv, hvs⟩

theorem ensures_inOrder {xs : List Operand} (h : ∀ x ∈ xs, Ensures K x.lower Expr.Formed) :
    Ensures K (inOrder xs) Expr.FormedList :=
  (ensures_captureAll h).bind fun _ => ensures_settleAll

theorem ensures_inOrderCons {x : Operand} {xs : List Operand}
    (hx : Ensures K x.lower Expr.Formed) (hxs : ∀ x ∈ xs, Ensures K x.lower Expr.Formed) :
    Ensures K (inOrderCons x xs) fun p => p.1.Formed ∧ Expr.FormedList p.2 := by
  refine (ensures_operand hx).bind ?_
  intro c hc
  refine (ensures_captureAll hxs).bind ?_
  intro later hlater
  refine (ensures_settle hc later).bind ?_
  intro v hv
  refine (ensures_settleAll hlater).bind ?_
  intro vs hvs
  exact .pure ⟨hv, hvs⟩

theorem ensures_inOrderPair {x y : Operand} (hx : Ensures K x.lower Expr.Formed)
    (hy : Ensures K y.lower Expr.Formed) :
    Ensures K (inOrderPair x y) fun p => p.1.Formed ∧ p.2.Formed := by
  refine (ensures_operand hx).bind ?_
  intro c hc
  refine (ensures_operand hy).bind ?_
  intro d hd
  refine (ensures_settle hc [d]).bind ?_
  intro v hv
  refine (ensures_settle hd []).bind ?_
  intro u hu
  exact .pure ⟨hv, hu⟩

end ScriptLowering.Lower
