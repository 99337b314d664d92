import ScriptLowering.Proofs.Lowering.Emitted
import ScriptLowering.Proofs.Target.Members

/-!
# Flags and references

A helper namespace is flagged when lowering builds a reference to it.  So what an
action emits, together with its result, refers to the namespace exactly if what
went into the action does or the action sets the flag.

    x from what refers if p, and f a from what refers if a does → x >>= f from p       (bind)
    f from p and the namespace k → useHelper k >>= f from p               (useHelper_bind)
-/

namespace ScriptLowering

open Target (Expr Stmt)

/-! ## Algorithm -/

/-- Results that may refer to a helper namespace. -/
class Refers (α : Type) where
  /-- A member of the support library is named, and it holds the namespace. -/
  refers (h : Helper) : α → Prop
  /-- The result is not the support library itself. -/
  proper : α → Prop

open Refers (refers proper)

instance : Refers Unit := ⟨fun _ _ => False, fun _ => True⟩

instance : Refers Expr := ⟨fun h e => h.field ∈ e.members "TS", fun e => e.isTable "TS" = false⟩

instance : Refers Stmt := ⟨fun h s => h.field ∈ s.members "TS", fun _ => True⟩

instance {α : Type} [Refers α] : Refers (List α) :=
  ⟨fun h as => ∃ a ∈ as, refers h a, fun as => ∀ a ∈ as, proper a⟩

instance {α : Type} [Refers α] : Refers (Option α) :=
  ⟨fun h o => ∃ a ∈ o, refers h a, fun o => ∀ a ∈ o, proper a⟩

instance {α β : Type} [Refers α] [Refers β] : Refers (α × β) :=
  ⟨fun h p => refers h p.1 ∨ refers h p.2, fun p => proper p.1 ∧ proper p.2⟩

namespace Lower

instance : Refers Captured :=
  ⟨fun h c => refers h c.stmts ∨ refers h c.value, fun c => proper c.value⟩

/-- With a result, the statements and the result refer to the namespace exactly
if `p` or the namespace is flagged. -/
def Flagged {α : Type} [Refers α] (h : Helper) (x : Lower α) (p : Prop) : Prop :=
  ∀ ⦃n a e⦄, x n = (.ok a, e) →
    proper a ∧ (refers h e.stmts ∨ refers h a ↔ p ∨ e.helpers.contains h = true)

/-! ## Lemmas -/

variable {α β : Type} [Refers α] [Refers β] {h : Helper} {p q : Prop}

@[simp] theorem refers_unit (u : Unit) : refers h u ↔ False := .rfl

@[simp] theorem refers_pair (a : α) (b : β) : refers h (a, b) ↔ refers h a ∨ refers h b := .rfl

@[simp] theorem refers_nil : refers h ([] : List α) ↔ False := by simp [refers]

@[simp] theorem proper_nil : proper ([] : List α) ↔ True := by simp [proper]

@[simp] theorem refers_cons (a : α) (as : List α) :
    refers h (a :: as) ↔ refers h a ∨ refers h as := by simp [refers]

@[simp] theorem proper_cons (a : α) (as : List α) : proper (a :: as) ↔ proper a ∧ proper as := by
  simp [proper]

@[simp] theorem refers_append (as bs : List α) :
    refers h (as ++ bs) ↔ refers h as ∨ refers h bs := by
  simp [refers, or_and_right, exists_or]

theorem refers_membersAll (ss : List Stmt) :
    refers h ss ↔ h.field ∈ Stmt.membersAll "TS" ss := by
  induction ss with
  | nil => simp
  | cons s ss ih =>
    rw [refers_cons, ih, Stmt.membersAll, List.mem_append]
    rfl

namespace Flagged

variable {x : Lower α} {f : α → Lower β}

theorem congr (hx : Flagged h x p) (hpq : p ↔ q) : Flagged h x q := propext hpq ▸ hx

theorem pure {a : α} (hp : proper a) (ha : refers h a ↔ p) : Flagged h (pure a) p := by
  rintro n _ _ ⟨⟩
  exact ⟨hp, by simp [ha, Effects.none]⟩

theorem stop (s : Stop) : Flagged h (stop s : Lower α) p := by
  rintro n a e ⟨⟩

theorem fail (e : LowerError) : Flagged h (fail e : Lower α) p := stop _

/-- An action in the context of something else, `r`, that refers to the namespace. -/
theorem bind_result {r : Prop} (hx : Flagged h x p)
    (hf : ∀ {n a e}, x n = (.ok a, e) → proper a → Flagged h (f a) (r ∨ refers h a)) :
    Flagged h (x >>= f) (r ∨ p) := by
  intro n b e hok
  obtain ⟨a, e₁, e₂, h₁, h₂, rfl⟩ := bind_eq_ok.1 hok
  obtain ⟨hp, hx⟩ := hx h₁
  obtain ⟨hb, hf⟩ := hf h₁ hp h₂
  refine ⟨hb, ?_⟩
  simp only [Effects.stmts_append, Effects.helpers_append, HelperSet.contains_union,
    Bool.or_eq_true, refers_append]
  calc (refers h e₁.stmts ∨ refers h e₂.stmts) ∨ refers h b
      ↔ refers h e₁.stmts ∨ r ∨ refers h a ∨ e₂.helpers.contains h = true := by
        rw [or_assoc, hf, or_assoc]
    _ ↔ r ∨ (refers h e₁.stmts ∨ refers h a) ∨ e₂.helpers.contains h = true := by
        rw [or_left_comm, or_assoc]
    _ ↔ (r ∨ p) ∨ e₁.helpers.contains h = true ∨ e₂.helpers.contains h = true := by
        rw [hx, or_assoc, or_assoc]

theorem bind_after {r : Prop} (hx : Flagged h x p)
    (hf : ∀ a, proper a → Flagged h (f a) (r ∨ refers h a)) : Flagged h (x >>= f) (r ∨ p) :=
  bind_result hx fun _ ha => hf _ ha

/-- An action that begins with nothing, in the context of what goes into the next one. -/
theorem bind_fresh (hx : Flagged h x False)
    (hf : ∀ a, proper a → Flagged h (f a) (p ∨ refers h a)) : Flagged h (x >>= f) p :=
  (bind_after hx hf).congr (by rw [or_false])

/-- An action that goes on with a result known to come from the first one. -/
theorem bind_ok (hx : Flagged h x p)
    (hf : ∀ {n a e}, x n = (.ok a, e) → proper a → Flagged h (f a) (refers h a)) :
    Flagged h (x >>= f) p := by
  have hfalse := hx.bind_result (r := False) fun hok ha => (hf hok ha).congr (by rw [false_or])
  exact hfalse.congr (by rw [false_or])

theorem bind (hx : Flagged h x p) (hf : ∀ a, proper a → Flagged h (f a) (refers h a)) :
    Flagged h (x >>= f) p := hx.bind_ok fun _ ha => hf _ ha

/-- Two actions, of which the first has no result to go on with. -/
theorem bind_unit {x : Lower Unit} {f : Unit → Lower β} (hx : Flagged h x q)
    (hf : Flagged h (f ()) p) : Flagged h (x >>= f) (p ∨ q) :=
  bind_after hx fun _ _ => hf.congr (by rw [refers_unit, or_false])

theorem map {g : α → β} (hx : Flagged h x p)
    (hg : ∀ a, proper a → proper (g a) ∧ (refers h (g a) ↔ refers h a)) :
    Flagged h (g <$> x) p := by
  rw [map_eq_pure_bind]
  exact hx.bind fun a ha => .pure (hg a ha).1 (hg a ha).2

theorem capture (hx : Flagged h x p) : Flagged h x.capture p := by
  rintro n ⟨a, ss⟩ e hok
  obtain ⟨e₁, h₁, rfl, rfl⟩ := capture_eq_ok.1 hok
  obtain ⟨hp, hx⟩ := hx h₁
  refine ⟨⟨hp, fun _ _ => trivial⟩, ?_⟩
  rw [refers_pair, Effects.stmts_withoutStmts, refers_nil, false_or, or_comm]
  exact hx

theorem ofError_bind {γ : Type} {x : Except LowerError γ} {f : γ → Lower β}
    (hf : ∀ a, x = .ok a → Flagged h (f a) p) : Flagged h (ofError x >>= f) p := by
  cases x with
  | error e => rintro n b e ⟨⟩
  | ok a =>
    rw [Lower.ofError, pure_bind]
    exact hf a rfl

theorem ofFault_bind {γ : Type} {x : Except Fault γ} {f : γ → Lower β}
    (hf : ∀ a, x = .ok a → Flagged h (f a) p) : Flagged h (ofFault x >>= f) p := by
  cases x with
  | error e => rintro n b e ⟨⟩
  | ok a =>
    rw [Lower.ofFault, pure_bind]
    exact hf a rfl

/-- Once a namespace is flagged, what follows refers to it. -/
theorem useHelper_bind {k : Helper} {f : Unit → Lower β} (hf : Flagged h (f ()) (k = h ∨ p)) :
    Flagged h (useHelper k >>= f) p := by
  intro n b e hok
  obtain ⟨_, e₁, e₂, h₁, h₂, rfl⟩ := bind_eq_ok.1 hok
  cases h₁
  obtain ⟨hb, hf⟩ := hf h₂
  refine ⟨hb, ?_⟩
  simp only [Effects.stmts_append, Effects.helpers_append, HelperSet.contains_union,
    Bool.or_eq_true, refers_append]
  have hk : (Effects.ofHelper k).helpers.contains h = true ↔ k = h := by
    simp [Effects.ofHelper]
  have hnone : refers h (Effects.ofHelper k).stmts ↔ False := refers_nil
  rw [hk, hnone, false_or, hf, or_right_comm, or_comm, or_left_comm]

end Flagged

/-! ### Statements and temporaries -/

theorem flagged_emit (s : Stmt) : Flagged h (emit s) (refers h s) := by
  rintro n _ e ⟨⟩
  exact ⟨trivial, by simp [Effects.ofStmts, Effects.none]⟩

theorem flagged_emitAll (ss : List Stmt) : Flagged h (emitAll ss) (refers h ss) := by
  rintro n _ e ⟨⟩
  exact ⟨trivial, by simp [Effects.ofStmts, Effects.none]⟩

theorem flagged_report (kind : DiagnosticKind) (span : Span) (message : String) :
    Flagged h (report kind span message) False := by
  rintro n _ e ⟨⟩
  exact ⟨trivial, by simp [Effects.ofDiagnostic, Effects.none]⟩

theorem flagged_checkNotAny (pool : TypePool) (info : Source.NodeInfo) :
    Flagged h (checkNotAny pool info) False := by
  unfold checkNotAny
  split
  · exact flagged_report _ _ _
  · exact .pure trivial .rfl

theorem refers_declareTemp (id : Nat) (v : Expr) :
    refers h (Stmt.declareTemp id v) ↔ refers h v := .rfl

theorem flagged_pushTemp (hint : String) (span : Span) (v : Expr) :
    Flagged h (pushTemp hint span v) (refers h v) := by
  intro n a e hok
  cases (pushTemp_apply hint span v n).symm.trans hok
  have ht : refers h (Expr.temp n) ↔ False := by simp [refers]
  exact ⟨rfl, by simp [ht, refers_declareTemp]⟩

theorem flagged_pushTempIfComplex {hint : String} {span : Span} {v : Expr} (hv : proper v) :
    Flagged h (pushTempIfComplex hint span v) (refers h v) := by
  unfold pushTempIfComplex
  split
  · exact .pure hv .rfl
  · exact flagged_pushTemp hint span v

theorem flagged_pushTempIfUnstable {hint : String} {span : Span} {v : Expr} (hv : proper v) :
    Flagged h (pushTempIfUnstable hint span v) (refers h v) := by
  unfold pushTempIfUnstable
  split
  · exact .pure hv .rfl
  · exact flagged_pushTemp hint span v

/-! ### Operands -/

theorem flagged_operand {x : Operand} (hx : Flagged h x.lower False) :
    Flagged h x.capture False := by
  unfold Operand.capture
  apply hx.capture.bind
  rintro ⟨v, ss⟩ ⟨hv, -⟩
  exact .pure hv or_comm

theorem flagged_captureAll {xs : List Operand} (hx : ∀ x ∈ xs, Flagged h x.lower False) :
    Flagged h (captureAll xs) False := by
  induction xs with
  | nil => exact .pure (by simp) (by simp)
  | cons x xs ih =>
    obtain ⟨hfirst, hrest⟩ := List.forall_mem_cons.1 hx
    apply (flagged_operand hfirst).bind
    intro c hc
    apply (ih hrest).bind_fresh
    intro cs hcs
    exact .pure ((proper_cons c cs).2 ⟨hc, hcs⟩) (refers_cons c cs)

theorem flagged_settle {c : Captured} (hc : proper c) (later : List Captured) :
    Flagged h (settle c later) (refers h c) := by
  have value : Flagged h (if later.any (!·.stmts.isEmpty) then
      pushTempIfUnstable "exp" c.span c.value else pure c.value) (refers h c.value) := by
    split
    · exact flagged_pushTempIfUnstable hc
    · exact .pure hc .rfl
  exact ((flagged_emitAll c.stmts).bind_unit value).congr or_comm

theorem flagged_settleAll {cs : List Captured} (hcs : proper cs) :
    Flagged h (settleAll cs) (refers h cs) := by
  induction cs with
  | nil => exact .pure (by simp) (by simp)
  | cons c later ih =>
    obtain ⟨hc, hlater⟩ := (proper_cons c later).1 hcs
    rw [refers_cons, or_comm]
    apply (flagged_settle hc later).bind_after
    intro v hv
    rw [or_comm]
    apply (ih hlater).bind_after
    intro vs hvs
    exact .pure ((proper_cons v vs).2 ⟨hv, hvs⟩) (refers_cons v vs)

theorem flagged_inOrder {xs : List Operand} (hx : ∀ x ∈ xs, Flagged h x.lower False) :
    Flagged h (inOrder xs) False := (flagged_captureAll hx).bind fun _ hcs => flagged_settleAll hcs

theorem flagged_inOrderCons {x : Operand} {xs : List Operand}
    (hx : ∀ y ∈ x :: xs, Flagged h y.lower False) : Flagged h (inOrderCons x xs) False := by
  intro n p e hok
  have hall := flagged_inOrder hx (inOrderCons_eq_ok hok)
  rwa [proper_cons, refers_cons] at hall

theorem flagged_inOrderPair {x y : Operand} (hx : Flagged h x.lower False)
    (hy : Flagged h y.lower False) : Flagged h (inOrderPair x y) False := by
  intro n p e hok
  have hxy : ∀ z ∈ [x, y], Flagged h z.lower False := by simp [hx, hy]
  have hall := flagged_inOrder hxy (inOrderPair_eq_ok hok)
  rwa [proper_cons, proper_cons, refers_cons, refers_cons, refers_nil, or_false, proper_nil,
    and_true] at hall

end Lower

end ScriptLowering
