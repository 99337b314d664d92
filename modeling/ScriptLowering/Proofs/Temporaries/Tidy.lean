import ScriptLowering.Proofs.Lowering.Emitted
import ScriptLowering.Proofs.Temporaries.Scope

/-!
# Tidy actions

An action is tidy when its statements are scoped and declare each temporary
that it allocates, once.  Its result may be read wherever those and the ones
visible before are.

    x tidy → f tidy where x's temporaries are visible → (x >>= f) tidy          (bind)
    v may be read → binding it to a temporary is tidy                            (tidy_pushTemp)
-/

namespace ScriptLowering.Lower

open Target (Expr Stmt)
open Target.Stmt (Scoped declared declaredWithin)

/-- What an action from id `n` on has done, with the temporaries `V` visible. -/
structure Keeps (writable : Expr → Prop) (V : List Nat) (n : Nat) (e : Effects) : Prop where
  inScope : Scoped writable V e.stmts
  fresh : (declaredWithin e.stmts).Perm (List.range' n e.temps.length)

/-- `Q a W` says that the result `a` may be used where `W` is visible. -/
def Tidy {α : Type} (writable : Expr → Prop) (V : List Nat) (x : Lower α)
    (Q : α → List Nat → Prop) : Prop :=
  ∀ ⦃n a e⦄, x n = (.ok a, e) → Keeps writable V n e ∧
    ∀ W, (∀ i ∈ V, i ∈ W) → (∀ i ∈ declared e.stmts, i ∈ W) → Q a W

/-- All of these may be read. -/
def ReadsAll (vs : List Expr) (W : List Nat) : Prop := ∀ v ∈ vs, v.ReadsIn W

/-! ## Lemmas -/

variable {α β : Type} {writable : Expr → Prop} {V W : List Nat} {n : Nat}

theorem Keeps.append {e₁ e₂ : Effects} (h₁ : Keeps writable V n e₁)
    (h₂ : Keeps writable (declared e₁.stmts ++ V) (n + e₁.temps.length) e₂) :
    Keeps writable V n (e₁ ++ e₂) where
  inScope := h₁.inScope.append h₂.inScope
  fresh := by
    have := h₁.fresh.append h₂.fresh
    rwa [List.range'_append_1, ← List.length_append, ← Stmt.declaredWithin_append] at this

theorem Keeps.mono {e : Effects} (h : Keeps writable V n e) (hVW : ∀ i ∈ V, i ∈ W) :
    Keeps writable W n e :=
  ⟨h.inScope.mono hVW, h.fresh⟩

/-- Nothing is emitted and nothing allocated. -/
theorem Keeps.of_quiet {e : Effects} (hs : e.stmts = []) (ht : e.temps = []) :
    Keeps writable V n e := by
  refine ⟨hs ▸ .nil, ?_⟩
  rw [hs, ht]
  exact .refl _

/-- Only statements are emitted, and they declare nothing. -/
theorem Keeps.of_stmts {e : Effects} (hs : Scoped writable V e.stmts)
    (hd : declaredWithin e.stmts = []) (ht : e.temps = []) : Keeps writable V n e := by
  refine ⟨hs, ?_⟩
  rw [hd, ht]
  exact .refl _

/-- A temporary that occurs was visible before or was allocated. -/
theorem Keeps.mem_of_temp {e : Effects} (h : Keeps writable V n e) {i : Nat}
    (hi : .temp i ∈ Stmt.leavesAll e.stmts) : i ∈ V ∨ (n ≤ i ∧ i < n + e.temps.length) :=
  (h.inScope.mem_of_temp i hi).imp_right fun hw => by simpa using h.fresh.mem_iff.1 hw

theorem Keeps.mem_of_declared {e : Effects} (h : Keeps writable V n e) {i : Nat}
    (hi : i ∈ declaredWithin e.stmts) : n ≤ i ∧ i < n + e.temps.length := by
  simpa using h.fresh.mem_iff.1 hi

/-- What reads only temporaries that were declared reads those that were allocated. -/
theorem Keeps.mem_of_reads {e : Effects} (h : Keeps writable V n e) {v : Expr}
    (hv : v.ReadsIn (declared e.stmts)) {i : Nat} (hi : .temp i ∈ v.leaves) :
    n ≤ i ∧ i < n + e.temps.length :=
  h.mem_of_declared (Stmt.declared_subset_within _ i (hv i hi))

namespace Tidy

variable {Q : α → List Nat → Prop} {R : β → List Nat → Prop}

theorem of_quiet {x : Lower α} (hq : ∀ n a e, x n = (.ok a, e) → e.stmts = [] ∧ e.temps = [])
    (hQ : ∀ n a e W, x n = (.ok a, e) → (∀ i ∈ V, i ∈ W) → Q a W) : Tidy writable V x Q :=
  fun n a e h => ⟨.of_quiet (hq n a e h).1 (hq n a e h).2, fun W hV _ => hQ n a e W h hV⟩

theorem pure {a : α} (h : ∀ W, (∀ i ∈ V, i ∈ W) → Q a W) : Tidy writable V (pure a) Q := by
  rintro n _ _ ⟨⟩
  exact ⟨.of_quiet rfl rfl, fun W hV _ => h W hV⟩

theorem stop (s : Stop) : Tidy writable V (stop s : Lower α) Q := by
  rintro n a e ⟨⟩

theorem fail (e : LowerError) : Tidy writable V (fail e : Lower α) Q := stop _

theorem ofError {x : Except LowerError α} (h : ∀ a W, x = .ok a → (∀ i ∈ V, i ∈ W) → Q a W) :
    Tidy writable V (ofError x) Q := by
  cases x with
  | error e => exact fail e
  | ok a => exact .pure fun W hV => h a W rfl hV

theorem ofFault {x : Except Fault α} (h : ∀ a W, x = .ok a → (∀ i ∈ V, i ∈ W) → Q a W) :
    Tidy writable V (ofFault x) Q := by
  cases x with
  | error f => exact stop _
  | ok a => exact .pure fun W hV => h a W rfl hV

/-- An action may rely on all that became visible before it. -/
theorem bind {x : Lower α} {f : α → Lower β} (hx : Tidy writable V x Q)
    (hf : ∀ a W, (∀ i ∈ V, i ∈ W) → Q a W → Tidy writable W (f a) R) :
    Tidy writable V (x >>= f) R := by
  intro n b e h
  obtain ⟨a, e₁, e₂, h₁, h₂, rfl⟩ := bind_eq_ok.1 h
  obtain ⟨k₁, q₁⟩ := hx h₁
  have hV : ∀ i ∈ V, i ∈ declared e₁.stmts ++ V := fun i hi => List.mem_append_right _ hi
  have hQ : Q a (declared e₁.stmts ++ V) := q₁ _ hV fun i hi => List.mem_append_left _ hi
  obtain ⟨k₂, q₂⟩ := hf a _ hV hQ h₂
  refine ⟨k₁.append k₂, fun W hVW hd => ?_⟩
  rw [Effects.stmts_append, Stmt.declared_append] at hd
  refine q₂ W (fun i hi => ?_) fun i hi => hd i (List.mem_append_right _ hi)
  rcases List.mem_append.1 hi with hi | hi
  · exact hd i (List.mem_append_left _ hi)
  · exact hVW i hi

theorem map {x : Lower α} {g : α → β} (hx : Tidy writable V x Q)
    (h : ∀ a W, Q a W → R (g a) W) : Tidy writable V (g <$> x) R := by
  intro n b e hok
  obtain ⟨a, ha, rfl⟩ := map_eq_ok.1 hok
  obtain ⟨k, q⟩ := hx ha
  exact ⟨k, fun W hV hd => h a W (q W hV hd)⟩

theorem mono {x : Lower α} (hx : Tidy writable V x Q) (hVW : ∀ i ∈ V, i ∈ W) :
    Tidy writable W x Q := by
  intro n a e h
  obtain ⟨k, q⟩ := hx h
  exact ⟨k.mono hVW, fun U hW hd => q U (fun i hi => hW i (hVW i hi)) hd⟩

end Tidy

/-! ### Actions that emit at most one statement -/

theorem tidy_report (kind : DiagnosticKind) (span : Span) (message : String) :
    Tidy writable V (report kind span message) fun _ _ => True :=
  .of_quiet (by rintro n a e ⟨⟩; exact ⟨rfl, rfl⟩) fun _ _ _ _ _ _ => trivial

theorem tidy_useHelper (h : Helper) : Tidy writable V (useHelper h) fun _ _ => True :=
  .of_quiet (by rintro n a e ⟨⟩; exact ⟨rfl, rfl⟩) fun _ _ _ _ _ _ => trivial

theorem tidy_checkNotAny (pool : TypePool) (info : Source.NodeInfo) :
    Tidy writable V (checkNotAny pool info) fun _ _ => True := by
  unfold checkNotAny
  split
  · exact tidy_report ..
  · exact .pure fun _ _ => trivial

theorem tidy_emit_assign {t v : Expr} (ht : t.ReadsIn V) (hw : writable t) (hv : v.ReadsIn V) :
    Tidy writable V (emit (.assign t v)) fun _ _ => True := by
  rintro n a e ⟨⟩
  exact ⟨.of_stmts (.assign ht hw hv .nil) rfl rfl, fun _ _ _ => trivial⟩

theorem tidy_emit_compound {op : Target.ArithmeticOp} {t v : Expr} (ht : t.ReadsIn V)
    (hw : writable t) (hv : v.ReadsIn V) :
    Tidy writable V (emit (.compound op t v)) fun _ _ => True := by
  rintro n a e ⟨⟩
  exact ⟨.of_stmts (.compound ht hw hv .nil) rfl rfl, fun _ _ _ => trivial⟩

theorem tidy_pushTemp {hint : String} {span : Span} {v : Expr} (hv : v.ReadsIn V) :
    Tidy writable V (pushTemp hint span v) Expr.ReadsIn := by
  intro n a e h
  cases (pushTemp_apply hint span v n).symm.trans h
  refine ⟨⟨.declare (by simpa using hv) .nil, .refl _⟩, fun W _ hd => ?_⟩
  exact Expr.readsIn_temp.2 (hd n (by simp [Stmt.declareTemp, Stmt.declares, Target.Binding.temps]))

theorem tidy_pushTempIfComplex {hint : String} {span : Span} {v : Expr} (hv : v.ReadsIn V) :
    Tidy writable V (pushTempIfComplex hint span v) Expr.ReadsIn := by
  unfold pushTempIfComplex
  split
  · exact .pure fun W hV => hv.mono hV
  · exact tidy_pushTemp hv

theorem tidy_pushTempIfUnstable {hint : String} {span : Span} {v : Expr} (hv : v.ReadsIn V) :
    Tidy writable V (pushTempIfUnstable hint span v) Expr.ReadsIn := by
  unfold pushTempIfUnstable
  split
  · exact .pure fun W hV => hv.mono hV
  · exact tidy_pushTemp hv

end ScriptLowering.Lower
