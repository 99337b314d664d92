import Mathlib.Data.List.Forall2
import ScriptLowering.Proofs.Lowering.Emitted
import ScriptLowering.Proofs.Target.Mentions

/-!
# Names met in order

Reading the statements that an action emits, and then what is left of its
result, meets the given names in an order that is known beforehand.  What of the
result is left, a postcondition says: a value still has the names it mentions,
and none if it is so simple that it may be written twice.

    x meets ms, and f on what x left meets it and then ns → x >>= f meets ms ++ ns    (bind)
    the operands meet ns₁, …, nsₖ → inOrder of them meets ns₁ ++ … ++ nsₖ             (meets_inOrder)
-/

namespace ScriptLowering.Lower

open Target (Expr Stmt)
open Target.Stmt (mentionsAll)

/-- The action meets the names `ns` of `N`; `Q a ps` says that `ps` are left in its result `a`. -/
def Meets {α : Type} (N : List String) (Q : α → List String → Prop) (x : Lower α)
    (ns : List String) : Prop :=
  ∀ ⦃n a e⦄, x n = (.ok a, e) → ∃ ps, Q a ps ∧ mentionsAll N e.stmts ++ ps = ns

/-- The expression has these names left. -/
def Left (N : List String) (v : Expr) (ps : List String) : Prop := v.mentions N = ps

/-- A value has these names left, and may be written twice only if there are none. -/
structure ValueLeft (N : List String) (v : Expr) (ps : List String) : Prop where
  left : v.mentions N = ps
  simple : v.isSimple → ps = []

/-- The expression may be written any number of times. -/
def NoneLeft (N : List String) (v : Expr) (ps : List String) : Prop :=
  v.mentions N = [] ∧ ps = []

/-- Nothing is left of an action done for its effects. -/
def Done (_ : Unit) (ps : List String) : Prop := ps = []

/-- What is left in a list of expressions, one after another. -/
def EachLeft (Q : Expr → List String → Prop) : List Expr → List String → Prop
  | [], ps => ps = []
  | v :: vs, ps => ∃ qs rs, Q v qs ∧ EachLeft Q vs rs ∧ ps = qs ++ rs

/-! ## Lemmas -/

variable {α β : Type} {N ms ns : List String} {Q : α → List String → Prop}
  {R : β → List String → Prop}

theorem ValueLeft.of_noneLeft {v : Expr} {ps : List String} (h : NoneLeft N v ps) :
    ValueLeft N v ps := by
  obtain ⟨hv, rfl⟩ := h
  exact ⟨hv, fun _ => rfl⟩

/-- A temporary has no name. -/
theorem noneLeft_temp (id : Nat) : NoneLeft N (.temp id) [] := ⟨Expr.mentions_temp id, rfl⟩

theorem valueLeft_temp (id : Nat) : ValueLeft N (.temp id) [] := .of_noneLeft (noneLeft_temp id)

/-- What is not simple has no more to show than its names. -/
theorem ValueLeft.of_not_simple {v : Expr} {ps : List String}
    (h : v.mentions N = ps) (hs : v.isSimple = false) : ValueLeft N v ps :=
  ⟨h, fun ht => by rw [hs] at ht; cases ht⟩

namespace Meets

theorem pure {a : α} (h : Q a ns) : Meets N Q (pure a) ns := by
  rintro n _ _ ⟨⟩
  exact ⟨ns, h, rfl⟩

theorem stop (s : Stop) : Meets N Q (stop s) ns := by
  rintro n a e ⟨⟩

theorem fail (e : LowerError) : Meets N Q (fail e : Lower α) ns := stop _

theorem ofError {x : Except LowerError α} (h : ∀ a, x = .ok a → Q a ns) :
    Meets N Q (ofError x) ns := by
  cases x with
  | error e => exact fail e
  | ok a => exact .pure (h a rfl)

/-- An action that goes on from a result meets what is left of it first. -/
theorem bind {x : Lower α} {f : α → Lower β} (hx : Meets N Q x ms)
    (hf : ∀ a ps, Q a ps → Meets N R (f a) (ps ++ ns)) : Meets N R (x >>= f) (ms ++ ns) := by
  intro n b e h
  obtain ⟨a, e₁, e₂, h₁, h₂, rfl⟩ := bind_eq_ok.1 h
  obtain ⟨ps, hq, rfl⟩ := hx h₁
  obtain ⟨qs, hr, hqs⟩ := hf a ps hq h₂
  refine ⟨qs, hr, ?_⟩
  rw [Effects.stmts_append, Stmt.mentionsAll_append, List.append_assoc, hqs, List.append_assoc]

/-- The action after the last names. -/
theorem bind_last {x : Lower α} {f : α → Lower β} (hx : Meets N Q x ms)
    (hf : ∀ a ps, Q a ps → Meets N R (f a) ps) : Meets N R (x >>= f) ms := by
  have h : Meets N R (x >>= f) (ms ++ []) :=
    bind hx fun a ps hq => (List.append_nil ps).symm ▸ hf a ps hq
  rwa [List.append_nil] at h

/-- An action done for its effects, and the one after it. -/
theorem bind_done {x : Lower Unit} {f : Unit → Lower β} (hx : Meets N Done x ms)
    (hf : Meets N R (f ()) ns) : Meets N R (x >>= f) (ms ++ ns) :=
  bind hx fun _ ps hps => by
    obtain rfl : ps = [] := hps
    exact hf

theorem bind_quiet {x : Lower Unit} {f : Unit → Lower β} (hx : Meets N Done x [])
    (hf : Meets N R (f ()) ns) : Meets N R (x >>= f) ns := bind_done hx hf

/-- An expression that is bound before any name is met. -/
theorem bind_source {x : Lower Expr} {f : Expr → Lower β} (hx : Meets N (NoneLeft N) x [])
    (hf : ∀ v, v.mentions N = [] → Meets N R (f v) ns) : Meets N R (x >>= f) ns :=
  bind hx fun v ps ⟨hv, hps⟩ => by
    obtain rfl := hps
    exact hf v hv

theorem map {x : Lower α} {g : α → β} (hx : Meets N Q x ns) (h : ∀ a ps, Q a ps → R (g a) ps) :
    Meets N R (g <$> x) ns := by
  intro n b e hok
  obtain ⟨a, ha, rfl⟩ := map_eq_ok.1 hok
  obtain ⟨ps, hq, hps⟩ := hx ha
  exact ⟨ps, h a ps hq, hps⟩

theorem imp {x : Lower α} {Q' : α → List String → Prop} (hx : Meets N Q x ns)
    (h : ∀ a ps, Q a ps → Q' a ps) : Meets N Q' x ns := by
  intro n a e hok
  obtain ⟨ps, hq, hps⟩ := hx hok
  exact ⟨ps, h a ps hq, hps⟩

/-- What is looked up meets nothing. -/
theorem bind_ofError {x : Except LowerError α} {f : α → Lower β}
    (hf : ∀ a, x = .ok a → Meets N R (f a) ns) : Meets N R (Lower.ofError x >>= f) ns := by
  cases x with
  | error e => rintro n b e ⟨⟩
  | ok a =>
    rw [Lower.ofError, pure_bind]
    exact hf a rfl

theorem bind_ofFault {x : Except Fault α} {f : α → Lower β}
    (hf : ∀ a, x = .ok a → Meets N R (f a) ns) : Meets N R (Lower.ofFault x >>= f) ns := by
  cases x with
  | error e => rintro n b e ⟨⟩
  | ok a =>
    rw [Lower.ofFault, pure_bind]
    exact hf a rfl

theorem and {P : α → Prop} {x : Lower α} (hx : Meets N Q x ns)
    (h : ∀ n a e, x n = (.ok a, e) → P a) : Meets N (fun a ps => Q a ps ∧ P a) x ns := by
  intro n a e hok
  obtain ⟨ps, hq, hps⟩ := hx hok
  exact ⟨ps, ⟨hq, h n a e hok⟩, hps⟩

end Meets

/-! ### Actions that emit at most one statement -/

theorem meets_of_no_stmts {x : Lower Unit} (h : ∀ n e, x n = (.ok (), e) → e.stmts = []) :
    Meets N Done x [] := by
  intro n _ e hok
  exact ⟨[], rfl, by simp [h n e hok]⟩

theorem meets_checkNotAny (pool : TypePool) (info : Source.NodeInfo) :
    Meets N Done (checkNotAny pool info) [] :=
  meets_of_no_stmts fun _ _ => stmts_checkNotAny

theorem meets_useHelper (h : Helper) : Meets N Done (useHelper h) [] :=
  meets_of_no_stmts <| by
    rintro n e ⟨⟩
    rfl

theorem meets_emit (s : Stmt) : Meets N Done (emit s) (s.mentions N) := by
  rintro n _ e ⟨⟩
  exact ⟨[], rfl, by simp⟩

theorem meets_pushTemp {hint : String} {span : Span} {v : Expr} (h : v.mentions N = ns) :
    Meets N (NoneLeft N) (pushTemp hint span v) ns := by
  intro n a e hok
  cases (pushTemp_apply hint span v n).symm.trans hok
  exact ⟨[], noneLeft_temp n, by simpa using h⟩

theorem meets_pushTempIfComplex {hint : String} {span : Span} {v : Expr} (h : ValueLeft N v ns) :
    Meets N (NoneLeft N) (pushTempIfComplex hint span v) ns := by
  unfold pushTempIfComplex
  split
  next hs =>
    obtain rfl := h.simple hs
    exact .pure ⟨h.left, rfl⟩
  next => exact meets_pushTemp h.left

theorem meets_pushTempIfUnstable {hint : String} {span : Span} {v : Expr} (h : v.mentions N = ns) :
    Meets N (NoneLeft N) (pushTempIfUnstable hint span v) ns := by
  unfold pushTempIfUnstable
  split
  next hs =>
    obtain rfl : [] = ns := (Expr.mentions_of_isStable hs).symm.trans h
    exact .pure ⟨Expr.mentions_of_isStable hs, rfl⟩
  next => exact meets_pushTemp h

/-! ### Operands -/

/-- A postcondition on operands: a temporary may stand for any of them. -/
structure OperandLeft (N : List String) (Q : Expr → List String → Prop) : Prop where
  left {v : Expr} {ps : List String} (h : Q v ps) : v.mentions N = ps
  temp (id : Nat) : Q (.temp id) []

theorem operandLeft_left : OperandLeft N (Left N) := ⟨id, Expr.mentions_temp⟩

theorem operandLeft_valueLeft : OperandLeft N (ValueLeft N) := ⟨ValueLeft.left, valueLeft_temp⟩

theorem EachLeft.flatMap {Q : Expr → List String → Prop} (hQ : OperandLeft N Q) {vs : List Expr}
    {ps : List String} (h : EachLeft Q vs ps) : vs.flatMap (Expr.mentions N) = ps := by
  induction vs generalizing ps with
  | nil => exact h.symm
  | cons v vs ih =>
    obtain ⟨qs, rs, hv, hvs, rfl⟩ := h
    rw [List.flatMap_cons, hQ.left hv, ih hvs]

/-- A captured operand: its statements, and then what is left of its value. -/
def Captured.Meets (N : List String) (Q : Expr → List String → Prop) (c : Captured)
    (ns : List String) : Prop :=
  ∃ ps, Q c.value ps ∧ mentionsAll N c.stmts ++ ps = ns

theorem meets_captureAll {Q : Expr → List String → Prop} {xs : List Operand}
    {nss : List (List String)} (hx : List.Forall₂ (fun x ns => Meets N Q x.lower ns) xs nss)
    {n : Nat} {cs : List Captured} {e : Effects} (h : captureAll xs n = (.ok cs, e)) :
    e.stmts = [] ∧ List.Forall₂ (Captured.Meets N Q) cs nss := by
  induction hx generalizing n cs e with
  | nil =>
    cases h
    exact ⟨rfl, .nil⟩
  | cons hx _ ih =>
    obtain ⟨v, e₁, cs', e₂, hv, hcs, rfl, rfl⟩ := captureAll_cons_eq_ok.1 h
    obtain ⟨hs, hc⟩ := ih hcs
    exact ⟨by simpa using hs, .cons (hx hv) hc⟩

theorem meets_settleAll {Q : Expr → List String → Prop} (hQ : OperandLeft N Q)
    {cs : List Captured} {nss : List (List String)}
    (hc : List.Forall₂ (Captured.Meets N Q) cs nss) :
    Meets N (EachLeft Q) (settleAll cs) nss.flatten := by
  induction hc with
  | nil => exact .pure rfl
  | @cons c ns later nss hc _ ih =>
    intro n vs e h
    obtain ⟨v, e₁, vs', e₂, hv, hvs, rfl, rfl⟩ := settleAll_cons_eq_ok.1 h
    obtain ⟨ps, hq, rfl⟩ := hc
    obtain ⟨rs, hr, hrs⟩ := ih hvs
    rw [List.flatten_cons, ← hrs]
    rcases settle_eq_ok hv with ⟨hstays, rfl, rfl⟩ | ⟨-, rfl, rfl⟩
    · refine ⟨ps ++ rs, ⟨ps, rs, hq, hr, rfl⟩, ?_⟩
      -- no statement stands between the value and where it is read, or it has no name
      rcases hstays with hnil | hstable
      · have h₂ : e₂.stmts = [] := stmts_settleAll_of_no_stmts hnil hvs
        simp [h₂]
      · obtain rfl : [] = ps := (Expr.mentions_of_isStable hstable).symm.trans (hQ.left hq)
        simp
    · refine ⟨rs, ⟨[], rs, hQ.temp _, hr, rfl⟩, ?_⟩
      have hval : c.value.mentions N = ps := hQ.left hq
      simp [hval]

/-- Operands in order meet the names of one after those of another. -/
theorem meets_inOrder {Q : Expr → List String → Prop} (hQ : OperandLeft N Q) {xs : List Operand}
    {nss : List (List String)} (hx : List.Forall₂ (fun x ns => Meets N Q x.lower ns) xs nss) :
    Meets N (EachLeft Q) (inOrder xs) nss.flatten := by
  intro n vs e h
  obtain ⟨cs, e₁, e₂, hcs, hvs, rfl⟩ := bind_eq_ok.1 h
  obtain ⟨hnil, hc⟩ := meets_captureAll hx hcs
  obtain ⟨ps, hq, hps⟩ := meets_settleAll hQ hc hvs
  exact ⟨ps, hq, by simpa [hnil] using hps⟩

theorem meets_inOrderCons {Q : Expr → List String → Prop} (hQ : OperandLeft N Q) {x : Operand}
    {xs : List Operand} {nss : List (List String)} (hx : Meets N Q x.lower ns)
    (hxs : List.Forall₂ (fun x ns => Meets N Q x.lower ns) xs nss) :
    Meets N (fun p => EachLeft Q (p.1 :: p.2)) (inOrderCons x xs) (ns ++ nss.flatten) :=
  fun _ _ _ h => meets_inOrder hQ (.cons hx hxs) (inOrderCons_eq_ok h)

theorem meets_inOrderPair {Q : Expr → List String → Prop} (hQ : OperandLeft N Q) {x y : Operand}
    (hx : Meets N Q x.lower ms) (hy : Meets N Q y.lower ns) :
    Meets N (fun p ps => ∃ qs rs, Q p.1 qs ∧ Q p.2 rs ∧ ps = qs ++ rs) (inOrderPair x y)
      (ms ++ ns) := by
  intro n p e h
  obtain ⟨ps, ⟨qs, rs, hqs, ⟨rs', _, hrs, rfl, rfl⟩, rfl⟩, hps⟩ :=
    meets_inOrder hQ (.cons hx (.cons hy .nil)) (inOrderPair_eq_ok h)
  refine ⟨qs ++ rs', ⟨qs, rs', hqs, hrs, rfl⟩, ?_⟩
  simpa using hps

end ScriptLowering.Lower
