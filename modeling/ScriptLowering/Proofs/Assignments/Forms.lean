import ScriptLowering.Proofs.Assignments.Parts
import ScriptLowering.Proofs.Numbering.Operations

/-!
# The two forms of a compound assignment

A compound assignment is lowered as a statement, in the target's own form where
there is one, or for its value, with the operator spelled out.  The two write
the same, up to which parts of the place are bound, with one exception: `..=`
takes the target as it is, where spelled out it may go through `tostring`.

    no bare target → the native form is the operator spelled out      (arithmetic_of_native)
    the forms write the same ↔ the target is not bare                  (compound_forms)
-/

namespace ScriptLowering.Lower

open Target (Expr Stmt)
open Target.Stmt (declared)

variable {pool : TypePool} {op : Source.ArithmeticOp} {l r : Source.Expr} {n : Nat}

/-! ## Algorithm -/

/-- What a statement writes to, and the value; a compound form is spelled out. -/
def write? : Stmt → Option (Expr × Expr)
  | .assign t v => some (t, v)
  | .compound op t v => some (t, .arithmetic op t v)
  | .call _ | .declare _ _ | .ifThen _ _ => none

/-- Temporaries of the place stand for what the statements bind them to. -/
def Expands (ss : List Stmt) (place : Expr) (σ : Nat → Expr) : Prop :=
  ∀ i, σ i = .temp i ∨ (.temp i ∈ place.leaves ∧ .declareTemp i (σ i) ∈ ss)

/-- The last statement writes the value to the place, if some bound parts of the
place are put back. -/
def Writes (ss : List Stmt) (place value : Expr) : Prop :=
  ∃ t v σ, ss.getLast?.bind write? = some (t, v) ∧ Expands ss t σ ∧
    t.subst σ = place ∧ v.subst σ = value

/-- Both write the same to the same place, up to which of its parts are bound. -/
def SameWrite (ss tt : List Stmt) : Prop :=
  ∃ place value, Writes ss place value ∧ Writes tt place value

/-- A string is added to a target that is not known to be a string or a number. -/
def BareTarget (pool : TypePool) (op : Source.ArithmeticOp) (target value : TypeId) : Prop :=
  op = .add ∧ pool.isDefinitelyA value .string ∧ pool.isDefinitelyA target .string = false ∧
    pool.isDefinitelyA target .number = false

/-- The value of the native form, from its operator. -/
def nativeValue (pool : TypePool) (native : Target.ArithmeticOp) (v : TypedValue) : Expr :=
  if native = .concat then concatOperand pool v else v.expr

/-- The last statement of a compound assignment that is a statement. -/
def compoundLast (pool : TypePool) (op : Source.ArithmeticOp) (targetTy valueTy : TypeId)
    (t : WritableTarget) (v : Expr) : Stmt :=
  match nativeCompound? pool op targetTy valueTy with
  | some native => .compound native t.write (nativeValue pool native ⟨v, valueTy⟩)
  | none => .assign t.write (arithmetic pool op ⟨t.readable, targetTy⟩ ⟨v, valueTy⟩)

/-! ## Lemmas -/

/-! ### Operators -/

theorem nativeCompound?_eq_concat_iff {s t : TypeId} :
    nativeCompound? pool op s t = some .concat ↔ op = .add ∧ isConcat pool s t := by
  cases op <;> simp [nativeCompound?]

theorem arithmetic_concat {s t : TypeId} (h : isConcat pool s t) (p v : Expr) :
    arithmetic pool .add ⟨p, s⟩ ⟨v, t⟩ =
      .arithmetic .concat (concatOperand pool ⟨p, s⟩) (concatOperand pool ⟨v, t⟩) := if_pos h

theorem BareTarget.isConcat {s t : TypeId} (h : BareTarget pool op s t) : isConcat pool s t := by
  obtain ⟨-, ht, -, -⟩ := h
  rw [Lower.isConcat, ht, Bool.or_true]

/-- The native form leaves out a conversion of the target only. -/
theorem arithmetic_of_bare {s t : TypeId} (h : BareTarget pool op s t) (p v : Expr) :
    arithmetic pool op ⟨p, s⟩ ⟨v, t⟩ =
      .arithmetic .concat (.call (.ident "tostring") [p]) (concatOperand pool ⟨v, t⟩) := by
  have hconcat := h.isConcat
  obtain ⟨rfl, -, hs, hn⟩ := h
  have hp : concatOperand pool ⟨p, s⟩ = .call (.ident "tostring") [p] := by
    unfold concatOperand
    rw [hs, hn]
    rfl
  rw [arithmetic_concat hconcat, hp]

theorem arithmetic_of_native {s t : TypeId} {native : Target.ArithmeticOp}
    (hn : nativeCompound? pool op s t = some native) (h : ¬ BareTarget pool op s t) (p v : Expr) :
    arithmetic pool op ⟨p, s⟩ ⟨v, t⟩ = .arithmetic native p (nativeValue pool native ⟨v, t⟩) := by
  by_cases hc : native = .concat
  · subst hc
    obtain ⟨rfl, hconcat⟩ := nativeCompound?_eq_concat_iff.1 hn
    have htarget : pool.isDefinitelyA s .string ∨ pool.isDefinitelyA s .number := by
      by_contra hbare
      rw [not_or, Bool.not_eq_true, Bool.not_eq_true] at hbare
      have ht : pool.isDefinitelyA t .string := by
        simpa [isConcat, hbare.1] using hconcat
      exact h ⟨rfl, ht, hbare⟩
    have hp : concatOperand pool ⟨p, s⟩ = p := if_pos (by simpa using htarget)
    rw [arithmetic_concat hconcat, hp]
    rfl
  · have hvalue : nativeValue pool native ⟨v, t⟩ = v := if_neg hc
    rw [hvalue]
    exact arithmetic_of_nativeCompound (l := ⟨p, s⟩) (r := ⟨v, t⟩) hn hc

/-! ### Lowered code -/

theorem compoundStatement_eq (info : Source.NodeInfo) (ty : TypeId) (target : Lower Reference)
    (value : Lower Expr) :
    compoundStatement pool op info ty target value =
      (fun p => compoundLast pool op info.ty ty p.1 p.2) <$>
        targetAndValue info.span target value (nativeCompound? pool op info.ty ty).isNone := by
  unfold compoundStatement compoundLast
  rw [map_eq_pure_bind]
  cases nativeCompound? pool op info.ty ty <;> rfl

theorem expressionStatement_compound {info : Source.NodeInfo} (hl : l.isPattern = false) :
    expressionStatement pool (.binary info (.assignWith op) l r) =
      (fun p => p.2 ++ [compoundLast pool op l.ty r.ty p.1.1 p.1.2]) <$>
        (targetAndValue l.span (reference pool l) (value pool r)
          (nativeCompound? pool op l.ty r.ty).isNone).capture := by
  unfold expressionStatement
  rw [statementBody_assignWith pool info l r op hl, compoundStatement_eq, Functor.map_map,
    capture_map, bind_map_left, map_eq_pure_bind]
  rfl

/-! ### Bound parts put back -/

theorem expands_temp (ss : List Stmt) (place : Expr) : Expands ss place .temp :=
  fun _ => .inl rfl

theorem Expands.update {ss : List Stmt} {place e : Expr} {σ : Nat → Expr} {id : Nat}
    (h : Expands ss place σ) (hmem : .temp id ∈ place.leaves) (hbound : .declareTemp id e ∈ ss) :
    Expands ss place (Function.update σ id e) := by
  intro i
  by_cases hi : i = id
  · subst hi
    rw [Function.update_self]
    exact .inr ⟨hmem, hbound⟩
  · rw [Function.update_of_ne hi]
    exact h i

theorem Expands.mono {ss tt : List Stmt} {place : Expr} {σ : Nat → Expr} (h : Expands ss place σ)
    (hsub : ∀ s ∈ ss, s ∈ tt) : Expands tt place σ :=
  fun i => (h i).imp_right fun hi => ⟨hi.1, hsub _ hi.2⟩

/-- What was there before is not replaced. -/
theorem subst_eq_self_of_lt {e : Expr} {σ : Nat → Expr} (he : ∀ i, .temp i ∈ e.leaves → i < n)
    (hσ : ∀ i < n, σ i = .temp i) : e.subst σ = e :=
  e.subst_eq_self fun i hi => hσ i (he i hi)

theorem update_of_lt {σ : Nat → Expr} {e : Expr} {id : Nat} (hσ : ∀ i < n, σ i = .temp i)
    (hid : n ≤ id) : ∀ i < n, Function.update σ id e i = .temp i := by
  intro i hi
  rw [Function.update_of_ne (by omega)]
  exact hσ i hi

/-- Putting back what was bound makes the place what it was. -/
theorem expands_pinPlace {pin : Pin} {span : Span} {p q : Place} {e : Effects}
    (hp : ∀ i, .temp i ∈ p.toExpr.leaves → i < n) (h : pinPlace pin span p n = (.ok q, e)) :
    ∃ σ, Expands e.stmts q.toExpr σ ∧ q.toExpr.subst σ = p.toExpr ∧ ∀ i < n, σ i = .temp i := by
  have kept : ∃ σ, Expands [] p.toExpr σ ∧ p.toExpr.subst σ = p.toExpr ∧ ∀ i < n, σ i = .temp i :=
    ⟨.temp, expands_temp _ _, Expr.subst_temp _, fun _ _ => rfl⟩
  cases p with
  | whole u =>
    cases h
    exact kept
  | property o name =>
    obtain ⟨u, e₁, e₂, ho, hq, rfl⟩ := bind_eq_ok.1 h
    cases hq
    rcases pinPart_eq_ok ho with ⟨rfl, rfl⟩ | ⟨rfl, rfl⟩
    · exact kept
    · refine ⟨Function.update .temp n o, ?_, ?_, update_of_lt (fun _ _ => rfl) (Nat.le_refl n)⟩
      · exact (expands_temp _ _).update (List.mem_singleton.2 rfl) (List.mem_singleton.2 rfl)
      · show Expr.property (Function.update Expr.temp n o n) name = _
        rw [Function.update_self]
        rfl
  | index o k =>
    have ho : ∀ i, .temp i ∈ o.leaves → i < n := fun i hi => hp i (List.mem_append_left _ hi)
    have hk : ∀ i, .temp i ∈ k.leaves → i < n := fun i hi => hp i (List.mem_append_right _ hi)
    obtain ⟨u, e₁, e', hu, hrest, rfl⟩ := bind_eq_ok.1 h
    obtain ⟨x, e₂, e₃, hx, hq, rfl⟩ := bind_eq_ok.1 hrest
    cases hq
    rcases pinPart_eq_ok hu with ⟨rfl, rfl⟩ | ⟨rfl, rfl⟩
    · rcases pinPart_eq_ok hx with ⟨rfl, rfl⟩ | ⟨rfl, rfl⟩
      · exact kept
      · have hσ : ∀ i < n, Function.update Expr.temp n k i = .temp i :=
          update_of_lt (fun _ _ => rfl) (Nat.le_refl n)
        refine ⟨Function.update .temp n k, ?_, ?_, hσ⟩
        · exact (expands_temp _ _).update (by simp [Place.toExpr]) (by simp)
        · show Expr.index (Expr.subst _ u) (Function.update Expr.temp n k n) = _
          rw [Function.update_self, subst_eq_self_of_lt ho hσ]
          rfl
    · rcases pinPart_eq_ok hx with ⟨rfl, rfl⟩ | ⟨rfl, rfl⟩
      · have hσ : ∀ i < n, Function.update Expr.temp n o i = .temp i :=
          update_of_lt (fun _ _ => rfl) (Nat.le_refl n)
        refine ⟨Function.update .temp n o, ?_, ?_, hσ⟩
        · exact (expands_temp _ _).update (by simp [Place.toExpr]) (by simp)
        · show Expr.index (Function.update Expr.temp n o n) (Expr.subst _ x) = _
          rw [Function.update_self, subst_eq_self_of_lt hk hσ]
          rfl
      · refine ⟨Function.update (Function.update .temp n o) (n + 1) k, ?_, ?_,
          update_of_lt (update_of_lt (fun _ _ => rfl) (Nat.le_refl n)) (by omega)⟩
        · apply Expands.update
          · exact (expands_temp _ _).update (by simp [Place.toExpr]) (by simp)
          · simp [Place.toExpr]
          · simp
        · show Expr.index (Function.update (Function.update Expr.temp n o) (n + 1) k n)
            (Function.update (Function.update Expr.temp n o) (n + 1) k (n + 1)) = _
          rw [Function.update_self, Function.update_of_ne (by omega), Function.update_self]
          rfl

/-- The place that is read afterwards has more parts bound, or the same. -/
theorem expands_pinFor {ss : List Stmt} {b : Bool} {span : Span} {place p q : Place}
    {e₁ e₂ : Effects} (hlt : ∀ i, .temp i ∈ place.toExpr.leaves → i < n)
    (hp : pinPlaceFor (pinFor ss b) span place n = (.ok p, e₁))
    (hq : pinPlaceFor (pinFor ss true) span place n = (.ok q, e₂)) :
    ∃ σ, Expands e₂.stmts q.toExpr σ ∧ q.toExpr.subst σ = p.toExpr ∧ ∀ i < n, σ i = .temp i := by
  by_cases hsame : pinFor ss b = pinFor ss true
  · rw [hsame] at hp
    cases hp.symm.trans hq
    exact ⟨.temp, expands_temp _ _, Expr.subst_temp _, fun _ _ => rfl⟩
  · have hnil : ss = [] := by
      by_contra hs
      exact hsame ((pinFor_of_ne_nil hs b).trans (pinFor_of_ne_nil hs true).symm)
    have hb : b = false := by
      cases b with
      | false => rfl
      | true => exact absurd rfl hsame
    subst hnil hb
    cases hp
    exact expands_pinPlace hlt hq

/-! ### The written value -/

theorem writes_last {ss : List Stmt} {s : Stmt} {t v : Expr} {σ : Nat → Expr}
    (hs : write? s = some (t, v)) (hσ : Expands ss t σ) :
    Writes (ss ++ [s]) (t.subst σ) (v.subst σ) := by
  refine ⟨t, v, σ, ?_, hσ.mono fun s hs => List.mem_append_left _ hs, rfl, rfl⟩
  rw [List.getLast?_concat]
  exact hs

theorem Writes.of_last {ss : List Stmt} {s : Stmt} {t v place value : Expr}
    (h : Writes (ss ++ [s]) place value) (hs : write? s = some (t, v)) :
    ∃ σ, t.subst σ = place ∧ v.subst σ = value := by
  obtain ⟨t', v', σ, hlast, -, ht, hv⟩ := h
  rw [List.getLast?_concat] at hlast
  cases hs.symm.trans hlast
  exact ⟨σ, ht, hv⟩

theorem write?_of_not_bare {s t : TypeId} (h : ¬ BareTarget pool op s t) (p : Place) (b : Bool)
    (v : Expr) : write? (compoundLast pool op s t (.ofPlace p b) v) =
      some (p.toExpr, arithmetic pool op ⟨p.toExpr, s⟩ ⟨v, t⟩) := by
  unfold compoundLast
  cases hn : nativeCompound? pool op s t with
  | none =>
    rw [WritableTarget.readable_ofPlace]
    rfl
  | some native =>
    rw [arithmetic_of_native hn h p.toExpr v]
    rfl

theorem write?_of_bare {s t : TypeId} (h : BareTarget pool op s t) (p : Place) (b : Bool)
    (v : Expr) : write? (compoundLast pool op s t (.ofPlace p b) v) =
      some (p.toExpr, .arithmetic .concat p.toExpr (concatOperand pool ⟨v, t⟩)) := by
  have hn : nativeCompound? pool op s t = some .concat :=
    nativeCompound?_eq_concat_iff.2 ⟨h.1, h.isConcat⟩
  unfold compoundLast
  rw [hn]
  rfl

theorem isLocation_of_pinPlaceFor {pin : Option Pin} {span : Span} {p q : Place} {e : Effects}
    (hp : p.IsLocation) (h : pinPlaceFor pin span p n = (.ok q, e)) : q.IsLocation := by
  cases pin with
  | none =>
    cases h
    exact hp
  | some pin =>
    cases p with
    | whole u =>
      cases h
      exact hp
    | property o name =>
      obtain ⟨_, _, _, -, hq, -⟩ := bind_eq_ok.1 h
      cases hq
      trivial
    | index o k =>
      obtain ⟨_, _, _, -, hrest, -⟩ := bind_eq_ok.1 h
      obtain ⟨_, _, _, -, hq, -⟩ := bind_eq_ok.1 hrest
      cases hq
      trivial

theorem Place.IsLocation.subst_ne_call {p : Place} (hp : p.IsLocation) (σ : Nat → Expr) (f : Expr)
    (xs : List Expr) : p.toExpr.subst σ ≠ .call f xs := by
  cases p with
  | whole u =>
    obtain ⟨name, rfl⟩ := hp
    nofun
  | property o name => nofun
  | index o k => nofun

/-- The written values of the two forms, over places that are one up to what is
bound in `tt`. -/
theorem sameWrite_iff {ss tt : List Stmt} {p q : Place} {b : Bool} {v : Expr} {s t : TypeId}
    {σ : Nat → Expr} (hp : p.IsLocation) (hσ : Expands tt q.toExpr σ)
    (hback : q.toExpr.subst σ = p.toExpr) (hv : v.subst σ = v) :
    (SameWrite (ss ++ [compoundLast pool op s t (.ofPlace p b) v])
        (tt ++ [.assign q.toExpr (arithmetic pool op ⟨q.toExpr, s⟩ ⟨v, t⟩)]) ↔
      ¬ BareTarget pool op s t) ∧
      (BareTarget pool op s t → ∃ place u,
        Writes (ss ++ [compoundLast pool op s t (.ofPlace p b) v]) place
          (.arithmetic .concat place u) ∧
        Writes (tt ++ [.assign q.toExpr (arithmetic pool op ⟨q.toExpr, s⟩ ⟨v, t⟩)]) place
          (.arithmetic .concat (.call (.ident "tostring") [place]) u)) := by
  have hspelled : Writes (tt ++ [.assign q.toExpr (arithmetic pool op ⟨q.toExpr, s⟩ ⟨v, t⟩)])
      p.toExpr (arithmetic pool op ⟨p.toExpr, s⟩ ⟨v, t⟩) := by
    have h := writes_last (s := .assign q.toExpr (arithmetic pool op ⟨q.toExpr, s⟩ ⟨v, t⟩)) rfl hσ
    rwa [subst_arithmetic, hback, hv] at h
  have hnative {x : Expr}
      (hx : write? (compoundLast pool op s t (.ofPlace p b) v) = some (p.toExpr, x)) :
      Writes (ss ++ [compoundLast pool op s t (.ofPlace p b) v]) p.toExpr x := by
    have h := writes_last hx (expands_temp ss p.toExpr)
    rwa [Expr.subst_temp, Expr.subst_temp] at h
  by_cases hb : BareTarget pool op s t
  · have hbare := write?_of_bare hb p b v
    constructor
    · refine iff_of_false ?_ (not_not.2 hb)
      rintro ⟨place, x, hs, hw⟩
      obtain ⟨σ₁, -, hx₁⟩ := hs.of_last hbare
      obtain ⟨σ₂, -, hx₂⟩ := hw.of_last rfl
      rw [arithmetic_of_bare hb] at hx₂
      -- the statement's left operand is a place, the other form's is a call
      have hcall : p.toExpr.subst σ₁ = (Expr.call (.ident "tostring") [q.toExpr]).subst σ₂ := by
        have hx := hx₁.trans hx₂.symm
        rw [Expr.subst_arithmetic, Expr.subst_arithmetic] at hx
        injection hx
      rw [Expr.subst_call] at hcall
      exact hp.subst_ne_call σ₁ _ _ hcall
    · intro _
      rw [arithmetic_of_bare hb p.toExpr v] at hspelled
      exact ⟨p.toExpr, _, hnative hbare, hspelled⟩
  · constructor
    · exact iff_of_true ⟨p.toExpr, _, hnative (write?_of_not_bare hb p b v), hspelled⟩ hb
    · intro h
      exact absurd h hb

/-- Temporaries of the target and the value come before those that bind its parts. -/
theorem temps_lt {ref : Reference} {v : Expr} {e₁ e₂ : Effects}
    (hr : reference pool l n = (.ok ref, e₁))
    (hv : value pool r (n + e₁.temps.length) = (.ok v, e₂)) :
    (∀ i, .temp i ∈ ref.place.toExpr.leaves → i < n + e₁.temps.length + e₂.temps.length) ∧
      ∀ i, .temp i ∈ v.leaves → i < n + e₁.temps.length + e₂.temps.length := by
  obtain ⟨k₁, hplace⟩ := keeps_reference hr
  obtain ⟨k₂, q₂⟩ := tidy_value pool r [] hv
  have hvalue : v.ReadsIn (declared e₂.stmts) := q₂ _ (by simp) fun i hi => hi
  constructor
  · intro i hi
    have := k₁.mem_of_reads hplace hi
    omega
  · intro i hi
    have := k₂.mem_of_reads hvalue hi
    omega

/-- The two forms stop alike.  If they do not stop they write the same, up to
which parts of the place are bound, exactly if the target is not bare; a bare
target is concatenated as it is by the statement, and as a string by the value. -/
theorem compound_forms {info : Source.NodeInfo} (hl : l.isLocation) :
    (∃ s, (expressionStatement pool (.binary info (.assignWith op) l r) n).1 = .error s ∧
        (expression pool (.binary info (.assignWith op) l r) n).1 = .error s) ∨
      ∃ ss u vs, (expressionStatement pool (.binary info (.assignWith op) l r) n).1 = .ok ss ∧
        (expression pool (.binary info (.assignWith op) l r) n).1 = .ok (u, vs) ∧
        (SameWrite ss vs ↔ ¬ BareTarget pool op l.ty r.ty) ∧
        (BareTarget pool op l.ty r.ty → ∃ place v, Writes ss place (.arithmetic .concat place v) ∧
          Writes vs place (.arithmetic .concat (.call (.ident "tostring") [place]) v)) := by
  have hpattern : l.isPattern = false := by cases l <;> first | rfl | cases hl
  rw [expressionStatement_compound hpattern, expression_assignment rfl hpattern, fst_map_capture,
    fst_map_capture]
  rcases targetAndValue_parts l.span (reference pool l) (value pool r) n with
    ⟨s, hs⟩ | ⟨ref, e₁, v, e₂, hr, hv, hpin⟩
  · left
    rw [hs, hs]
    exact ⟨s, rfl, rfl⟩
  right
  obtain ⟨p, e₃, hp, hstatement⟩ := hpin (nativeCompound? pool op l.ty r.ty).isNone
  obtain ⟨q, e₄, hq, hvalue⟩ := hpin true
  rw [hstatement, hvalue]
  obtain ⟨hplace, hfresh⟩ := temps_lt hr hv
  obtain ⟨σ, hσ, hback, hlow⟩ := expands_pinFor hplace hp hq
  have hlocation := isLocation_of_pinPlaceFor (isLocation_place hl hr) hp
  have hbound : Expands (e₁ ++ (e₂.withoutStmts ++ (e₄ ++ .ofStmts e₂.stmts))).stmts q.toExpr σ := by
    apply hσ.mono
    intro s hs
    simp only [Effects.stmts_append, List.mem_append]
    exact .inr (.inr (.inl hs))
  exact ⟨_, _, _, rfl, rfl, sameWrite_iff hlocation hbound hback (subst_eq_self_of_lt hfresh hlow)⟩

/-- `o[f()] += 1` -/
def addToElement : Source.Expr :=
  let info : Source.NodeInfo := ⟨.dummy, .unknown⟩
  .binary info (.assignWith .add)
    (.element info (.ident info "o") (.call info (.ident info "f") []))
    (.number ⟨.dummy, .number⟩ .one)

/-- For its value the assignment binds the index, and writes the same. -/
theorem compound_forms_addToElement :
    ∃ u, (expressionStatement .fresh addToElement 0).1 =
        .ok [.compound .add (.index (.ident "o") (.call (.ident "f") [])) (.number .one)] ∧
      (expression .fresh addToElement 0).1 = .ok (u,
        [.declareTemp 0 (.call (.ident "f") []),
          .assign (.index (.ident "o") (.temp 0))
            (.arithmetic .add (.index (.ident "o") (.temp 0)) (.number .one))]) ∧
      SameWrite [.compound .add (.index (.ident "o") (.call (.ident "f") [])) (.number .one)]
        [.declareTemp 0 (.call (.ident "f") []),
          .assign (.index (.ident "o") (.temp 0))
            (.arithmetic .add (.index (.ident "o") (.temp 0)) (.number .one))] := by
  have hstatement : (expressionStatement .fresh addToElement 0).1 =
      .ok [.compound .add (.index (.ident "o") (.call (.ident "f") [])) (.number .one)] := rfl
  have hvalue : (expression .fresh addToElement 0).1 = .ok (.index (.ident "o") (.temp 0),
      [.declareTemp 0 (.call (.ident "f") []),
        .assign (.index (.ident "o") (.temp 0))
          (.arithmetic .add (.index (.ident "o") (.temp 0)) (.number .one))]) := rfl
  have hforms := @compound_forms .fresh .add
    (.element ⟨.dummy, .unknown⟩ (.ident ⟨.dummy, .unknown⟩ "o")
      (.call ⟨.dummy, .unknown⟩ (.ident ⟨.dummy, .unknown⟩ "f") []))
    (.number ⟨.dummy, .number⟩ .one) 0 ⟨.dummy, .unknown⟩ rfl
  rcases hforms with ⟨s, hs, -⟩ | ⟨ss, u, vs, hs, hv, hsame, -⟩
  · cases hs.symm.trans hstatement
  · cases hs.symm.trans hstatement
    cases hv.symm.trans hvalue
    exact ⟨_, hstatement, hvalue, hsame.2 fun h => absurd h.2.1 (by decide)⟩

/-- `x += "s"` -/
def addString : Source.Expr :=
  .binary ⟨.dummy, .unknown⟩ (.assignWith .add) (.ident ⟨.dummy, .unknown⟩ "x")
    (.string ⟨.dummy, .string⟩ "s")

/-- The statement concatenates `x` as it is, where the value converts it first. -/
theorem forms_of_addString_differ :
    (expressionStatement .fresh addString 0).1 =
        .ok [.compound .concat (.ident "x") (.string "s")] ∧
      (expression .fresh addString 0).1 = .ok (.ident "x",
        [.assign (.ident "x")
          (.arithmetic .concat (.call (.ident "tostring") [.ident "x"]) (.string "s"))]) ∧
      ¬ SameWrite [.compound .concat (.ident "x") (.string "s")]
        [.assign (.ident "x")
          (.arithmetic .concat (.call (.ident "tostring") [.ident "x"]) (.string "s"))] := by
  refine ⟨rfl, rfl, ?_⟩
  have hbare : BareTarget .fresh .add .unknown .string :=
    ⟨rfl, by decide, by decide, by decide⟩
  have hwrites : SameWrite ([] ++ [compoundLast .fresh .add .unknown .string
        (.ofPlace (.whole (.ident "x")) false) (.string "s")])
      ([] ++ [.assign (.ident "x") (arithmetic .fresh .add ⟨.ident "x", .unknown⟩
        ⟨.string "s", .string⟩)]) ↔ ¬ BareTarget .fresh .add .unknown .string :=
    (sameWrite_iff (p := .whole (.ident "x")) (q := .whole (.ident "x")) ⟨"x", rfl⟩
      (expands_temp [] _) rfl rfl).1
  intro h
  exact hwrites.1 h hbare

end ScriptLowering.Lower
