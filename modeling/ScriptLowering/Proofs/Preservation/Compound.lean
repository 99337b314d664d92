import ScriptLowering.Proofs.Preservation.Operands
import ScriptLowering.Proofs.Temporaries.Expressions
import ScriptLowering.Proofs.Lowering.Nodes

/-!
# Runs of compound assignments

The code for `t op= e` addresses `t`, runs the statements of `e`, and only then
reads `t`, evaluates `e` and writes.  So the left operand is what `t` holds when
the statements of `e` are done; the source reads it before they begin.

    execAll c.stmts = c.late                                              (execAll_stmts)
    e's statements leave what t holds → c.late = c.early                   (late_eq_early)
    the left operand is the old value ↔ they leave what t holds             (leftOperand_iff)
-/

namespace ScriptLowering.Lower

open Run (After)
open Target (Expr Stmt Temps Location eval locate exec execAll)
open Target.Stmt (Scoped declared declaredWithin)

variable {w : World} {pool : TypePool}

/-! ## Algorithm -/

/-- How the new value is made from the left operand. -/
inductive CompoundForm where
  /-- The target's compound operator. -/
  | native (op : Target.ArithmeticOp) (value : Expr)
  /-- The operator spelled out over the target and the value, with their types. -/
  | spelled (op : Source.ArithmeticOp) (targetTy valueTy : TypeId) (value : Expr)

/-- The code of a compound assignment. -/
structure CompoundCode where
  /-- The statements that address the target and bind its parts. -/
  address : List Stmt
  place : Expr
  /-- The statements of the value. -/
  hoisted : List Stmt
  form : CompoundForm

/-- What `concatOperand` evaluates. -/
def concatRun (pool : TypePool) (ty : TypeId) (x : w.Run w.Val) : w.Run w.Val :=
  if pool.isDefinitelyA ty .string || pool.isDefinitelyA ty .number then x
  else do
    let f ← Run.readVar "tostring"
    let a ← x
    Run.callValue f [a]

def libraryRun (table member : String) (x y : w.Run w.Val) : w.Run w.Val := do
  let t ← Run.readVar table
  let f ← Run.readMember t (.string member)
  let a ← x
  let b ← y
  Run.callValue f [a, b]

def nativeRun (op : Target.ArithmeticOp) (x y : w.Run w.Val) : w.Run w.Val := do
  let a ← x
  let b ← y
  Run.binary (.arithmetic op) a b

/-- What `arithmetic` evaluates, its operands still to be evaluated. -/
def arithmeticRun (pool : TypePool) (op : Source.ArithmeticOp) (left right : TypeId)
    (x y : w.Run w.Val) : w.Run w.Val :=
  match op with
  | .add =>
    if isConcat pool left right then nativeRun .concat (concatRun pool left x) (concatRun pool right y)
    else nativeRun .add x y
  | .sub => nativeRun .sub x y
  | .mul => nativeRun .mul x y
  | .div => nativeRun .div x y
  | .pow => nativeRun .pow x y
  | .mod => libraryRun "math" "fmod" x y
  | .bitAnd => libraryRun "bit32" "band" x y
  | .bitOr => libraryRun "bit32" "bor" x y
  | .bitXor => libraryRun "bit32" "bxor" x y
  | .shl => libraryRun "bit32" "lshift" x y
  | .shr => libraryRun "bit32" "arshift" x y
  | .ushr => libraryRun "bit32" "rshift" x y

/-- The new value, from a left operand that is still to be read. -/
def CompoundForm.run (pool : TypePool) (f : CompoundForm) (τ : Temps w) (left : w.Run w.Val) :
    w.Run w.Val :=
  match f with
  | native op v => nativeRun op left (eval τ v)
  | spelled op tty vty v => arithmeticRun pool op tty vty left (eval τ v)

namespace CompoundCode

variable (c : CompoundCode)

/-- The statement that writes. -/
def last (pool : TypePool) : Stmt :=
  match c.form with
  | .native op v => .compound op c.place v
  | .spelled op tty vty v => .assign c.place (arithmetic pool op ⟨c.place, tty⟩ ⟨v, vty⟩)

def stmts (pool : TypePool) : List Stmt := c.address ++ (c.hoisted ++ [c.last pool])

/-- Addresses the target. -/
def target (τ : Temps w) : w.Run (Temps w × Location w) := do
  let τ ← execAll c.address τ
  let l ← locate τ c.place
  return (τ, l)

/-- Reads the target after the statements of the value. -/
def late (pool : TypePool) (τ : Temps w) : w.Run (Temps w) := do
  let (τ, l) ← c.target τ
  let τ ← execAll c.hoisted τ
  let new ← c.form.run pool τ (l.read τ)
  l.write τ new

/-- Reads the target before the statements of the value, as in the source. -/
def early (pool : TypePool) (τ : Temps w) : w.Run (Temps w) := do
  let (τ, l) ← c.target τ
  let old ← l.read τ
  let τ ← execAll c.hoisted τ
  let new ← c.form.run pool τ (pure old)
  l.write τ new

/-- What the target holds before anything of the value was run. -/
def oldValue (τ : Temps w) : w.Run w.Val := do
  let (τ, l) ← c.target τ
  l.read τ

/-- What the operator is applied to. -/
def leftOperand (τ : Temps w) : w.Run w.Val := do
  let (τ, l) ← c.target τ
  let τ ← execAll c.hoisted τ
  l.read τ

/-- The target can be read, and the statements of the value leave what it holds. -/
def KeepsTarget (τ : Temps w) (s : w.State) : Prop :=
  After (c.target τ) s fun p s₁ => ∃ a, p.2.read p.1 s₁ = (.ok a, s₁) ∧
    After (execAll c.hoisted p.1) s₁ fun τ₂ s₂ => p.2.read τ₂ s₂ = (.ok a, s₂)

end CompoundCode

/-! ## Lemmas -/

/-! ### Operators on operands to be evaluated -/

theorem eval_concatOperand (τ : Temps w) (v : TypedValue) :
    eval τ (concatOperand pool v) = concatRun pool v.ty (eval τ v.expr) := by
  unfold concatOperand concatRun
  split
  · rfl
  · simp only [eval, Target.evalList, Run.bind_assoc, Run.pure_bind]

theorem eval_library (τ : Temps w) (table member : String) (x y : Expr) :
    eval τ (.call (libraryMember table member) [x, y]) =
      libraryRun table member (eval τ x) (eval τ y) := by
  simp only [libraryMember, libraryRun, eval, Target.evalList, Run.bind_assoc, Run.pure_bind]

theorem eval_arithmetic (τ : Temps w) (op : Source.ArithmeticOp) (l r : TypedValue) :
    eval τ (arithmetic pool op l r) = arithmeticRun pool op l.ty r.ty (eval τ l.expr) (eval τ r.expr) := by
  cases op <;> simp only [arithmetic, arithmeticRun, bitOperation, eval_library]
  case add =>
    split
    · rw [← eval_concatOperand, ← eval_concatOperand]
      rfl
    · rfl
  all_goals rfl

/-- What comes before the left operand changes nothing that it could read. -/
theorem concatRun_congr {x x' : w.Run w.Val} {s : w.State} (h : x s = x' s) (ty : TypeId) :
    concatRun pool ty x s = concatRun pool ty x' s := by
  unfold concatRun
  split
  · exact h
  · exact Run.bind_congr (x := x) (y := x') h fun _ _ _ => rfl

theorem arithmeticRun_congr {x x' : w.Run w.Val} {s : w.State} (h : x s = x' s)
    (op : Source.ArithmeticOp) (left right : TypeId) (y : w.Run w.Val) :
    arithmeticRun pool op left right x y s = arithmeticRun pool op left right x' y s := by
  have native (op : Target.ArithmeticOp) {x x' : w.Run w.Val} (h : x s = x' s) (y : w.Run w.Val) :
      nativeRun op x y s = nativeRun op x' y s := Run.bind_congr h fun _ _ _ => rfl
  have library (table member : String) :
      libraryRun table member x y s = libraryRun table member x' y s := by
    refine Run.bind_congr_right fun t s₁ ht => Run.bind_congr_right fun f s₂ hf => ?_
    have h₁ : s₁ = s := by cases ht; rfl
    have h₂ : s₂ = s₁ := (congrArg (·.2) hf).symm
    rw [h₂, h₁]
    exact Run.bind_congr h fun _ _ _ => rfl
  cases op <;> simp only [arithmeticRun]
  case add =>
    split
    · exact native _ (concatRun_congr h left) _
    · exact native _ h y
  case sub | mul | div | pow => exact native _ h y
  all_goals exact library ..

theorem CompoundForm.run_congr {x x' : w.Run w.Val} {s : w.State} (h : x s = x' s)
    (f : CompoundForm) (τ : Temps w) : f.run pool τ x s = f.run pool τ x' s := by
  cases f with
  | native op v => exact Run.bind_congr h fun _ _ _ => rfl
  | spelled op tty vty v => exact arithmeticRun_congr h op tty vty _

/-! ### Places -/

/-- No statement can change where this is. -/
def FixedPlace : Expr → Prop
  | .ident _ => True
  | .property o _ => o.isStable
  | .index o i => o.isStable ∧ i.isStable
  | _ => False

/-- Addressing this changes nothing. -/
def SimplePlace : Expr → Prop
  | .ident _ => True
  | .property o _ => o.isSimple
  | .index o i => o.isSimple ∧ i.isSimple
  | _ => False

theorem locate_congr {τ τ' : Temps w} {e : Expr} (h : τ.AgreeOn τ' e.leaves) :
    locate τ e = locate τ' e := by
  cases e with
  | property o name => simp only [locate, Target.eval_congr o h]
  | index o i => simp only [locate, Target.eval_congr o h.left, Target.eval_congr i h.right]
  | _ => rfl

/-- A place is read as the location that it stands for. -/
theorem eval_of_locate {τ : Temps w} {e : Expr} {l : Location w} {s s' : w.State}
    (h : locate τ e s = (.ok l, s')) (he : FixedPlace e ∨ SimplePlace e) :
    eval τ e s = l.read τ s' := by
  cases e with
  | ident name => cases h; rfl
  | property o name =>
    obtain ⟨x, s₁, hx, hl⟩ := Run.bind_eq_ok.1 h
    cases hl
    exact Run.bind_of_ok hx _
  | index o i =>
    obtain ⟨x, s₁, hx, hi⟩ := Run.bind_eq_ok.1 h
    obtain ⟨k, s₂, hk, hl⟩ := Run.bind_eq_ok.1 hi
    cases hl
    rw [eval, Run.bind_of_ok hx, Run.bind_of_ok hk]
    rfl
  | _ => rcases he with he | he <;> cases he

theorem locate_of_fixed {e : Expr} (h : FixedPlace e) :
    ∃ f : Temps w → Location w, ∀ τ, locate τ e = pure (f τ) := by
  cases e with
  | ident name => exact ⟨fun _ => .var name, fun _ => rfl⟩
  | property o name =>
    obtain ⟨f, hf⟩ := eval_of_isStable (w := w) h
    exact ⟨fun τ => .member (f τ) (.string name), fun τ => by simp only [locate, hf, Run.pure_bind]⟩
  | index o i =>
    obtain ⟨f, hf⟩ := eval_of_isStable (w := w) h.1
    obtain ⟨g, hg⟩ := eval_of_isStable (w := w) h.2
    exact ⟨fun τ => .member (f τ) (g τ), fun τ => by simp only [locate, hf, hg, Run.pure_bind]⟩
  | _ => cases h

theorem locate_of_simple {e : Expr} (h : SimplePlace e) (τ : Temps w) (s : w.State) :
    ∃ l, locate τ e s = (.ok l, s) := by
  cases e with
  | ident name => exact ⟨.var name, rfl⟩
  | property o name =>
    obtain ⟨a, ha⟩ := eval_of_isSimple h τ s
    exact ⟨.member a (.string name), by rw [locate, Run.bind_of_ok ha, Run.pure_apply]⟩
  | index o i =>
    obtain ⟨a, ha⟩ := eval_of_isSimple h.1 τ s
    obtain ⟨b, hb⟩ := eval_of_isSimple h.2 τ s
    exact ⟨.member a b, by rw [locate, Run.bind_of_ok ha, Run.bind_of_ok hb, Run.pure_apply]⟩
  | _ => cases h

/-- Where the value has statements the target is out of their reach; where it
is mentioned twice that makes no difference. -/
structure CompoundCode.Pinned (c : CompoundCode) : Prop where
  fixed : c.hoisted = [] ∨ (FixedPlace c.place ∧
    ∀ i, .temp i ∈ c.place.leaves → .temp i ∉ Stmt.leavesAll c.hoisted)
  spelled : ∀ op tty vty v, c.form = .spelled op tty vty v → FixedPlace c.place ∨ SimplePlace c.place

namespace CompoundCode

variable {c : CompoundCode}

theorem exec_last (hc : c.Pinned) (τ : Temps w) (s : w.State) :
    exec (c.last pool) τ s = (locate τ c.place >>= fun l => c.form.run pool τ (l.read τ) >>=
      fun new => l.write τ new) s := by
  unfold last
  cases hf : c.form with
  | native op v =>
    simp only [exec, CompoundForm.run, nativeRun, Run.bind_assoc]
  | spelled op tty vty v =>
    have hplace := hc.spelled op tty vty v hf
    obtain ⟨l, hl⟩ : ∃ l, locate τ c.place s = (.ok l, s) := by
      rcases hplace with h | h
      · obtain ⟨f, hf⟩ := locate_of_fixed (w := w) h
        exact ⟨f τ, by rw [hf τ, Run.pure_apply]⟩
      · exact locate_of_simple h τ s
    simp only [exec, Run.bind_of_ok hl, eval_arithmetic, CompoundForm.run]
    exact Run.bind_congr (arithmeticRun_congr (eval_of_locate hl hplace) ..) fun _ _ _ => rfl

/-- The code reads the target when the statements of the value are done. -/
theorem execAll_stmts (hc : c.Pinned) (τ : Temps w) (s : w.State) :
    execAll (c.stmts pool) τ s = c.late pool τ s := by
  simp only [stmts, late, target, Target.execAll_append, Target.execAll_single, Run.bind_assoc,
    Run.pure_bind]
  refine Run.bind_congr_right fun τ₁ s₁ _ => ?_
  rcases hc.fixed with hnil | ⟨hfixed, hfresh⟩
  · simp only [hnil, execAll, Run.pure_bind]
    exact exec_last hc τ₁ s₁
  · obtain ⟨f, hf⟩ := locate_of_fixed (w := w) hfixed
    rw [hf τ₁, Run.pure_bind]
    refine Run.bind_congr_right fun τ₂ s₂ h₂ => ?_
    have hagree : τ₂.AgreeOn τ₁ c.place.leaves := fun i hi =>
      Target.execAll_frame _ (hfresh i hi) h₂
    rw [exec_last hc, locate_congr hagree, hf τ₁, Run.pure_bind]

/-- If the statements of the value leave what the target holds, it might as well
be read before them. -/
theorem late_eq_early {τ : Temps w} {s : w.State} (h : c.KeepsTarget τ s) :
    c.late pool τ s = c.early pool τ s := by
  refine Run.bind_congr_right fun ⟨τ₁, l⟩ s₁ ht => ?_
  obtain ⟨a, ha, hkeep⟩ := h (τ₁, l) s₁ ht
  simp only [Run.bind_of_ok ha]
  refine Run.bind_congr_right fun τ₂ s₂ h₂ => ?_
  exact Run.bind_congr (CompoundForm.run_congr ((hkeep τ₂ s₂ h₂).trans rfl) ..) fun _ _ _ => rfl

/-- The operator is applied to the old value exactly if it is kept. -/
theorem leftOperand_iff {τ : Temps w} {s s' : w.State} {b : w.Val}
    (h : c.leftOperand τ s = (.ok b, s')) :
    (c.oldValue τ s).1 = .ok b ↔ c.KeepsTarget τ s := by
  obtain ⟨⟨τ₁, l⟩, s₁, ht, h₁⟩ := Run.bind_eq_ok.1 h
  obtain ⟨τ₂, s₂, h₂, hb⟩ := Run.bind_eq_ok.1 h₁
  have hold : c.oldValue τ s = l.read τ₁ s₁ := Run.bind_of_ok ht _
  rw [hold]
  constructor
  · rintro ha p s₁' ht'
    cases ht.symm.trans ht'
    refine ⟨b, Prod.ext ha (l.read_state τ₁ s₁), fun τ s hs => ?_⟩
    cases h₂.symm.trans hs
    exact Prod.ext (congrArg (·.1) hb) (l.read_state τ₂ s₂)
  · intro hk
    obtain ⟨a, ha, hkeep⟩ := hk (τ₁, l) s₁ ht
    have hab := (hkeep τ₂ s₂ h₂).symm.trans hb
    cases hab
    rw [ha]

end CompoundCode

/-! ### Lowered code -/

theorem isStable_of_pinPart {hint : String} {span : Span} {e u : Expr} {n : Nat} {eff : Effects}
    (h : pinPart .reordered hint span e n = (.ok u, eff)) : u.isStable := by
  simp only [pinPart, pushTempIfUnstable] at h
  split at h
  next hs => cases h; exact hs
  next => cases h; rfl

theorem isSimple_of_pinPart {hint : String} {span : Span} {e u : Expr} {n : Nat} {eff : Effects}
    (h : pinPart .repeated hint span e n = (.ok u, eff)) : u.isSimple := by
  simp only [pinPart, pushTempIfComplex] at h
  split at h
  next hs => cases h; exact hs
  next => cases h; rfl

/-- Bound parts are what the reason for binding them asks for. -/
theorem pinned_of_pinPlace {pin : Pin} {span : Span} {p q : Place} {n : Nat} {e : Effects}
    (hp : p.IsLocation) (h : pinPlace pin span p n = (.ok q, e)) :
    match pin with
    | .reordered => FixedPlace q.toExpr
    | .repeated => SimplePlace q.toExpr := by
  cases p with
  | whole u =>
    obtain ⟨name, rfl⟩ := hp
    cases h
    cases pin <;> trivial
  | property o name =>
    obtain ⟨o', e₁, e₂, ho, hq, -⟩ := bind_eq_ok.1 h
    cases hq
    cases pin with
    | reordered => exact isStable_of_pinPart ho
    | repeated => exact isSimple_of_pinPart ho
  | index o i =>
    obtain ⟨o', e₁, e₂, ho, hq, -⟩ := bind_eq_ok.1 h
    obtain ⟨i', e₃, e₄, hi, hq, -⟩ := bind_eq_ok.1 hq
    cases hq
    cases pin with
    | reordered => exact ⟨isStable_of_pinPart ho, isStable_of_pinPart hi⟩
    | repeated => exact ⟨isSimple_of_pinPart ho, isSimple_of_pinPart hi⟩

/-- The code is that of `l op= r`: it addresses the target of `l`, and its value
is that of `r`. -/
structure CompoundCode.IsFor (c : CompoundCode) (pool : TypePool) (op : Source.ArithmeticOp)
    (l r : Source.Expr) : Prop where
  target : ∃ n ref e pin span m p e', reference pool l n = (.ok ref, e) ∧
    pinPlaceFor pin span ref.place m = (.ok p, e') ∧ c.address = e.stmts ++ e'.stmts ∧
    c.place = p.toExpr
  value : ∃ n v e, Lower.value pool r n = (.ok v, e) ∧ c.hoisted = e.stmts ∧
    (c.form = .spelled op l.ty r.ty v ∨
      ∃ native, nativeCompound? pool op l.ty r.ty = some native ∧
        c.form = .native native (if native = .concat then concatOperand pool ⟨v, r.ty⟩ else v))

/-- Statements and a place to which a target is lowered from `n` on, its parts
bound for some reason or for none. -/
def AddressedAt (pool : TypePool) (l : Source.Expr) (n : Nat) (address : List Stmt)
    (place : Expr) : Prop :=
  ∃ ref e pin span m p e', reference pool l n = (.ok ref, e) ∧ n + e.temps.length ≤ m ∧
    pinPlaceFor pin span ref.place m = (.ok p, e') ∧ address = e.stmts ++ e'.stmts ∧
    place = p.toExpr

/-- A lowered target reads what its own statements declare. -/
theorem keeps_reference {l : Source.Expr} {n : Nat} {ref : Reference} {e : Effects}
    (h : reference pool l n = (.ok ref, e)) :
    Keeps (fun _ => True) [] n e ∧ ref.place.toExpr.ReadsIn (declared e.stmts) := by
  obtain ⟨k, q⟩ := (tidy_any pool l).reference [] h
  exact ⟨k, Reference.readsIn_place (q _ (by simp) fun i hi => hi)⟩

/-- The temporaries of a bound target are those of the target and of its bindings. -/
theorem pinned_place_temps {l : Source.Expr} {n m : Nat} {ref : Reference} {p : Place}
    {pin : Option Pin} {span : Span} {e e' : Effects} (hr : reference pool l n = (.ok ref, e))
    (hp : pinPlaceFor pin span ref.place m = (.ok p, e')) {i : Nat}
    (hi : .temp i ∈ p.toExpr.leaves) :
    i < n + e.temps.length ∨ (m ≤ i ∧ i < m + e'.temps.length) := by
  obtain ⟨k, hread⟩ := keeps_reference hr
  have hmembers : AllowsMembers fun _ => True := ⟨fun _ _ => trivial, fun _ _ => trivial⟩
  obtain ⟨k', q'⟩ := tidy_pinPlaceFor hmembers hread trivial hp
  have hplace : p.toExpr.ReadsIn (declared e'.stmts ++ declared e.stmts) :=
    (q' _ (fun i hi => List.mem_append_right _ hi) fun i hi => List.mem_append_left _ hi).1
  rcases List.mem_append.1 (hplace i hi) with h | h
  · exact .inr (k'.mem_of_declared (Stmt.declared_subset_within _ i h))
  · exact .inl (k.mem_of_declared (Stmt.declared_subset_within _ i h)).2

/-- The bound target mentions no temporary of the value. -/
theorem pinned_place_fresh {l r : Source.Expr} {n : Nat} {ref : Reference} {v : Expr} {p : Place}
    {pin : Option Pin} {span : Span} {e₁ e₂ e₃ : Effects} (hr : reference pool l n = (.ok ref, e₁))
    (hv : value pool r (n + e₁.temps.length) = (.ok v, e₂))
    (hp : pinPlaceFor pin span ref.place (n + e₁.temps.length + e₂.temps.length) = (.ok p, e₃)) :
    ∀ i, .temp i ∈ p.toExpr.leaves → .temp i ∉ Stmt.leavesAll e₂.stmts := by
  intro i hi hm
  obtain ⟨k₂, -⟩ := tidy_value pool r [] hv
  have h₂ := (k₂.mem_of_temp hm).resolve_left (by simp)
  have := pinned_place_temps hr hp hi
  omega

/-- What is addressed and hoisted before the last statement. -/
theorem compound_prefix (op : Source.ArithmeticOp) {l r : Source.Expr} {b : Bool} {span : Span}
    {n : Nat} {t : WritableTarget} {v : Expr} {e : Effects} (hl : l.isLocation)
    (h : targetAndValue span (reference pool l) (value pool r) b n = (.ok (t, v), e)) :
    ∃ address hoisted, e.stmts = address ++ hoisted ∧ t.readable = t.write ∧
      AddressedAt pool l n address t.write ∧
      ∀ form, (form = .spelled op l.ty r.ty v ∧ b = true ∨
          ∃ native, nativeCompound? pool op l.ty r.ty = some native ∧
            form = .native native (if native = .concat then concatOperand pool ⟨v, r.ty⟩ else v)) →
        (CompoundCode.mk address t.write hoisted form).IsFor pool op l r ∧
          (CompoundCode.mk address t.write hoisted form).Pinned := by
  obtain ⟨ref, e₁, e₂, p, e₃, hr, hv, hp, rfl, rfl⟩ := targetAndValue_eq_ok h
  have hplace := isLocation_place hl hr
  have hreordered : e₂.stmts ≠ [] → FixedPlace p.toExpr := by
    intro hs
    rw [pinFor_of_ne_nil hs] at hp
    exact pinned_of_pinPlace hplace hp
  have hrepeated : e₂.stmts = [] → b = true → SimplePlace p.toExpr := by
    intro hs hb
    rw [hs, hb] at hp
    exact pinned_of_pinPlace hplace hp
  have haddressed : AddressedAt pool l n (e₁.stmts ++ e₃.stmts) p.toExpr :=
    ⟨ref, e₁, _, _, _, p, e₃, hr, Nat.le_add_right _ _, hp, rfl, rfl⟩
  refine ⟨e₁.stmts ++ e₃.stmts, e₂.stmts, by simp, WritableTarget.readable_ofPlace p b,
    haddressed, ?_⟩
  intro form hform
  refine ⟨⟨⟨_, ref, e₁, _, _, _, p, e₃, hr, hp, rfl, rfl⟩, ⟨_, v, e₂, hv, rfl, ?_⟩⟩, ⟨?_, ?_⟩⟩
  · exact hform.imp_left And.left
  · by_cases hs : e₂.stmts = []
    · exact .inl hs
    · exact .inr ⟨hreordered hs, pinned_place_fresh hr hv hp⟩
  · rintro op' tty vty v' rfl
    have hb : b = true := by
      rcases hform with ⟨-, hb⟩ | ⟨native, -, hnative⟩
      · exact hb
      · cases hnative
    by_cases hs : e₂.stmts = []
    · exact .inr (hrepeated hs hb)
    · exact .inl (hreordered hs)

/-- The statements to which an expression is lowered, as a statement or for its value. -/
def LoweredTo (pool : TypePool) (e : Source.Expr) (n : Nat) (ss : List Stmt) : Prop :=
  (∃ eff, expressionStatement pool e n = (.ok ss, eff)) ∨
    ∃ v eff, expression pool e n = (.ok (v, ss), eff)

/-- Either way a compound assignment is lowered to code of this kind, which
addresses its target from `n` on. -/
theorem compound_code_addressed {info : Source.NodeInfo} {op : Source.ArithmeticOp} {l r : Source.Expr}
    {n : Nat} {ss : List Stmt} (hl : l.isLocation)
    (h : LoweredTo pool (.binary info (.assignWith op) l r) n ss) :
    ∃ c : CompoundCode, c.stmts pool = ss ∧ c.IsFor pool op l r ∧ c.Pinned ∧
      AddressedAt pool l n c.address c.place := by
  have hpattern : l.isPattern = false := by cases l <;> first | rfl | cases hl
  rcases h with ⟨eff, h⟩ | ⟨u, eff, h⟩
  · obtain ⟨⟨last, stmts⟩, e₁, e₂, hc, hss, -⟩ := bind_eq_ok.1 h
    cases hss
    obtain ⟨e, hb, rfl, -⟩ := capture_eq_ok.1 hc
    rw [statementBody_assignWith pool info l r op hpattern] at hb
    obtain ⟨s, hs, rfl⟩ := map_eq_ok.1 hb
    unfold compoundStatement at hs
    cases hn : nativeCompound? pool op l.ty r.ty with
    | some native =>
      simp only [show l.info.ty = l.ty from rfl, hn] at hs
      obtain ⟨⟨t, v⟩, e₁, e₂, htv, hlast, rfl⟩ := bind_eq_ok.1 hs
      cases hlast
      obtain ⟨A, S, he, -, hat, hfor⟩ := compound_prefix op hl htv
      obtain ⟨h₁, h₂⟩ := hfor _ (.inr ⟨native, hn, rfl⟩)
      exact ⟨_, by simp [CompoundCode.stmts, CompoundCode.last, he, Effects.append_none], h₁, h₂,
        hat⟩
    | none =>
      simp only [show l.info.ty = l.ty from rfl, hn] at hs
      obtain ⟨⟨t, v⟩, e₁, e₂, htv, hlast, rfl⟩ := bind_eq_ok.1 hs
      cases hlast
      obtain ⟨A, S, he, hread, hat, hfor⟩ := compound_prefix op hl htv
      obtain ⟨h₁, h₂⟩ := hfor _ (.inl ⟨rfl, rfl⟩)
      exact ⟨_, by simp [CompoundCode.stmts, CompoundCode.last, he, hread, Effects.append_none], h₁, h₂,
        hat⟩
  · obtain ⟨e, hv, rfl, -⟩ := capture_eq_ok.1 h
    rw [value_assignWith pool info l r op hpattern] at hv
    obtain ⟨⟨t, v⟩, e₁, e₂, htv, hrest, rfl⟩ := bind_eq_ok.1 hv
    have hlast : e₂.stmts =
        [.assign t.write (arithmetic pool op ⟨t.readable, l.ty⟩ ⟨v, r.ty⟩)] := by
      cases hrest
      rfl
    obtain ⟨A, S, he, hread, hat, hfor⟩ := compound_prefix op hl htv
    obtain ⟨h₁, h₂⟩ := hfor _ (.inl ⟨rfl, rfl⟩)
    exact ⟨_, by simp [CompoundCode.stmts, CompoundCode.last, he, hread, hlast], h₁, h₂, hat⟩

theorem compound_code {info : Source.NodeInfo} {op : Source.ArithmeticOp} {l r : Source.Expr}
    {n : Nat} {ss : List Stmt} (hl : l.isLocation)
    (h : LoweredTo pool (.binary info (.assignWith op) l r) n ss) :
    ∃ c : CompoundCode, c.stmts pool = ss ∧ c.IsFor pool op l r ∧ c.Pinned := by
  obtain ⟨c, hc, hfor, hpinned, -⟩ := compound_code_addressed hl h
  exact ⟨c, hc, hfor, hpinned⟩

/-- A compound assignment reads its target after the statements of its value.  So
its left operand is the value that the target held before exactly if these leave
what the target holds; then it runs as if it had read the target first. -/
theorem compound_leftOperand {info : Source.NodeInfo} {op : Source.ArithmeticOp}
    {l r : Source.Expr} {n : Nat} {ss : List Stmt} (hl : l.isLocation)
    (h : LoweredTo pool (.binary info (.assignWith op) l r) n ss) :
    ∃ c : CompoundCode, c.stmts pool = ss ∧ c.IsFor pool op l r ∧
      ∀ (w : World) (τ : Temps w) (s : w.State),
        execAll ss τ s = c.late pool τ s ∧
        (c.KeepsTarget τ s → execAll ss τ s = c.early pool τ s) ∧
        ∀ b s', c.leftOperand τ s = (.ok b, s') →
          ((c.oldValue τ s).1 = .ok b ↔ c.KeepsTarget τ s) := by
  obtain ⟨c, rfl, hfor, hpinned⟩ := compound_code hl h
  refine ⟨c, rfl, hfor, fun w τ s => ?_⟩
  have hlate : execAll (c.stmts pool) τ s = c.late pool τ s :=
    CompoundCode.execAll_stmts hpinned τ s
  exact ⟨hlate, fun hk => hlate.trans (CompoundCode.late_eq_early hk), fun b s' hb =>
    CompoundCode.leftOperand_iff hb⟩

/-- `x += x++` -/
def addUpdated : Source.Expr :=
  let info : Source.NodeInfo := ⟨.dummy, .unknown⟩
  .binary info (.assignWith .add) (.ident info "x") (.postfixed info .increment (.ident info "x"))

/-- The update runs between addressing the target and reading it. -/
def addUpdatedCode : List Stmt :=
  [.declareTemp 0 (.ident "x"), .compound .add (.ident "x") (.number .one),
    .compound .add (.ident "x") (.temp 0)]

theorem compound_leftOperand_addUpdated :
    LoweredTo .fresh addUpdated 0 addUpdatedCode ∧
      ∃ c : CompoundCode, c.stmts .fresh = addUpdatedCode ∧
        ∀ (w : World) (τ : Temps w) (s : w.State),
          execAll addUpdatedCode τ s = c.late .fresh τ s ∧
          (c.KeepsTarget τ s → execAll addUpdatedCode τ s = c.early .fresh τ s) ∧
          ∀ b s', c.leftOperand τ s = (.ok b, s') →
            ((c.oldValue τ s).1 = .ok b ↔ c.KeepsTarget τ s) := by
  have hcode : LoweredTo .fresh addUpdated 0 addUpdatedCode := .inl ⟨_, rfl⟩
  obtain ⟨c, hc, -, hrun⟩ := compound_leftOperand rfl hcode
  exact ⟨hcode, c, hc, hrun⟩

/-- A world whose references are counters. -/
def countingWorld : World where
  Ref := Nat
  Heap := Unit
  Error := Unit
  call _ _ s := (.error (), s)
  member _ _ _ := .error ()
  setMember _ _ _ s := (.error (), s)
  binary op l r s :=
    match op, l, r with
    | .arithmetic .add, .ref a, .ref b => (.ok (.ref (a + b)), s)
    | .arithmetic .add, .ref a, .number n => (if n = .one then .ok (.ref (a + 1)) else .error (), s)
    | _, _, _ => (.error (), s)
  unary _ _ s := (.error (), s)
  table _ s := (.error (), s)
  pack _ s := (.error (), s)
  stuck := ()

/-- The counter `x` stands at one. -/
def countingState : countingWorld.State := ⟨⟨fun _ => .ref (1 : Nat), ()⟩, []⟩

/-- Counted up on the right, the old value of one is no longer what the operator
is applied to: the sum is three, and not twice the old value. -/
theorem leftOperand_ne_oldValue :
    ∃ c : CompoundCode, c.stmts .fresh = addUpdatedCode ∧
      LoweredTo .fresh addUpdated 0 addUpdatedCode ∧ ∀ τ : Temps countingWorld,
        (c.oldValue τ countingState).1 = .ok (.ref (1 : Nat)) ∧
        (c.leftOperand τ countingState).1 = .ok (.ref (2 : Nat)) ∧
        (execAll addUpdatedCode τ countingState).2.vars "x" = .ref (3 : Nat) ∧
        (c.early .fresh τ countingState).2.vars "x" = .ref (2 : Nat) :=
  ⟨⟨[], .ident "x", [.declareTemp 0 (.ident "x"), .compound .add (.ident "x") (.number .one)],
    .native .add (.temp 0)⟩, rfl, .inl ⟨_, rfl⟩, fun _ => ⟨rfl, rfl, rfl, rfl⟩⟩

end ScriptLowering.Lower
