import ScriptLowering.Proofs.Assignments.Addressed
import ScriptLowering.Proofs.Indexing.Positions
import ScriptLowering.Proofs.Lowering.Total
import ScriptLowering.Proofs.Preservation.Renumbered

/-!
# Slots of keys that are tested and read

`k in o` evaluates `k` and then `o`, and asks whether the slot `k` of `o` holds
something.  `o[k]` evaluates `o` and then `k`, and where `o` is an array, or an
array or undefined, it reads the slot one further.

    k in o: the slot y of x, for the values y of k and x of o             (membership_runs)
    o[k]: the slot y of x, or y + 1 of x                                     (element_runs)
-/

namespace ScriptLowering.Lower

open Target (Expr Stmt Temps eval execAll)
open Source (NodeInfo)

variable {w : World} {pool : TypePool} {n : Nat}

/-! ## Algorithm -/

def literalOf : Expr → Option Number
  | .number x => some x
  | _ => none

/-- The literal that an expression is lowered to. -/
def literal? (pool : TypePool) (e : Source.Expr) : Option Number :=
  match (value pool e 0).1 with
  | .ok v => literalOf v
  | .error _ => none

/-- A key plus one, worked out for a literal. -/
def nextKey (literal : Option Number) (y : w.Val) : w.Run w.Val :=
  match literal with
  | some x => pure (.number (x.add .one))
  | none => Run.binary (.arithmetic .add) y (.number .one)

/-- Values of the type are indexed from one: all its members are arrays or undefined. -/
def IndexedFromOne (pool : TypePool) (ty : TypeId) : Prop :=
  pool.isDefinitely ty fun t => pool.has t .array || pool.has t .undefined

instance (pool : TypePool) (ty : TypeId) : Decidable (IndexedFromOne pool ty) :=
  inferInstanceAs (Decidable (_ = true))

/-- The slot that an element access reads for a value of the key. -/
def elementKey (pool : TypePool) (ty : TypeId) (k : Source.Expr) (y : w.Val) : w.Run w.Val :=
  if IndexedFromOne pool ty then nextKey (literal? pool k) y else pure y

/-! ## Lemmas -/

/-- An expression that is lowered to a value at the first id is so at every id. -/
theorem total_value_of_ok {e : Source.Expr} {v : Expr} (h : (value pool e 0).1 = .ok v) :
    Total (value pool e) := by
  intro n
  have hshift := (shifted_node n pool e).value 0
  rw [Nat.zero_add, h] at hshift
  exact ⟨_, _, hshift⟩

theorem total_membership (span : Span) (key object : Expr) :
    Total (membership span key object) := by
  rw [membership_eq]
  refine Total.bind ?_ fun key => .pure _
  unfold membershipKey
  split
  · exact .pure key
  · exact total_pushTempIfUnstable

/-- A value that is lowered runs as its code. -/
theorem runs_code (e : Source.Expr) :
    Runs (value pool e) (⟨codeRun pool e, fun _ => True⟩ : Meaning w) :=
  fun _ _ _ h τ _ _ => congrFun (runValue_code (capture_of_ok h) τ) _

/-- Two operands in order run as their codes. -/
theorem inOrderPair_code {x y : Source.Expr} {p : Expr × Expr} {e : Effects}
    (h : inOrderPair ⟨x.span, value pool x⟩ ⟨y.span, value pool y⟩ n = (.ok p, e)) (τ : Temps w)
    (f : w.Val → w.Val → w.Run w.Val) :
    (execAll e.stmts τ >>= fun τ => eval τ p.1 >>= fun a => eval τ p.2 >>= fun b => f a b) =
      codeRun pool x >>= fun a => codeRun pool y >>= fun b => f a b := by
  funext s
  exact inOrderPair_runs (tidy_value pool x []) (tidy_value pool y []) (runs_code x) (runs_code y) h
    τ trivial (fun _ _ _ => trivial) f

/-! ### Keys that are tested -/

section

variable {a b : Expr} {τ : Temps w} (g : w.Val → w.Val → w.Run w.Val)

/-- What is stable is read at any time. -/
theorem eval_comm_of_isStable (h : a.isStable) :
    (eval τ b >>= fun x => eval τ a >>= fun y => g x y) =
      eval τ a >>= fun y => eval τ b >>= fun x => g x y := by
  obtain ⟨f, hf⟩ := eval_of_isStable (w := w) h
  simp only [hf τ, Run.pure_bind]

/-- Two simple values are read in either order. -/
theorem eval_comm_of_isSimple (ha : a.isSimple) (hb : b.isSimple) :
    (eval τ b >>= fun x => eval τ a >>= fun y => g x y) =
      eval τ a >>= fun y => eval τ b >>= fun x => g x y := by
  funext s
  obtain ⟨y, hy⟩ := eval_of_isSimple ha τ s
  obtain ⟨x, hx⟩ := eval_of_isSimple hb τ s
  rw [Run.bind_of_ok hx, Run.bind_of_ok hy, Run.bind_of_ok hy, Run.bind_of_ok hx]

/-- The key of a membership is evaluated before the object, as in the source. -/
theorem membershipKey_runs {span : Span} {key : Expr} {e : Effects}
    (hb : ∀ i, .temp i ∈ b.leaves → i < n) (h : membershipKey span a b n = (.ok key, e)) :
    (execAll e.stmts τ >>= fun τ => eval τ b >>= fun x => eval τ key >>= fun y => g x y) =
      eval τ a >>= fun y => eval τ b >>= fun x => g x y := by
  unfold membershipKey at h
  split at h
  next hkept =>
    cases h
    rcases Bool.or_eq_true_iff.1 hkept with hsimple | hstable
    · obtain ⟨ha, hb⟩ := Bool.and_eq_true_iff.1 hsimple
      exact eval_comm_of_isSimple g ha hb
    · exact (eval_comm_of_isStable (fun y x => g x y) hstable).symm
  next =>
    unfold pushTempIfUnstable at h
    split at h
    next hstable =>
      cases h
      exact eval_comm_of_isStable g hstable
    next =>
      cases (pushTemp_apply "exp" span a n).symm.trans h
      simp only [Target.execAll_single, Target.exec_declareTemp, Run.bind_assoc, Run.pure_bind, eval,
        eval_set_fresh hb τ (Nat.le_refl n), Temps.set_self]

end

/-- `k in o` reads the slot of the object that the key names. -/
theorem membership_runs {k o : Source.Expr} {info : NodeInfo} {v : Expr} {e : Effects}
    (h : value pool (.binary info (.relation .isIn) k o) n = (.ok v, e)) :
    ∃ object key, v = .binary .ne (.index object key) .nil ∧ ∀ (w : World) (τ : Temps w),
      runValue e.stmts (.index object key) τ = (do
        let y ← codeRun pool k
        let x ← codeRun pool o
        Run.readMember x y) := by
  rw [value_relation] at h
  obtain ⟨p, e₁, e', hp, hrest, rfl⟩ := bind_eq_ok.1 h
  have hrest : membership info.span p.1 p.2 _ = _ := hrest
  rw [membership_eq] at hrest
  obtain ⟨key, e₂, e₃, hkey, hlast, rfl⟩ := bind_eq_ok.1 hrest
  cases hlast
  obtain ⟨kept, hreads⟩ := tidy_inOrderPair (tidy_value pool k []) (tidy_value pool o []) hp
  have hfresh : ∀ i, .temp i ∈ p.2.leaves → i < n + e₁.temps.length := fun i hi =>
    (kept.mem_of_reads (hreads _ (by simp) fun _ => id).2 hi).2
  refine ⟨p.2, key, rfl, fun w τ => ?_⟩
  rw [runValue, Effects.append_none, Effects.stmts_append, Target.execAll_append, Run.bind_assoc,
    ← inOrderPair_code hp τ fun y x => Run.readMember x y]
  congr 1
  funext τ₁
  exact membershipKey_runs (fun x y => Run.readMember x y) hfresh hkey

/-- Comparing with nil asks whether there is something. -/
theorem runValue_ne_nil (ss : List Stmt) (v : Expr) (τ : Temps w) :
    runValue ss (.binary .ne v .nil) τ =
      runValue ss v τ >>= fun x => pure (.bool (!x.isNil)) := by
  simp only [runValue, eval, Run.bind_assoc, ← Value.same_nil]
  rfl

/-! ### Elements that are read -/

/-- A literal stays one at every id. -/
theorem literal?_of_ok {e : Source.Expr} {v : Expr} {eff : Effects}
    (h : value pool e n = (.ok v, eff)) : literal? pool e = literalOf v := by
  have hshift := (shifted_node n pool e).value 0
  rw [Nat.zero_add, h] at hshift
  unfold literal?
  cases hfirst : (value pool e 0).1 with
  | error s =>
    rw [hfirst] at hshift
    cases hshift
  | ok v₀ =>
    rw [hfirst] at hshift
    cases hshift
    cases v₀ <;> rfl

theorem eval_offset (v : Expr) (τ : Temps w) :
    eval τ (offset v .one) = eval τ v >>= nextKey (literalOf v) := by
  cases v <;> rfl

theorem shiftIndex_eq (ty : TypeId) (v : Expr) :
    shiftIndex pool ty v = if IndexedFromOne pool ty then offset v .one else v := rfl

theorem eval_shiftIndex {k : Source.Expr} {v : Expr} {eff : Effects}
    (h : value pool k n = (.ok v, eff)) (ty : TypeId) (τ : Temps w) :
    eval τ (shiftIndex pool ty v) = eval τ v >>= elementKey pool ty k := by
  by_cases hty : IndexedFromOne pool ty
  · have hkey : elementKey (w := w) pool ty k = nextKey (literalOf v) := by
      funext y
      rw [elementKey, if_pos hty, literal?_of_ok h]
    rw [shiftIndex_eq, if_pos hty, eval_offset, hkey]
  · have hkey : elementKey (w := w) pool ty k = pure := by
      funext y
      rw [elementKey, if_neg hty]
    rw [shiftIndex_eq, if_neg hty, hkey, Run.bind_pure]

/-- `o[k]` reads the slot of the object that the key names, counted from one for an array. -/
theorem element_runs {k o : Source.Expr} {info : NodeInfo} {v : Expr} {e : Effects}
    (h : value pool (.element info o k) n = (.ok v, e)) :
    ∃ object index, v = .index object index ∧ ∀ (w : World) (τ : Temps w),
      runValue e.stmts (.index object index) τ = (do
        let x ← codeRun pool o
        let y ← codeRun pool k
        Run.readMember x (← elementKey pool o.ty k y)) := by
  rw [value_element] at h
  obtain ⟨p, hp, rfl⟩ := map_eq_ok.1 h
  obtain ⟨c, ⟨e₁, v, e₂, ho, hk, hindex⟩, -, hrun⟩ := inOrderPair_element hp
  refine ⟨p.1, shiftIndex pool o.ty p.2, rfl, fun w τ => ?_⟩
  obtain ⟨e₃, hv, -, -⟩ := capture_eq_ok.1 hk
  have hkey : runValue c.indexStmts c.index τ = codeRun pool k >>= elementKey pool o.ty k := by
    rw [← runValue_code hk τ, hindex, runValue, runValue, Run.bind_assoc]
    congr 1
    funext τ₁
    exact eval_shiftIndex hv o.ty τ₁
  have hpair := congrArg (· >>= fun q : w.Val × w.Val => Run.readMember q.1 q.2) (hrun w τ)
  rw [ElementCode.run, runValue_code ho, hkey] at hpair
  simpa only [runValue, eval, Run.bind_assoc, Run.pure_bind] using hpair

/-! ## Main results -/

/-- Where both operands are lowered, `k in o` and `o[k]` are.  Both evaluate the operands in the
order of the source.  The first asks whether the slot that the key names holds something; the
second reads that slot too, unless the object is an array, or an array or undefined, where it
reads the slot of the key plus one. -/
theorem membership_slot {k o : Source.Expr} {u v : Expr} (hk : (value pool k 0).1 = .ok u)
    (ho : (value pool o 0).1 = .ok v) (info : NodeInfo) (n : Nat) :
    (∃ object key e,
      value pool (.binary info (.relation .isIn) k o) n =
        (.ok (.binary .ne (.index object key) .nil), e) ∧
      ∀ (w : World) (τ : Temps w),
        runValue e.stmts (.index object key) τ = (do
          let y ← codeRun pool k
          let x ← codeRun pool o
          Run.readMember x y) ∧
        runValue e.stmts (.binary .ne (.index object key) .nil) τ = (do
          let y ← codeRun pool k
          let x ← codeRun pool o
          let held ← Run.readMember x y
          return .bool (!held.isNil))) ∧
    (∃ object index e,
      value pool (.element info o k) n = (.ok (.index object index), e) ∧
      ∀ (w : World) (τ : Temps w),
        runValue e.stmts (.index object index) τ = (do
          let x ← codeRun pool o
          let y ← codeRun pool k
          if IndexedFromOne pool o.ty then
            let next ← nextKey (literal? pool k) y
            Run.readMember x next
          else Run.readMember x y)) := by
  have hk := total_value_of_ok hk
  have ho := total_value_of_ok ho
  constructor
  · have htotal : Total (value pool (.binary info (.relation .isIn) k o)) := by
      rw [value_relation]
      exact (total_inOrderPair hk ho).bind fun p => total_membership info.span p.1 p.2
    obtain ⟨a, e, h⟩ := htotal n
    obtain ⟨object, key, rfl, hrun⟩ := membership_runs h
    refine ⟨object, key, e, h, fun w τ => ⟨hrun w τ, ?_⟩⟩
    rw [runValue_ne_nil, hrun]
    simp only [Run.bind_assoc]
  · have htotal : Total (value pool (.element info o k)) := by
      rw [value_element]
      exact (total_inOrderPair ho hk).map _
    obtain ⟨a, e, h⟩ := htotal n
    obtain ⟨object, index, rfl, hrun⟩ := element_runs h
    refine ⟨object, index, e, h, fun w τ => ?_⟩
    rw [hrun]
    congr 1
    funext x
    congr 1
    funext y
    unfold elementKey
    split <;> rfl

/-- `0` -/
def firstKey : Source.Expr := .number ⟨.dummy, .number⟩ (.ofNat 0)

/-- `0 in v` -/
def firstIn (v : Source.Expr) : Source.Expr :=
  .binary ⟨.dummy, .boolean⟩ (.relation .isIn) firstKey v

/-- The first element of an array is tested and read. -/
theorem membership_slot_arrayVariable :
    (∃ object key e, value numberArrays (firstIn arrayVariable) 0 =
        (.ok (.binary .ne (.index object key) .nil), e) ∧
      ∀ (w : World) (τ : Temps w), runValue e.stmts (.index object key) τ = (do
        let y ← codeRun numberArrays firstKey
        let x ← codeRun numberArrays arrayVariable
        Run.readMember x y)) ∧
    ∃ object index e, value numberArrays (firstOf arrayVariable) 0 =
        (.ok (.index object index), e) ∧
      ∀ (w : World) (τ : Temps w), runValue e.stmts (.index object index) τ = (do
        let x ← codeRun numberArrays arrayVariable
        let y ← codeRun numberArrays firstKey
        let next ← nextKey (literal? numberArrays firstKey) y
        Run.readMember x next) := by
  obtain ⟨⟨object, key, e, h, hrun⟩, hread⟩ :=
    @membership_slot numberArrays firstKey arrayVariable _ _ rfl rfl ⟨.dummy, .boolean⟩ 0
  exact ⟨⟨object, key, e, h, fun w τ => (hrun w τ).1⟩, hread⟩

/-- Tables hold true in the slot one, and nothing else. -/
def oneElement : (rebindingWorld "" .nil).State :=
  ⟨⟨fun _ => .ref (0 : Nat), fun _ key => if key = .number (.ofNat 1) then .bool true else .nil⟩, []⟩

/-- The element that the access reads is there, and the test does not find it. -/
theorem membership_of_element_fails :
    (value numberArrays (firstIn arrayVariable) 0).1 =
        .ok (.binary .ne (.index (.ident "v") (.number (.ofNat 0))) .nil) ∧
      (value numberArrays (firstIn arrayVariable) 0).2.stmts = [] ∧
      (value numberArrays (firstOf arrayVariable) 0).1 =
        .ok (.index (.ident "v") (.number (.ofNat 1))) ∧
      (value numberArrays (firstOf arrayVariable) 0).2.stmts = [] ∧
      ∀ τ, runValue [] (.binary .ne (.index (.ident "v") (.number (.ofNat 0))) .nil) τ oneElement =
          (.ok (.bool false), oneElement) ∧
        runValue [] (.index (.ident "v") (.number (.ofNat 1))) τ oneElement =
          (.ok (.bool true), oneElement) := by
  obtain ⟨hone, hne⟩ := Number.ofNat_succ (show 0 < 2 ^ 53 by decide)
  have hheld (n : Number) {x : Value Nat} (τ)
      (hx : (if (.number n : Value Nat) = .number (.ofNat 1) then .bool true else .nil) = x) :
      runValue [] (.index (.ident "v") (.number n)) τ oneElement = (.ok x, oneElement) := by
    subst hx
    rfl
  have hempty : Value.number (.ofNat 0) ≠ (.number (.ofNat 1) : Value Nat) := by
    simpa using hne
  have hread : (value numberArrays (firstOf arrayVariable) 0).1 =
      .ok (.index (.ident "v") (.number ((Number.ofNat 0).add .one))) := rfl
  refine ⟨rfl, rfl, by rw [hread, hone], rfl, fun τ => ⟨?_, ?_⟩⟩
  · rw [runValue_ne_nil, Run.bind_of_ok (hheld _ τ (if_neg hempty))]
    rfl
  · exact hheld _ τ (if_pos rfl)

end ScriptLowering.Lower
