import ScriptLowering.Proofs.Assignments.Readable
import ScriptLowering.Proofs.Preservation.Closed

/-!
# The element that is addressed

A target `o[i]` evaluates `o` and then `i`.  Its code does so too, each of them
once, and so addresses the same element, but in one case: an index that is bound
beside an object that is a variable is evaluated first, and the variable is read
after it.

    object and index in order evaluate as their code does                  (inOrderPair_element)
    binding them keeps the order, but for a variable beside a bound index  (located_pinned)
    so the element is addressed, if such a variable is what it was          (element_addressed)
-/

namespace ScriptLowering

/-- The object and the index of an element access, in any parentheses. -/
def Source.Expr.element? : Source.Expr → Option (Source.Expr × Source.Expr)
  | .element _ o i => some (o, i)
  | .paren _ inner => inner.element?
  | _ => none

namespace Lower

open Target (Expr Stmt Temps Location eval evalList locate exec execAll)
open Target.Stmt (declared)
open Source (Typed)
open Source.Expr (Plain)

variable {w : World} {pool : TypePool} {n : Nat}

/-! ## Algorithm -/

/-- The code of an object and of an index, each by itself. -/
structure ElementCode where
  objectStmts : List Stmt
  object : Expr
  indexStmts : List Stmt
  /-- Counted from one for an array. -/
  index : Expr

namespace ElementCode

/-- The code is that of `o`, and of `i` lowered after it. -/
def IsFor (c : ElementCode) (pool : TypePool) (o i : Source.Expr) (n : Nat) : Prop :=
  ∃ e v e', expression pool o n = (.ok (c.object, c.objectStmts), e) ∧
    expression pool i (n + e.temps.length) = (.ok (v, c.indexStmts), e') ∧
    c.index = shiftIndex pool o.ty v

/-- Evaluates the object and then the index, each once. -/
def run (c : ElementCode) (τ : Temps w) : w.Run (w.Val × w.Val) := do
  let x ← runValue c.objectStmts c.object τ
  let k ← runValue c.indexStmts c.index τ
  return (x, k)

end ElementCode

/-- The variable that is read as the object after its index was bound. -/
def reread? : Expr → Option String
  | .index (.ident name) (.temp _) => some name
  | _ => none

/-- The object that a place has in the end, from the one that was evaluated first. -/
def objectOf (place : Expr) (x : w.Val) : w.Run w.Val :=
  match reread? place with
  | some name => Run.readVar name
  | none => pure x

/-- What running the statements and then addressing the place comes to. -/
def located (address : List Stmt) (place : Expr) (τ : Temps w) : w.Run (Location w) :=
  execAll address τ >>= fun τ => locate τ place

/-- Evaluates both parts and addresses the element. -/
def elementOf (place : Expr) (x : w.Run (w.Val × w.Val)) : w.Run (Location w) :=
  x >>= fun p => objectOf place p.1 >>= fun o => pure (.member o p.2)

/-- The code addresses the element of the object and the index that its parts
evaluate to, the object first and each of them once.  A variable object that is
read after the index was bound must be what it was. -/
structure ElementCode.AddressedBy (c : ElementCode) (address : List Stmt) (place : Expr) :
    Prop where
  reread : ∀ name, reread? place = some name → c.object = .ident name ∧ c.indexStmts = []
  run : ∀ (w : World) (τ : Temps w), located address place τ = elementOf place (c.run τ)
  member : ∀ (w : World) (τ : Temps w) (s s' : w.State) (x k : w.Val),
    c.run τ s = (.ok (x, k), s') →
      (located address place τ s = (.ok (.member x k), s') ↔
        ∀ name, reread? place = some name → s'.vars name = x)

/-- The parts, where they are plain, evaluate as in the source; for an array the
index is then counted from one. -/
def ElementCode.Preserves (c : ElementCode) (pool : TypePool) (o i : Source.Expr) : Prop :=
  o.Everywhere (Plain pool) → i.Everywhere (Plain pool) →
    ∃ v, c.index = shiftIndex pool o.ty v ∧ ∀ (w : World) (τ : Temps w) (s : w.State),
      (Typed pool o s → runValue c.objectStmts c.object τ s = Source.eval o s) ∧
      (Typed pool i s → runValue c.indexStmts v τ s = Source.eval i s)

/-- Statements and a place that address the element `o[i]`, lowered from `n` on. -/
def Addresses (pool : TypePool) (o i : Source.Expr) (n : Nat) (address : List Stmt)
    (place : Expr) : Prop :=
  ∃ c : ElementCode, c.IsFor pool o i n ∧ c.Preserves pool o i ∧ c.AddressedBy address place

/-- Counts a target up or down; what becomes of its old value is a parameter. -/
def countRun (op : Source.UpdateOp) (address : List Stmt) (place : Expr)
    (keep : Temps w → w.Val → Temps w) (τ : Temps w) : w.Run (Temps w) := do
  let τ ← execAll address τ
  let l ← locate τ place
  let old ← l.read τ
  let new ← Run.binary (.arithmetic (updateOp op)) old (.number .one)
  l.write (keep τ old) new

/-! ## Lemmas -/

theorem variable_or_stable {e : Expr} (h : IsPart e) : (∃ name, e = .ident name) ∨ e.isStable := by
  rcases h with h | h
  · cases e with
    | ident name => exact .inl ⟨name, rfl⟩
    | temp | placeholder | nil | bool | number | string => exact .inr rfl
    | _ => cases h
  · exact .inr h

theorem isPart_of_pinPart {pin : Pin} {hint : String} {span : Span} {e u : Expr} {eff : Effects}
    (h : pinPart pin hint span e n = (.ok u, eff)) : IsPart u := by
  cases pin with
  | repeated => exact .inl (isSimple_of_pinPart h)
  | reordered => exact .inr (isStable_of_pinPart h)

theorem objectOf_of_none {place : Expr} (h : reread? place = none) (x : w.Val) :
    objectOf place x = pure x := by
  unfold objectOf
  rw [h]

theorem index_of_reread? {place : Expr} {name : String} (h : reread? place = some name) :
    ∃ id, place = .index (.ident name) (.temp id) := by
  unfold reread? at h
  split at h
  next id =>
    cases h
    exact ⟨id, rfl⟩
  next => cases h

theorem reread?_of_stable {a k : Expr} (h : a.isStable) : reread? (.index a k) = none := by
  cases a <;> first | rfl | cases h

theorem objectOf_temp (id : Nat) (k : Expr) (x : w.Val) :
    objectOf (.index (.temp id) k) x = pure x := rfl

/-! ### Bound elements -/

section

variable {a k : Expr}

/-- A fresh temporary is none that an expression mentions. -/
theorem eval_set_fresh {e : Expr} (he : ∀ i, .temp i ∈ e.leaves → i < n) (τ : Temps w) {id : Nat}
    (hid : n ≤ id) (v : w.Val) : eval (τ.set id v) e = eval τ e := by
  apply Target.eval_congr
  intro i hi
  have := he i hi
  exact τ.set_of_ne (by omega) v

/-- Both parts in place: nothing comes between them. -/
theorem located_kept (τ : Temps w) : located [] (.index a k) τ =
    elementOf (.index a k) (eval τ a >>= fun x => eval τ k >>= fun y => pure (x, y)) := by
  cases h : reread? (.index a k) with
  | none =>
    simp only [located, elementOf, execAll, locate, objectOf_of_none h, Run.bind_assoc,
      Run.pure_bind]
  | some name =>
    obtain ⟨_, heq⟩ := index_of_reread? h
    cases heq
    rfl

theorem located_objectBound (hk : ∀ i, .temp i ∈ k.leaves → i < n) (τ : Temps w) :
    located [.declareTemp n a] (.index (.temp n) k) τ =
      elementOf (.index (.temp n) k) (eval τ a >>= fun x => eval τ k >>= fun y => pure (x, y)) := by
  simp only [located, elementOf, objectOf_temp, Target.execAll_single, Target.exec_declareTemp,
    locate, eval, eval_set_fresh hk τ (Nat.le_refl n), Temps.set_self, Run.bind_assoc, Run.pure_bind]

theorem located_bothBound (hk : ∀ i, .temp i ∈ k.leaves → i < n) (τ : Temps w) :
    located [.declareTemp n a, .declareTemp (n + 1) k] (.index (.temp n) (.temp (n + 1))) τ =
      elementOf (.index (.temp n) (.temp (n + 1)))
        (eval τ a >>= fun x => eval τ k >>= fun y => pure (x, y)) := by
  have hobject (x y : w.Val) : ((τ.set n x).set (n + 1) y) n = x := by
    rw [Temps.set_of_ne _ (by omega), Temps.set_self]
  simp only [located, elementOf, objectOf_temp, execAll, Target.exec_declareTemp, locate, eval,
    eval_set_fresh hk τ (Nat.le_refl n), Temps.set_self, hobject, Run.bind_assoc, Run.pure_bind]

/-- Only the index bound: it is evaluated before a variable object is read. -/
theorem located_indexBound (ha : ∀ i, .temp i ∈ a.leaves → i < n) (hpart : IsPart a) (τ : Temps w) :
    located [.declareTemp n k] (.index a (.temp n)) τ =
      elementOf (.index a (.temp n)) (eval τ a >>= fun x => eval τ k >>= fun y => pure (x, y)) := by
  rcases variable_or_stable hpart with ⟨name, rfl⟩ | hstable
  · simp only [located, elementOf, objectOf, reread?, Target.execAll_single,
      Target.exec_declareTemp, locate, eval, Temps.set_self, Run.bind_assoc, Run.pure_bind]
    rfl
  · obtain ⟨f, hf⟩ := eval_of_isStable (w := w) hstable
    have hset (y : w.Val) : eval (τ.set n y) a = pure (f τ) := by
      rw [eval_set_fresh ha τ (Nat.le_refl n), hf]
    simp only [located, elementOf, objectOf_of_none (reread?_of_stable hstable),
      Target.execAll_single, Target.exec_declareTemp, locate, eval, hset, hf τ, Temps.set_self,
      Run.bind_assoc, Run.pure_bind]

/-- Binding the parts of an element keeps their order, but for a variable object
beside a bound index. -/
theorem located_pinned {pin : Option Pin} {span : Span} {q : Place} {e : Effects}
    (hlt : ∀ i, .temp i ∈ (Expr.index a k).leaves → i < n)
    (h : pinPlaceFor pin span (.index a k) n = (.ok q, e)) (τ : Temps w) :
    located e.stmts q.toExpr τ =
      elementOf q.toExpr (eval τ a >>= fun x => eval τ k >>= fun y => pure (x, y)) := by
  have ha : ∀ i, .temp i ∈ a.leaves → i < n := fun i hi => hlt i (List.mem_append_left _ hi)
  have hk : ∀ i, .temp i ∈ k.leaves → i < n := fun i hi => hlt i (List.mem_append_right _ hi)
  cases pin with
  | none =>
    cases h
    exact located_kept τ
  | some pin =>
    obtain ⟨u, e₁, e', hu, hrest, rfl⟩ := bind_eq_ok.1 h
    obtain ⟨x, e₂, e₃, hx, hq, rfl⟩ := bind_eq_ok.1 hrest
    cases hq
    have hpart := isPart_of_pinPart hu
    rcases pinPart_eq_ok hu with ⟨rfl, rfl⟩ | ⟨rfl, rfl⟩ <;>
      rcases pinPart_eq_ok hx with ⟨rfl, rfl⟩ | ⟨rfl, rfl⟩
    · exact located_kept τ
    · exact located_indexBound ha hpart τ
    · exact located_objectBound hk τ
    · exact located_bothBound hk τ

end

/-! ### Object and index in order -/

/-- Statements and a value as one operand of its own meaning. -/
theorem CapturedIn.runs_self {c : Captured} {writable : Expr → Prop} (h : CapturedIn writable [] c)
    (τ : Temps w) : c.Runs ⟨runValue c.stmts c.value τ, fun _ => True⟩ := by
  intro τ' s _
  have hreads : c.value.ReadsIn (declared c.stmts) := by
    have := h.reads
    rwa [List.append_nil] at this
  rw [runValue_closed h.inScope hreads τ' τ]

/-- Two operands set apart run one after the other, each by itself. -/
theorem settlePair_runs {c d : Captured} (ha : Apart [c, d] n) {x y : Expr} {e : Effects}
    (h : settleAll [c, d] n = (.ok [x, y], e)) (τ : Temps w) :
    (execAll e.stmts τ >>= fun τ => eval τ x >>= fun a => eval τ y >>= fun b => pure (a, b)) =
      runValue c.stmts c.value τ >>= fun a => runValue d.stmts d.value τ >>= fun b =>
        pure (a, b) := by
  have hc : CapturedIn (fun _ => True) [] c := ha.inScope c List.mem_cons_self
  have hd : CapturedIn (fun _ => True) [] d :=
    ha.inScope d (List.mem_cons_of_mem _ List.mem_cons_self)
  funext s
  have hboth := settleAll_runs (.cons (hc.runs_self τ) (.cons (hd.runs_self τ) .nil)) ha h τ s
    ⟨trivial, fun _ _ _ => ⟨trivial, fun _ _ _ => trivial⟩⟩
  have hpair := Run.bind_congr (f := fun vs => pure (vs.headD .nil, vs.getLastD .nil)) hboth
    fun _ _ _ => rfl
  simpa [evalList, Meaning.all, Run.bind_assoc, Run.pure_bind] using hpair

theorem Apart.with_value {c d : Captured} (h : Apart [c, d] n) {v : Expr}
    (hv : v.ReadsIn (declared d.stmts ++ [])) : Apart [c, { d with value := v }] n where
  inScope := by
    have hc := h.inScope c List.mem_cons_self
    have hd := h.inScope d (List.mem_cons_of_mem _ List.mem_cons_self)
    simpa using ⟨hc, ⟨hd.inScope, hv⟩⟩
  nodup := h.nodup
  below := h.below

/-- The last value of a pair is read where it is, so another one takes its place
with the same effects. -/
theorem settleAll_last {c d : Captured} {x y : Expr} {e : Effects}
    (h : settleAll [c, d] n = (.ok [x, y], e)) (v : Expr) :
    y = d.value ∧ settleAll [c, { d with value := v }] n = (.ok [x, v], e) := by
  obtain ⟨x', e₁, vs, e₂, hx, hvs, heq, rfl⟩ := settleAll_cons_eq_ok.1 h
  obtain ⟨y', e₃, vs', e₄, hy, hnil, rfl, rfl⟩ := settleAll_cons_eq_ok.1 hvs
  cases heq
  rw [settle_of_no_stmts (by simp)] at hy
  cases hy
  have hlast : settle { d with value := v } [] (n + e₁.temps.length) =
      (.ok v, .ofStmts d.stmts ++ .none) := by
    rw [settle_of_no_stmts (by simp)]
    rfl
  refine ⟨rfl, settleAll_cons_eq_ok.2 ⟨x, e₁, [v], _, ?_, ?_, rfl, rfl⟩⟩
  · exact hx
  · exact settleAll_cons_eq_ok.2 ⟨v, _, [], e₄, hlast, hnil, rfl, rfl⟩

/-- A variable stays first only where the second has no statements. -/
theorem settleAll_ident {c d : Captured} {name : String} {y : Expr} {e : Effects}
    (h : settleAll [c, d] n = (.ok [.ident name, y], e)) :
    c.value = .ident name ∧ d.stmts = [] := by
  obtain ⟨x, e₁, vs, e₂, hx, -, heq, -⟩ := settleAll_cons_eq_ok.1 h
  cases heq
  rcases settle_eq_ok hx with ⟨hkept | hstable, hvalue, -⟩ | ⟨-, htemp, -⟩
  · exact ⟨hvalue.symm, hkept d List.mem_cons_self⟩
  · rw [← hvalue] at hstable
    cases hstable
  · cases htemp

/-- In order, the object and the shifted index evaluate as their code does. -/
theorem inOrderPair_element {o i : Source.Expr} {p : Expr × Expr} {e : Effects}
    (h : inOrderPair ⟨o.span, value pool o⟩ ⟨i.span, value pool i⟩ n = (.ok p, e)) :
    ∃ c : ElementCode, c.IsFor pool o i n ∧
      (∀ name, p.1 = .ident name → c.object = .ident name ∧ c.indexStmts = []) ∧
      ∀ (w : World) (τ : Temps w), (execAll e.stmts τ >>= fun τ => eval τ p.1 >>= fun x =>
        eval τ (shiftIndex pool o.ty p.2) >>= fun k => pure (x, k)) = c.run τ := by
  obtain ⟨cs, e₁, e₂, hcs, hvs, rfl⟩ := bind_eq_ok.1 (inOrderPair_eq_ok h)
  obtain ⟨hnil, hapart⟩ := apart_captureAll
    (by simpa using ⟨tidy_value pool o [], tidy_value pool i []⟩) hcs
  obtain ⟨u, eo, cs', e', ho, hcs', rfl, rfl⟩ := captureAll_cons_eq_ok.1 hcs
  obtain ⟨v, ei, cs'', e'', hi, hcs'', rfl, rfl⟩ := captureAll_cons_eq_ok.1 hcs'
  cases hcs''
  obtain ⟨hv, hshifted⟩ := settleAll_last hvs (shiftIndex pool o.ty v)
  have hreads : v.ReadsIn (declared ei.stmts ++ []) :=
    (hapart.inScope _ (List.mem_cons_of_mem _ List.mem_cons_self)).reads
  refine ⟨⟨eo.stmts, u, ei.stmts, shiftIndex pool o.ty v⟩,
    ⟨_, v, _, capture_of_ok ho, capture_of_ok hi, rfl⟩, ?_, fun w τ => ?_⟩
  · intro name hname
    rw [hname] at hvs
    exact settleAll_ident hvs
  · rw [hv, Effects.stmts_append, hnil, List.nil_append]
    exact settlePair_runs (hapart.with_value (readsIn_shiftIndex hreads)) hshifted τ

theorem ElementCode.IsFor.preserves {c : ElementCode} {o i : Source.Expr}
    (h : c.IsFor pool o i n) : c.Preserves pool o i := by
  intro hplain hplain'
  obtain ⟨e, v, e', ho, hi, hindex⟩ := h
  obtain ⟨eo, hvo, hso, -⟩ := capture_eq_ok.1 ho
  obtain ⟨ei, hvi, hsi, -⟩ := capture_eq_ok.1 hi
  refine ⟨v, hindex, fun w τ s => ⟨fun hs => ?_, fun hs => ?_⟩⟩
  · rw [hso]
    exact runs_value hplain hvo τ s hs
  · rw [hsi]
    exact runs_value hplain' hvi τ s hs

/-! ### Element targets -/

section

variable {l o i : Source.Expr}

theorem isLocation_of_element? (hl : l.element? = some (o, i)) : l.isLocation := by
  fun_induction Source.Expr.element? l with
  | case1 => rfl
  | case2 info inner ih => exact ih hl
  | case3 => cases hl

/-- A lowered element access is the two parts in order. -/
theorem reference_element (hl : l.element? = some (o, i)) {ref : Reference} {e : Effects}
    (h : reference pool l n = (.ok ref, e)) :
    ∃ p, inOrderPair ⟨o.span, value pool o⟩ ⟨i.span, value pool i⟩ n = (.ok p, e) ∧
      ref.place = .index p.1 (shiftIndex pool o.ty p.2) := by
  fun_induction Source.Expr.element? l generalizing ref with
  | case1 info object index =>
    cases hl
    obtain ⟨p, e₁, e₂, hp, href, rfl⟩ := bind_eq_ok.1 h
    cases href
    rw [Effects.append_none]
    exact ⟨p, hp, rfl⟩
  | case2 info inner ih =>
    obtain ⟨ref', href, rfl⟩ := map_eq_ok.1 h
    rw [Reference.place_paren]
    exact ih hl href
  | case3 => cases hl

/-- An object that stays a variable was one before its place was bound. -/
theorem ident_of_pinned {pin : Option Pin} {span : Span} {a k j : Expr} {q : Place} {e : Effects}
    {name : String} (h : pinPlaceFor pin span (.index a k) n = (.ok q, e))
    (hq : q.toExpr = .index (.ident name) j) : a = .ident name := by
  cases pin with
  | none =>
    cases h
    cases hq
    rfl
  | some pin =>
    obtain ⟨u, e₁, e', hu, hrest, rfl⟩ := bind_eq_ok.1 h
    obtain ⟨x, e₂, e₃, hx, hplace, rfl⟩ := bind_eq_ok.1 hrest
    cases hplace
    cases hq
    rcases pinPart_eq_ok hu with ⟨hkept, -⟩ | ⟨htemp, -⟩
    · exact hkept.symm
    · cases htemp

/-- The member that is addressed is the one evaluated first, unless a variable is
read again that is not what it was. -/
theorem elementOf_eq_ok {place : Expr} {r : w.Run (w.Val × w.Val)} {x k : w.Val} {s s' : w.State}
    (h : r s = (.ok (x, k), s')) :
    elementOf place r s = (.ok (.member x k), s') ↔
      ∀ name, reread? place = some name → s'.vars name = x := by
  unfold elementOf
  rw [Run.bind_of_ok h]
  cases hplace : reread? place with
  | none =>
    rw [objectOf_of_none hplace, Run.pure_bind]
    exact iff_of_true rfl nofun
  | some name =>
    have hobject : objectOf place x s' = (.ok (s'.vars name), s') := by
      unfold objectOf
      rw [hplace]
      rfl
    rw [Run.bind_of_ok hobject, Run.pure_apply]
    constructor
    · rintro heq _ ⟨⟩
      cases heq
      rfl
    · intro hkept
      rw [hkept name rfl]

theorem addresses_of_addressedAt (hl : l.element? = some (o, i)) {address : List Stmt}
    {place : Expr} (h : AddressedAt pool l n address place) : Addresses pool o i n address place := by
  obtain ⟨ref, e, pin, span, m, q, e', href, hm, hq, rfl, rfl⟩ := h
  obtain ⟨p, hp, hplace⟩ := reference_element hl href
  obtain ⟨c, hc, hident, hrun⟩ := inOrderPair_element hp
  obtain ⟨k, hreads⟩ := keeps_reference href
  rw [hplace] at hq hreads
  have hlt : ∀ j, .temp j ∈ (Expr.index p.1 (shiftIndex pool o.ty p.2)).leaves → j < m := by
    intro j hj
    have := (k.mem_of_reads hreads hj).2
    omega
  have hlocated (w : World) (τ : Temps w) :
      located (e.stmts ++ e'.stmts) q.toExpr τ = elementOf q.toExpr (c.run τ) := by
    rw [← hrun w τ]
    unfold located elementOf
    rw [Target.execAll_append, Run.bind_assoc, Run.bind_assoc]
    congr 1
    funext τ₁
    exact located_pinned hlt hq τ₁
  refine ⟨c, hc, hc.preserves, ?_, hlocated, ?_⟩
  · intro name hname
    obtain ⟨id, hplace'⟩ := index_of_reread? hname
    exact hident name (ident_of_pinned hq hplace')
  · intro w τ s s' x k hxk
    rw [hlocated w τ]
    exact elementOf_eq_ok hxk

end

/-! ### Places that are resolved, counted and assigned -/

section

variable {l : Source.Expr} {info : Source.NodeInfo} {op : Source.UpdateOp} {ss : List Stmt}
  {u : Expr} {eff : Effects}

theorem addressedAt_of_pinPlace {pin : Pin} {span : Span} {p q : Place} {e e' : Effects}
    (h : asPlace (reference pool l) n = (.ok p, e))
    (hq : pinPlace pin span p (n + e.temps.length) = (.ok q, e')) :
    AddressedAt pool l n (e.stmts ++ e'.stmts) q.toExpr := by
  obtain ⟨ref, href, rfl⟩ := map_eq_ok.1 h
  exact ⟨ref, e, some pin, span, _, q, e', href, Nat.le_refl _, hq, rfl, rfl⟩

/-- A resolved target is addressed by its statements. -/
theorem writableTarget_addressedAt {t : WritableTarget}
    (h : writableTarget pool l true n = (.ok (t, ss), eff)) :
    t.readable = t.write ∧ AddressedAt pool l n ss t.write := by
  obtain ⟨e, hw, rfl, -⟩ := capture_eq_ok.1 h
  obtain ⟨p, e₁, e', hp, hrest, rfl⟩ := bind_eq_ok.1 hw
  obtain ⟨q, e₂, e₃, hq, ht, rfl⟩ := bind_eq_ok.1 hrest
  cases ht
  refine ⟨rfl, ?_⟩
  rw [Effects.append_none, Effects.stmts_append]
  exact addressedAt_of_pinPlace hp hq

theorem updateBefore_addressedAt
    (h : expression pool (.prefixed info (.update op) l) n = (.ok (u, ss), eff)) :
    ∃ address, ss = address ++ [updateBy op u] ∧ AddressedAt pool l n address u := by
  obtain ⟨e, hv, rfl, -⟩ := capture_eq_ok.1 h
  rw [value_updateBefore] at hv
  obtain ⟨p, e₁, e', hp, hrest, rfl⟩ := bind_eq_ok.1 hv
  obtain ⟨q, e₂, e₃, hq, hlast, rfl⟩ := bind_eq_ok.1 hrest
  cases hlast
  refine ⟨e₁.stmts ++ e₂.stmts, ?_, addressedAt_of_pinPlace hp hq⟩
  rw [List.append_assoc]
  rfl

theorem updateAfter_addressedAt (hl : l.isLocation)
    (h : expression pool (.postfixed info op l) n = (.ok (u, ss), eff)) :
    ∃ address place id, u = .temp id ∧
      ss = address ++ [.declareTemp id place, updateBy op place] ∧
      AddressedAt pool l n address place ∧ SimplePlace place ∧ .temp id ∉ place.leaves := by
  obtain ⟨e, hv, rfl, -⟩ := capture_eq_ok.1 h
  rw [value_updateAfter] at hv
  obtain ⟨p, e₁, e', hp, hrest, rfl⟩ := bind_eq_ok.1 hv
  obtain ⟨q, e₂, e'', hq, hcopy, rfl⟩ := bind_eq_ok.1 hrest
  obtain ⟨x, e₃, e₄, hx, hlast, rfl⟩ := bind_eq_ok.1 hcopy
  cases hlast
  cases (pushTemp_apply "original" info.span q.toExpr _).symm.trans hx
  refine ⟨e₁.stmts ++ e₂.stmts, q.toExpr, _, rfl, ?_, addressedAt_of_pinPlace hp hq, ?_, ?_⟩
  · rw [List.append_assoc]
    rfl
  · obtain ⟨ref, href, rfl⟩ := map_eq_ok.1 hp
    exact pinned_of_pinPlace (isLocation_place hl href) hq
  · intro hm
    obtain ⟨ref, href, rfl⟩ := map_eq_ok.1 hp
    have hpin : pinPlaceFor (some .repeated) info.span ref.place _ = (.ok q, e₂) := hq
    have := pinned_place_temps href hpin hm
    omega

end

theorem execAll_updateBy (op : Source.UpdateOp) (address : List Stmt) (place : Expr) (τ : Temps w) :
    execAll (address ++ [updateBy op place]) τ = countRun op address place (fun τ _ => τ) τ := by
  rw [Target.execAll_append]
  congr 1
  funext τ₁
  rw [Target.execAll_single]
  rfl

theorem read_set {l : Location w} {id : Nat} (h : l ≠ .temp id) (τ : Temps w) (v : w.Val) :
    l.read (τ.set id v) = l.read τ := by
  cases l with
  | temp i =>
    have hi : i ≠ id := fun heq => h (congrArg Location.temp heq)
    exact congrArg pure (τ.set_of_ne hi v)
  | _ => rfl

/-- A copy of the old value in a temporary of its own leaves the place where it is. -/
theorem execAll_copy_updateBy (op : Source.UpdateOp) (address : List Stmt) {place : Expr} {id : Nat}
    (hplace : SimplePlace place) (hid : .temp id ∉ place.leaves) (τ : Temps w) :
    execAll (address ++ [.declareTemp id place, updateBy op place]) τ =
      countRun op address place (fun τ old => τ.set id old) τ := by
  rw [Target.execAll_append]
  congr 1
  funext τ₁ s₁
  obtain ⟨l, hl⟩ := locate_of_simple hplace τ₁ s₁
  have hcopy : eval τ₁ place s₁ = l.read τ₁ s₁ := eval_of_locate hl (.inr hplace)
  simp only [execAll, Target.exec_declareTemp, Run.bind_assoc, Run.pure_bind, Run.bind_pure,
    Run.bind_of_ok hl]
  apply Run.bind_congr hcopy
  intro old s₂ hold
  have hs : s₂ = s₁ := by
    rw [← l.read_state τ₁ s₁, hold]
  rw [hs] at hold ⊢
  have hagree : (τ₁.set id old).AgreeOn τ₁ place.leaves := by
    intro i hi
    have hne : i ≠ id := by
      rintro rfl
      exact hid hi
    exact τ₁.set_of_ne hne old
  have hagain : locate (τ₁.set id old) place s₁ = (.ok l, s₁) := by
    rw [locate_congr hagree, hl]
  have hread : l.read (τ₁.set id old) s₁ = (.ok old, s₁) := by
    rw [read_set (Target.locate_ne_temp hid hl), hold]
  rw [updateBy, exec, Run.bind_of_ok hagain, Run.bind_of_ok hread]
  rfl

/-- The target `o[i]`, resolved to be written and read, counted for its value, or
assigned with an operator, is the element of the object and the index as they are
evaluated, the object first and each once.  The exception is a variable object
beside an index that is bound though it hoists nothing: there the variable is read
after the index, and must be what it was. -/
theorem element_addressed {l o i : Source.Expr} (hl : l.element? = some (o, i)) :
    (∀ {n t ss eff}, writableTarget pool l true n = (.ok (t, ss), eff) →
      t.readable = t.write ∧ Addresses pool o i n ss t.write) ∧
    (∀ {info op n u ss eff}, expression pool (.prefixed info (.update op) l) n = (.ok (u, ss), eff) →
      ∃ address, Addresses pool o i n address u ∧
        ∀ (w : World) (τ : Temps w), execAll ss τ = countRun op address u (fun τ _ => τ) τ) ∧
    (∀ {info op n u ss eff}, expression pool (.postfixed info op l) n = (.ok (u, ss), eff) →
      ∃ address place id, u = .temp id ∧ Addresses pool o i n address place ∧
        ∀ (w : World) (τ : Temps w),
          execAll ss τ = countRun op address place (fun τ old => τ.set id old) τ) ∧
    ∀ {info op r n ss}, LoweredTo pool (.binary info (.assignWith op) l r) n ss →
      ∃ c : CompoundCode, c.stmts pool = ss ∧ Addresses pool o i n c.address c.place ∧
        ∀ (w : World) (τ : Temps w), execAll ss τ = c.late pool τ := by
  have hlocation := isLocation_of_element? hl
  refine ⟨?_, ?_, ?_, ?_⟩
  · intro n t ss eff h
    obtain ⟨hread, hat⟩ := writableTarget_addressedAt h
    exact ⟨hread, addresses_of_addressedAt hl hat⟩
  · intro info op n u ss eff h
    obtain ⟨address, rfl, hat⟩ := updateBefore_addressedAt h
    exact ⟨address, addresses_of_addressedAt hl hat, fun w τ => execAll_updateBy op address u τ⟩
  · intro info op n u ss eff h
    obtain ⟨address, place, id, rfl, rfl, hat, hplace, hid⟩ := updateAfter_addressedAt hlocation h
    exact ⟨address, place, id, rfl, addresses_of_addressedAt hl hat, fun w τ =>
      execAll_copy_updateBy op address hplace hid τ⟩
  · intro info op r n ss h
    obtain ⟨c, rfl, -, hpinned, hat⟩ := compound_code_addressed hlocation h
    exact ⟨c, rfl, addresses_of_addressedAt hl hat, fun w τ =>
      funext fun s => CompoundCode.execAll_stmts hpinned τ s⟩

/-- `a[f()]` -/
def calledIndex : Source.Expr :=
  let info : Source.NodeInfo := ⟨.dummy, .unknown⟩
  .element info (.ident info "a") (.call info (.ident info "f") [])

/-- The index is bound, and the object left as the variable it is. -/
theorem element_addressed_calledIndex :
    ∃ o i eff, calledIndex.element? = some (o, i) ∧
      writableTarget .fresh calledIndex true 0 =
        (.ok (.ofPlace (.index (.ident "a") (.temp 0)) true,
          [.declareTemp 0 (.call (.ident "f") [])]), eff) ∧
      Addresses .fresh o i 0 [.declareTemp 0 (.call (.ident "f") [])]
        (.index (.ident "a") (.temp 0)) := by
  have hcode : writableTarget .fresh calledIndex true 0 =
      (.ok (.ofPlace (.index (.ident "a") (.temp 0)) true,
        [.declareTemp 0 (.call (.ident "f") [])]), (writableTarget .fresh calledIndex true 0).2) :=
    rfl
  exact ⟨_, _, _, rfl, hcode, ((element_addressed rfl).1 hcode).2⟩

/-- Calls set `a` to the second object. -/
abbrev objectRebound : World := rebindingWorld "a" (.ref 1)

def beforeObjectRebound : objectRebound.State :=
  ⟨⟨fun _ => .ref (0 : Nat), fun _ _ => .nil⟩, []⟩

/-- The first object is evaluated and the element of the second is addressed. -/
theorem element_not_addressed :
    ∃ o i, calledIndex.element? = some (o, i) ∧
      (writableTarget .fresh calledIndex true 0).1 =
        .ok (.ofPlace (.index (.ident "a") (.temp 0)) true,
          [.declareTemp 0 (.call (.ident "f") [])]) ∧
      ∃ c : ElementCode, c.IsFor .fresh o i 0 ∧ ∀ τ : Temps objectRebound, ∃ after,
        c.run τ beforeObjectRebound = (.ok (.ref (0 : Nat), .bool true), after) ∧
        located [.declareTemp 0 (.call (.ident "f") [])] (.index (.ident "a") (.temp 0)) τ
          beforeObjectRebound = (.ok (.member (.ref (1 : Nat)) (.bool true)), after) :=
  ⟨_, _, rfl, rfl, ⟨[], .ident "a", [], .call (.ident "f") []⟩, ⟨_, _, _, rfl, rfl, rfl⟩,
    fun _ => ⟨_, rfl, rfl⟩⟩

end Lower

end ScriptLowering
