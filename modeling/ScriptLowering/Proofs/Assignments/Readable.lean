import ScriptLowering.Proofs.Assignments.Parts
import ScriptLowering.Proofs.Preservation.Expressions

/-!
# Places read after they are written

An assignment that is used as a value stands for the place it wrote to.  Parts
of the place that are left as they are may be variables, and the value, which is
evaluated after the place, may rebind these; then the place is another one.

    a place is where it was ↔ its parts' variables are what they were       (locate_eq_iff)
    it is where it was → it reads as the value that was written              (eval_of_written)
    the value hoists statements → no part is a variable                      (assignment_readable)
-/

namespace ScriptLowering

/-- Members without accessors: what is written is read back, and writing leaves
the variables. -/
structure World.PlainMembers (w : World) : Prop where
  read_back : ∀ {object key v s s'}, w.setMember object key v s = (.ok (), s') →
    w.member object key s' = .ok v
  vars_kept : ∀ {object key v s s'}, w.setMember object key v s = (.ok (), s') → s'.vars = s.vars

namespace Lower

open Target (Expr Stmt Temps Location eval locate exec execAll)

variable {w : World} {pool : TypePool}

/-! ## Algorithm -/

/-- What a part of a place that is mentioned again may be. -/
def IsPart (e : Expr) : Prop := e.isSimple ∨ e.isStable

/-- The value of a part. -/
def partValue (τ : Temps w) (vars : String → w.Val) : Expr → w.Val
  | .paren e => partValue τ vars e
  | .temp id => τ id
  | .ident name => vars name
  | .bool b => .bool b
  | .number n => .number n
  | .string s => .string s
  | _ => .nil

/-- The variables in the parts of a place. -/
def partNames : Expr → List String
  | .property o _ => o.names
  | .index o i => o.names ++ i.names
  | _ => []

/-! ## Lemmas -/

/-! ### Parts -/

theorem eval_part {e : Expr} (h : IsPart e) (τ : Temps w) (s : w.State) :
    eval τ e s = (.ok (partValue τ s.vars e), s) := by
  fun_induction Expr.isStable e with
  | case1 inner ih =>
    rcases h with h | h
    · cases h
    · exact ih (.inr h)
  | case2 | case3 => rfl
  | case4 e hparen htemp hhole =>
    cases e with
    | paren inner => exact (hparen inner rfl).elim
    | ident | temp | placeholder | nil | bool | number | string => rfl
    | _ => rcases h with h | h <;> cases h

theorem partValue_eq_iff {e : Expr} (h : IsPart e) (τ : Temps w) (x y : String → w.Val) :
    partValue τ x e = partValue τ y e ↔ ∀ name ∈ e.names, x name = y name := by
  fun_induction Expr.isStable e with
  | case1 inner ih =>
    rcases h with h | h
    · cases h
    · exact ih (.inr h)
  | case2 | case3 => exact iff_of_true rfl (List.forall_mem_nil _)
  | case4 e hparen htemp hhole =>
    cases e with
    | ident name =>
      constructor
      · intro heq name' hmem
        obtain rfl : name' = name := List.mem_singleton.1 hmem
        exact heq
      · intro hall
        exact hall name List.mem_cons_self
    | paren inner => exact (hparen inner rfl).elim
    | temp | placeholder | nil | bool | number | string => exact iff_of_true rfl (List.forall_mem_nil _)
    | _ => rcases h with h | h <;> cases h

/-! ### Places -/

/-- A place whose parts may be mentioned again is a variable or a member. -/
theorem locate_eq_iff {u : Expr} (hu : FixedPlace u ∨ SimplePlace u) (τ : Temps w) (s : w.State) :
    ∃ p : Location w, locate τ u s = (.ok p, s) ∧
      ((partNames u = [] ∧ ∃ name, p = .var name) ∨ ∃ object key, p = .member object key) ∧
      ∀ s', locate τ u s' = (.ok p, s') ↔ ∀ name ∈ partNames u, s'.vars name = s.vars name := by
  cases u with
  | ident name =>
    refine ⟨.var name, rfl, .inl ⟨rfl, name, rfl⟩, fun s' => ?_⟩
    exact iff_of_true rfl (List.forall_mem_nil _)
  | property o name =>
    have ho : IsPart o := hu.symm
    have hlocate (s : w.State) : locate τ (.property o name) s =
        (.ok (.member (partValue τ s.vars o) (.string name)), s) := by
      rw [locate, Run.bind_of_ok (eval_part ho τ s)]
      rfl
    refine ⟨_, hlocate s, .inr ⟨_, _, rfl⟩, fun s' => ?_⟩
    rw [hlocate s', Prod.mk.injEq, Except.ok.injEq, Location.member.injEq, partValue_eq_iff ho]
    simp only [and_true, partNames]
  | index o i =>
    have ho : IsPart o := (hu.imp And.left And.left).symm
    have hi : IsPart i := (hu.imp And.right And.right).symm
    have hlocate (s : w.State) : locate τ (.index o i) s =
        (.ok (.member (partValue τ s.vars o) (partValue τ s.vars i)), s) := by
      rw [locate, Run.bind_of_ok (eval_part ho τ s), Run.bind_of_ok (eval_part hi τ s)]
      rfl
    refine ⟨_, hlocate s, .inr ⟨_, _, rfl⟩, fun s' => ?_⟩
    rw [hlocate s', Prod.mk.injEq, Except.ok.injEq, Location.member.injEq,
      partValue_eq_iff ho, partValue_eq_iff hi]
    simp only [and_true, partNames, List.mem_append, or_imp, forall_and]
  | _ => rcases hu with h | h <;> cases h

theorem names_of_fixedPlace {u : Expr} (h : FixedPlace u) : partNames u = [] := by
  cases u with
  | property o name => exact Expr.names_of_isStable h
  | index o i =>
    rw [partNames, Expr.names_of_isStable h.1, Expr.names_of_isStable h.2]
    rfl
  | _ => rfl

/-! ### Written places -/

theorem write_member {object key v : w.Val} {τ τ' : Temps w} {s s' : w.State}
    (h : Location.write τ v (.member object key) s = (.ok τ', s')) :
    τ' = τ ∧ w.setMember object key v s.toStore = (.ok (), s'.toStore) := by
  obtain ⟨_, s₁, hset, hτ⟩ := Run.bind_eq_ok.1 h
  cases hτ
  refine ⟨rfl, ?_⟩
  unfold Run.writeMember Run.act at hset
  rcases hm : w.setMember object key v s.toStore with ⟨r, store⟩
  rw [hm] at hset
  cases hset
  rfl

theorem read_of_write (hw : w.PlainMembers) {p : Location w} {v : w.Val} {τ τ' : Temps w}
    {s s' : w.State} (h : p.write τ v s = (.ok τ', s')) : p.read τ' s' = (.ok v, s') := by
  cases p with
  | var name =>
    cases h
    exact Prod.ext (congrArg Except.ok (if_pos rfl)) rfl
  | temp id =>
    cases h
    rw [Location.read, Temps.set_self]
    rfl
  | member object key =>
    obtain ⟨rfl, hset⟩ := write_member h
    exact Prod.ext (hw.read_back hset) rfl

/-- After it was written a place is where it was exactly if the variables in its
parts were left as they were by the value, and then it reads as the value. -/
theorem eval_of_written (hw : w.PlainMembers) {u x : Expr} (hu : FixedPlace u ∨ SimplePlace u)
    {τ τ' : Temps w} {s s' : w.State} (h : exec (.assign u x) τ s = (.ok τ', s')) :
    ∃ p a s₂, locate τ u s = (.ok p, s) ∧ eval τ x s = (.ok a, s₂) ∧
      p.write τ a s₂ = (.ok τ', s') ∧
      (locate τ' u s' = (.ok p, s') ↔ ∀ name ∈ partNames u, s₂.vars name = s.vars name) ∧
      (locate τ' u s' = (.ok p, s') → eval τ' u s' = (.ok a, s')) := by
  obtain ⟨p, hp, hkind, hiff⟩ := locate_eq_iff hu τ s
  obtain ⟨p', s₁, hp', hrest⟩ := Run.bind_eq_ok.1 h
  cases hp.symm.trans hp'
  obtain ⟨a, s₂, ha, hwrite⟩ := Run.bind_eq_ok.1 hrest
  refine ⟨p, a, s₂, hp, ha, hwrite, ?_, fun hsame => ?_⟩
  · rcases hkind with ⟨hnames, name, rfl⟩ | ⟨object, key, rfl⟩
    · cases hwrite
      rw [hiff, hnames]
      exact iff_of_true (List.forall_mem_nil _) (List.forall_mem_nil _)
    · obtain ⟨rfl, hset⟩ := write_member hwrite
      rw [hiff, hw.vars_kept hset]
  · rw [eval_of_locate hsame hu]
    exact read_of_write hw hwrite

/-! ### Lowered assignments -/

/-- The place of an assignment that is used as a value has no variable left in
its parts, or is mentioned again with nothing between. -/
theorem assigned_place {l r : Source.Expr} {n : Nat} {t : WritableTarget}
    {v : Expr} {e : Effects} (hl : l.isLocation)
    (h : targetAndValue l.span (reference pool l) (value pool r) true n = (.ok (t, v), e)) :
    t.readable = t.write ∧ (FixedPlace t.write ∨ SimplePlace t.write) ∧
      ∃ m e₂, value pool r m = (.ok v, e₂) ∧ (e₂.stmts ≠ [] → FixedPlace t.write) := by
  obtain ⟨ref, e₁, e₂, p, e₃, hr, hv, hp, rfl, rfl⟩ := targetAndValue_eq_ok h
  have hplace := isLocation_place hl hr
  have hfixed : e₂.stmts ≠ [] → FixedPlace p.toExpr := by
    intro hs
    rw [pinFor_of_ne_nil hs] at hp
    exact pinned_of_pinPlace hplace hp
  refine ⟨rfl, ?_, _, e₂, hv, hfixed⟩
  by_cases hs : e₂.stmts = []
  · rw [hs] at hp
    exact .inr (pinned_of_pinPlace hplace hp)
  · exact .inl (hfixed hs)

/-- An assignment as a value stands for the place that its last statement writes.
The place reads as what was written as long as it is where it was: exactly if the
variables left in its parts are what they were before the value was evaluated in
place.  There are none where the target is a variable or the value hoists
statements. -/
theorem assignment_readable {info : Source.NodeInfo} {op : Source.BinaryOp} {l r : Source.Expr}
    {n : Nat} {u : Expr} {ss : List Stmt} {eff : Effects} (hop : op.isAssignment)
    (hl : l.isLocation) (h : expression pool (.binary info op l r) n = (.ok (u, ss), eff)) :
    ∃ before x, ss = before ++ [.assign u x] ∧
      (∀ name, l.variable? = some name → u = .ident name) ∧
      (∃ m v e, value pool r m = (.ok v, e) ∧ (e.stmts ≠ [] → partNames u = [])) ∧
      ∀ w : World, w.PlainMembers → ∀ (τ τ' : Temps w) (s s' : w.State),
        execAll ss τ s = (.ok τ', s') →
        ∃ τ₁ s₁ p a s₂, execAll before τ s = (.ok τ₁, s₁) ∧ locate τ₁ u s₁ = (.ok p, s₁) ∧
          eval τ₁ x s₁ = (.ok a, s₂) ∧ p.write τ₁ a s₂ = (.ok τ', s') ∧
          (locate τ' u s' = (.ok p, s') ↔ ∀ name ∈ partNames u, s₂.vars name = s₁.vars name) ∧
          (locate τ' u s' = (.ok p, s') → eval τ' u s' = (.ok a, s')) := by
  have hpattern : l.isPattern = false := by cases l <;> first | rfl | cases hl
  rw [expression_assignment hop hpattern] at h
  obtain ⟨⟨⟨t, v⟩, before⟩, hcapture, hu⟩ := map_eq_ok.1 h
  obtain ⟨e, htarget, rfl, rfl⟩ := capture_eq_ok.1 hcapture
  obtain ⟨hread, hplace, m, e₂, hv, hfixed⟩ := assigned_place hl htarget
  cases hu
  rw [hread]
  refine ⟨e.stmts, _, rfl, ?_, ⟨m, v, e₂, hv, fun hs => names_of_fixedPlace (hfixed hs)⟩, ?_⟩
  · intro name hname
    obtain ⟨ref, href, hwhole⟩ := reference_variable pool hname
    rw [href] at htarget
    obtain ⟨-, rfl⟩ := targetAndValue_whole_eq_ok hwhole htarget
    rfl
  · intro w hw τ τ' s s' hrun
    rw [Target.execAll_append] at hrun
    obtain ⟨τ₁, s₁, hbefore, hlast⟩ := Run.bind_eq_ok.1 hrun
    rw [Target.execAll_single] at hlast
    obtain ⟨p, a, s₂, hp, ha, hwrite, hiff, hsame⟩ := eval_of_written hw hplace hlast
    exact ⟨τ₁, s₁, p, a, s₂, hbefore, hp, ha, hwrite, hiff, hsame⟩

/-- `o[i] = i++` -/
def assignUpdatedIndex : Source.Expr :=
  let info : Source.NodeInfo := ⟨.dummy, .unknown⟩
  .binary info .assign (.element info (.ident info "o") (.ident info "i"))
    (.postfixed info .increment (.ident info "i"))

/-- The update is hoisted, so the object and the index are bound before it. -/
theorem assignment_readable_assignUpdatedIndex :
    ∃ ss, (expression .fresh assignUpdatedIndex 0).1 = .ok (.index (.temp 1) (.temp 2), ss) ∧
      ∀ w : World, w.PlainMembers → ∀ (τ τ' : Temps w) (s s' : w.State),
        execAll ss τ s = (.ok τ', s') → ∃ a, eval τ' (.index (.temp 1) (.temp 2)) s' = (.ok a, s') := by
  have hcode : expression .fresh assignUpdatedIndex 0 = (.ok (.index (.temp 1) (.temp 2),
      [.declareTemp 1 (.ident "o"), .declareTemp 2 (.ident "i"), .declareTemp 0 (.ident "i"),
        .compound .add (.ident "i") (.number .one), .assign (.index (.temp 1) (.temp 2)) (.temp 0)]),
      (expression .fresh assignUpdatedIndex 0).2) := rfl
  obtain ⟨before, x, -, -, -, hrun⟩ := assignment_readable rfl rfl hcode
  refine ⟨_, congrArg Prod.fst hcode, fun w hw τ τ' s s' hexec => ?_⟩
  obtain ⟨τ₁, s₁, p, a, s₂, -, -, -, -, hiff, hsame⟩ := hrun w hw τ τ' s s' hexec
  exact ⟨a, hsame (hiff.2 (List.forall_mem_nil _))⟩

/-- A world in which every call gives one variable a new value and answers true. -/
def rebindingWorld (name : String) (value : Value Nat) : World where
  Ref := Nat
  Heap := Value Nat → Value Nat → Value Nat
  Error := Unit
  call _ _ s := (.ok (.bool true),
    { s with vars := fun x => if x = name then value else s.vars x })
  member object key s := .ok (s.heap object key)
  setMember object key v s := (.ok (),
    { s with heap := fun o k => if o = object ∧ k = key then v else s.heap o k })
  binary _ _ _ s := (.error (), s)
  unary _ _ s := (.error (), s)
  table _ s := (.error (), s)
  pack _ s := (.error (), s)
  stuck := ()

theorem plainMembers_rebindingWorld (name : String) (v : Value Nat) :
    (rebindingWorld name v).PlainMembers where
  read_back := by
    intro object key v s s' h
    cases h
    exact congrArg Except.ok (if_pos ⟨rfl, rfl⟩)
  vars_kept := by
    intro object key v s s' h
    cases h
    rfl

/-- `a[i] = next()` -/
def assignCalled : Source.Expr :=
  let info : Source.NodeInfo := ⟨.dummy, .unknown⟩
  .binary info .assign (.element info (.ident info "a") (.ident info "i"))
    (.call info (.ident info "next") [])

/-- Calls set `i` from `first` to `second`. -/
abbrev indexRebound : World := rebindingWorld "i" (.string "second")

def beforeRebound : indexRebound.State :=
  ⟨⟨fun x => if x = "a" then .ref (0 : Nat) else .string "first", fun _ _ => .nil⟩, []⟩

/-- When the call moves the index on, true is written to the first element, and
the assignment stands for the second, which holds nothing. -/
theorem assigned_not_readable :
    (expression .fresh assignCalled 0).1 = .ok (.index (.ident "a") (.ident "i"),
        [.assign (.index (.ident "a") (.ident "i")) (.call (.ident "next") [])]) ∧
      indexRebound.PlainMembers ∧ ∀ τ : Temps indexRebound, ∃ after,
        execAll [.assign (.index (.ident "a") (.ident "i")) (.call (.ident "next") [])] τ
          beforeRebound = (.ok τ, after) ∧
        after.heap (.ref (0 : Nat)) (.string "first") = .bool true ∧
        (eval τ (.index (.ident "a") (.ident "i")) after).1 = .ok .nil :=
  ⟨rfl, plainMembers_rebindingWorld _ _, fun _ => ⟨_, rfl, rfl, rfl⟩⟩

end Lower

end ScriptLowering
