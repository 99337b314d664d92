import ScriptLowering.Proofs.Lowering.Files
import ScriptLowering.Proofs.Temporaries.Expressions

/-!
# Temporaries of a file

The statements of a file declare the temporaries of its unit, each of them once,
and use none outside the list or the block that declares it.

    f is lowered to ss → Scoped [] ss, declaring each id below temps.size once   (compileFile_temps)
-/

namespace ScriptLowering.Lower

open Source.Expr (TargetsAre)
open Target (Expr Stmt)
open Target.Stmt (Scoped declared declaredWithin)

/-- The resulting statements stand by themselves and declare what was allocated. -/
def TidyStatements (writable : Expr → Prop) (x : Lower (List Stmt)) : Prop :=
  ∀ ⦃n ss e⦄, x n = (.ok ss, e) → Scoped writable [] ss ∧
    (declaredWithin ss).Perm (List.range' n e.temps.length)

/-- Whatever is no temporary, in parentheses or not. -/
def NoTemp (e : Expr) : Prop := ∀ id, e.core ≠ .temp id

variable {writable : Expr → Prop} {P : Source.Expr → Prop} {pool : TypePool}

/-! ### Statements -/

theorem lastIn_discard {e : Expr} {W : List Nat} (h : e.ReadsIn W) :
    ∀ s ∈ discard e, LastIn writable s W := by
  intro s hs
  unfold discard at hs
  split at hs
  next hc =>
    cases hs
    exact ⟨.call h .nil, rfl⟩
  next =>
    split at hs <;> cases hs
    exact ⟨.declare (by simpa using h) .nil, rfl⟩

/-- A statement's own action ends in one statement, or in none. -/
theorem tidy_statementBody (hw : AllowsMembers writable)
    (hP : ∀ l, P l → MayWrite writable (reference pool l)) {e : Source.Expr}
    (h : e.Everywhere (TargetsAre P)) {V : List Nat} :
    Tidy writable V (statementBody pool e) fun o W => ∀ s ∈ o, LastIn writable s W := by
  have node {c : Source.Expr} (hc : c ∈ e.children) : TidyNode writable P pool c :=
    tidy_node hw hP (h.parts c hc)
  have value : Tidy writable V (discard <$> value pool e) fun o W =>
      ∀ s ∈ o, LastIn writable s W :=
    ((tidy_node hw hP h).value V).map fun _ _ hv => lastIn_discard hv
  have one {x : Lower Stmt} (hx : Tidy writable V x (LastIn writable)) :
      Tidy writable V (some <$> x) fun o W => ∀ s ∈ o, LastIn writable s W :=
    hx.map fun _ _ hs => by simpa using hs
  cases e with
  | binary info op l r =>
    have hl := node (c := l) (by simp [Source.Expr.children])
    have hr := node (c := r) (by simp [Source.Expr.children])
    by_cases hdrop : l.isPattern = true ∨ op.isAssignment = false
    · rw [statementBody_binary pool info l r op hdrop]
      exact value
    obtain ⟨hp, hop⟩ : l.isPattern = false ∧ op.isAssignment = true := by simpa using hdrop
    rcases (Source.BinaryOp.isAssignment_iff op).1 hop with rfl | ⟨op, rfl⟩
    · have hl' : MayWrite writable (reference pool l) :=
        hP l (Source.Expr.TargetOf.of_not_pattern h.here hp)
      rw [statementBody_assign pool info l r hp]
      exact one (tidy_assignStatement hw (hl.reference V) hl' (hr.value V))
    · have hl' : MayWrite writable (reference pool l) :=
        hP l (Source.Expr.TargetOf.of_not_pattern h.here hp)
      rw [statementBody_assignWith pool info l r op hp]
      exact one (tidy_compoundStatement hw (hl.reference V) hl' (hr.value V))
  | prefixed info op inner =>
    have hi := node (c := inner) (by simp [Source.Expr.children])
    cases op with
    | update op => exact one (tidy_updateStatement (hi.reference V) (hP inner h.here))
    | _ => exact value
  | postfixed info op inner =>
    have hi := node (c := inner) (by simp [Source.Expr.children])
    exact one (tidy_updateStatement (hi.reference V) (hP inner h.here))
  | call info callee args =>
    obtain ⟨hf, ha⟩ := List.forall_mem_cons.1 h.parts
    have parts {c : Source.Expr} (hc : c.Everywhere (TargetsAre P)) :
        ∀ d ∈ c.children, TidyNode writable P pool d :=
      fun d hd => tidy_node hw hP (hc.parts d hd)
    have hargs : ∀ c ∈ args, TidyNode writable P pool c := fun c hc => tidy_node hw hP (ha c hc)
    exact (tidy_call (tidy_node hw hP hf) (parts hf) hargs (fun c hc => parts (ha c hc))
      .statement).map fun _ _ hv => lastIn_discard hv
  | _ => exact value

theorem tidyStatements_expressionStatement (hw : AllowsMembers writable)
    (hP : ∀ l, P l → MayWrite writable (reference pool l)) {e : Source.Expr}
    (h : e.Everywhere (TargetsAre P)) :
    TidyStatements writable (expressionStatement pool e) := by
  intro n ss e' hok
  obtain ⟨⟨last, stmts⟩, e₁, e₂, hc, hss, rfl⟩ := bind_eq_ok.1 hok
  obtain ⟨e₃, hb, rfl, rfl⟩ := capture_eq_ok.1 hc
  obtain ⟨k, q⟩ := tidy_statementBody hw hP h (V := []) hb
  cases hss
  rw [Effects.append_none]
  cases last with
  | none => exact ⟨by simpa using k.inScope, by simpa using k.fresh⟩
  | some s =>
    obtain ⟨hin, hd⟩ := q (declared e₃.stmts ++ []) (by simp) (by simp) s rfl
    exact ⟨k.inScope.append hin, by simpa [hd] using k.fresh⟩

theorem tidyStatements_topLevel (hw : AllowsMembers writable)
    (hP : ∀ l, P l → MayWrite writable (reference pool l)) {s : Source.Stmt Source.Expr}
    (h : ∀ e ∈ s.expr?, e.Everywhere (TargetsAre P)) :
    TidyStatements writable (topLevel pool s) := by
  have quiet {ss : List Stmt} (hs : Scoped writable [] ss) (hd : declaredWithin ss = []) :
      TidyStatements writable (pure ss) := by
    rintro n _ _ ⟨⟩
    exact ⟨hs, hd ▸ .refl _⟩
  rcases s with ⟨kind, span⟩
  cases kind with
  | expr e => exact tidyStatements_expressionStatement hw hP (h e rfl)
  | letDecl name init =>
    cases init with
    | none => exact quiet (.declare (by simp) .nil) rfl
    | some e =>
      intro n ss e' hok
      obtain ⟨⟨v, stmts⟩, e₁, e₂, hc, hss, rfl⟩ := bind_eq_ok.1 hok
      obtain ⟨e₃, hv, rfl, rfl⟩ := capture_eq_ok.1 hc
      obtain ⟨k, q⟩ := (tidy_node hw hP (h e rfl)).value [] hv
      cases hss
      rw [Effects.append_none]
      have hlast : Scoped writable (declared e₃.stmts ++ []) [.declare (.name name) (some v)] :=
        .declare (by simpa using q _ (by simp) (by simp)) .nil
      refine ⟨k.inScope.append hlast, ?_⟩
      simpa [declaredWithin, Stmt.declaresWithin, Target.Binding.temps] using k.fresh
  | importDecl | exportDecl => exact quiet .nil rfl

/-- The statements of a list follow one another; none needs a temporary of another. -/
theorem tidyStatements_statements (hw : AllowsMembers writable)
    (hP : ∀ l, P l → MayWrite writable (reference pool l)) {trees : Source.Forest}
    {stmts : List (Source.Stmt ExprId)}
    (h : ∀ s ∈ stmts, ∀ s', s.read trees = .ok s' → ∀ e ∈ s'.expr?, e.Everywhere (TargetsAre P)) :
    TidyStatements writable (statements pool trees stmts) := by
  induction stmts with
  | nil =>
    rintro n _ _ ⟨⟩
    exact ⟨.nil, .refl _⟩
  | cons s rest ih =>
    intro n ss e hok
    obtain ⟨s', e₁, e', hread, htail, rfl⟩ := bind_eq_ok.1 hok
    obtain ⟨ss₁, e₂, e₃, h₁, h₂, rfl⟩ := bind_eq_ok.1 htail
    rw [← map_eq_pure_bind] at h₂
    obtain ⟨ss₂, hrest, rfl⟩ := map_eq_ok.1 h₂
    cases hr : s.read trees with
    | error f =>
      rw [hr] at hread
      cases hread
    | ok t =>
      rw [hr] at hread
      cases hread
      obtain ⟨hs, htail⟩ := List.forall_mem_cons.1 h
      obtain ⟨hs₁, hp₁⟩ := tidyStatements_topLevel hw hP (hs _ hr) h₁
      obtain ⟨hs₂, hp₂⟩ := ih htail hrest
      refine ⟨hs₁.append (hs₂.mono (by simp)), ?_⟩
      have := hp₁.append hp₂
      rw [List.range'_append_1] at this
      simpa using this

/-! ### Targets -/

theorem allowsMembers_noTemp : AllowsMembers NoTemp :=
  ⟨fun _ _ _ => by simp [Expr.core], fun _ _ _ => by simp [Expr.core]⟩

/-- What can be written to in the source is no temporary of the target. -/
theorem mayWrite_of_isAssignable {l : Source.Expr} (h : l.isAssignable) :
    MayWrite NoTemp (reference pool l) := by
  fun_induction Source.Expr.isAssignable l with
  | case1 info name =>
    rintro n r e ⟨⟩ id
    simp [Reference.ofExpr, Reference.place, Place.toExpr, Expr.core]
  | case2 info object name =>
    intro n r e hok id
    obtain ⟨o, e₁, e₂, -, hr, -⟩ := bind_eq_ok.1 hok
    cases hr
    simp [Reference.place, Place.toExpr, Expr.core]
  | case3 info object index =>
    intro n r e hok id
    obtain ⟨⟨o, i⟩, e₁, e₂, -, hr, -⟩ := bind_eq_ok.1 hok
    cases hr
    simp [Reference.place, Place.toExpr, Expr.core]
  | case4 info es =>
    intro n r e hok id
    obtain ⟨vs, e₁, e₂, -, hr, -⟩ := bind_eq_ok.1 hok
    cases hr
    simp [Reference.ofExpr, Reference.place, Place.toExpr, Expr.core]
  | case5 info ps =>
    intro n r e hok id
    obtain ⟨vs, e₁, e₂, -, hr, -⟩ := bind_eq_ok.1 hok
    cases hr
    simp [Reference.ofExpr, Reference.place, Place.toExpr, Expr.core]
  | case6 info inner ih =>
    intro n r e hok
    obtain ⟨r', hr, rfl⟩ := map_eq_ok.1 hok
    rw [Reference.place_paren]
    exact ih h hr
  | case7 => cases h

/-! ### Files -/

/-- In a lowered file the temporaries of the unit are those that are declared,
each of them once, and none is used where it is not visible. -/
theorem compileFile_temps {c : Check.Checklist} {f : Source.File} {o : FileOutput}
    {ss : List Stmt} (h : compileFile c f = .ok o) (hs : o.stmts = some ss)
    (ht : f.Everywhere (TargetsAre (·.isAssignable))) :
    Scoped NoTemp [] ss ∧ (declaredWithin ss).Perm (List.range o.temps.size) ∧
      ∀ id, .temp id ∈ Stmt.leavesAll ss → id < o.temps.size := by
  obtain ⟨e, hf, htemps⟩ := compileFile_eq_ok h hs
  obtain ⟨hin, hd⟩ := tidyStatements_statements allowsMembers_noTemp
    (fun l => mayWrite_of_isAssignable) ht hf
  have hp : (declaredWithin ss).Perm (List.range o.temps.size) := by
    simpa [htemps, List.range_eq_range'] using hd
  refine ⟨hin, hp, fun id hid => ?_⟩
  rcases hin.mem_of_temp id hid with h | h
  · cases h
  · simpa using hp.mem_iff.1 h

/-- `a && x++` -/
def guardedUpdate : Source.File where
  path := "update.ts"
  arena :=
    ⟨#[⟨.ident "a", .dummy⟩, ⟨.ident "x", .dummy⟩, ⟨.postfixed .increment ⟨1⟩, .dummy⟩,
      ⟨.binary (.logical .and) ⟨0⟩ ⟨2⟩, .dummy⟩], #[], #[]⟩
  types := .fresh
  stmts := [⟨.expr ⟨3⟩, .dummy⟩]

theorem compileFile_temps_guardedUpdate :
    ∃ o ss, compileFile .empty guardedUpdate = .ok o ∧ o.stmts = some ss ∧
      guardedUpdate.Everywhere (TargetsAre (·.isAssignable)) ∧ Scoped NoTemp [] ss ∧
      (declaredWithin ss).Perm (List.range o.temps.size) ∧
      ∀ id, .temp id ∈ Stmt.leavesAll ss → id < o.temps.size := by
  have ht : guardedUpdate.Everywhere (TargetsAre (·.isAssignable)) := by
    rintro _ (_ | ⟨_, ⟨⟩⟩) _ ⟨⟩ _ ⟨⟩
    have leaf (name : String) : (Source.Expr.ident ⟨.dummy, .unknown⟩ name).Everywhere
        (TargetsAre (·.isAssignable)) := .mk trivial (by simp [Source.Expr.children])
    refine .mk trivial ?_
    rintro _ (_ | ⟨_, _ | ⟨_, ⟨⟩⟩⟩)
    · exact leaf "a"
    · refine .mk rfl ?_
      rintro _ (_ | ⟨_, ⟨⟩⟩)
      exact leaf "x"
  have h := compileFile_empty (f := guardedUpdate) rfl
  exact ⟨_, _, h, rfl, ht, compileFile_temps h rfl ht⟩

end ScriptLowering.Lower
