import Mathlib.Data.List.Permutation
import ScriptLowering.Proofs.Calls.Expressions
import ScriptLowering.Proofs.Lowering.Files

/-!
# Calls of a lowered file

A lowered file calls what its source calls, each as often and all in the same
order.

    f is lowered to ss → the names among f.calls that ss mentions are f.calls, in order   (compileFile_calls)
-/

namespace ScriptLowering.Lower

open Source.Expr (KeepsCalls IsTarget)
open Target (Expr Stmt)
open Target.Stmt (mentionsAll namesAll)

/-- The resulting statements mention the names in this order. -/
def MeetsAll (N : List String) (x : Lower (List Stmt)) (ns : List String) : Prop :=
  ∀ ⦃n ss e⦄, x n = (.ok ss, e) → mentionsAll N ss = ns

/-- The last statement, if there is one, has these names left. -/
def LastLeft (N : List String) (o : Option Stmt) (ps : List String) : Prop :=
  mentionsAll N o.toList = ps

variable {N : List String} {pool : TypePool}

/-! ### Statements -/

theorem left_discard {v : Expr} {ps : List String} (h : ValueLeft N v ps) :
    LastLeft N (discard v) ps := by
  unfold LastLeft discard
  split
  · simpa using h.left
  · split
    next hi => exact (h.simple (Expr.isSimple_of_isIdentifier hi)).symm
    next => simpa using h.left

theorem lastLeft_some {s : Stmt} {ps : List String} (h : StmtLeft N s ps) :
    LastLeft N (some s) ps := by
  unfold StmtLeft at h
  simpa [LastLeft] using h

theorem meets_statementBody (hN : Unwritten N) {e : Source.Expr}
    (h : e.Everywhere (KeepsCalls pool)) (ht : Tracks N pool e) :
    Meets N (LastLeft N) (statementBody pool e) e.calls := by
  have part {c : Source.Expr} (hm : c ∈ e.children) (hc : Tracks N pool c) :
      NodeMeets N pool c := meets_node hN (h.parts c hm) hc
  have dropped : Meets N (LastLeft N) (discard <$> value pool e) e.calls :=
    (meets_node hN h ht).value.map fun _ _ hv => left_discard hv
  have one {x : Lower Stmt} {ns : List String} (hx : Meets N (StmtLeft N) x ns) :
      Meets N (LastLeft N) (some <$> x) ns := hx.map fun _ _ hs => lastLeft_some hs
  have hk := h.here.targets
  cases e with
  | binary info op l r =>
    have hl := part (c := l) List.mem_cons_self (ht.part List.mem_cons_self (by simp))
    have hr := part (c := r) (List.mem_cons_of_mem _ List.mem_cons_self)
      (ht.part (List.mem_cons_of_mem _ List.mem_cons_self) (by simp))
    by_cases hdrop : l.isPattern = true ∨ op.isAssignment = false
    · rw [statementBody_binary pool info l r op hdrop]
      exact dropped
    obtain ⟨hp, hop⟩ : l.isPattern = false ∧ op.isAssignment = true := by simpa using hdrop
    have hcalls : (Source.Expr.binary info op l r).calls = l.calls ++ r.calls := by
      simp [Source.Expr.calls, hp]
    rw [hcalls]
    rcases (Source.BinaryOp.isAssignment_iff op).1 hop with rfl | ⟨op, rfl⟩
    · rw [statementBody_assign pool info l r hp]
      exact one (meets_assignStatement (hl.target hk hp) hr.value)
    · rw [statementBody_assignWith pool info l r op hp]
      exact one (meets_compoundStatement hN (hl.target hk hp) hr.value)
  | prefixed info op inner =>
    have hi := part (c := inner) List.mem_cons_self (ht.part List.mem_cons_self (by simp))
    cases op with
    | update op => exact one (meets_updateStatement (hi.place hk))
    | _ => exact dropped
  | postfixed info op inner =>
    have hi := part (c := inner) List.mem_cons_self (ht.part List.mem_cons_self (by simp))
    exact one (meets_updateStatement (hi.place hk))
  | call info callee args =>
    exact (meets_call hN ht h.here (fun c hm => part hm)
      (fun c hm d hd htd => meets_node hN ((h.parts c hm).parts d hd) htd) .statement).map
        fun _ _ hv => left_discard hv
  | _ => exact dropped

theorem meetsAll_expressionStatement (hN : Unwritten N) {e : Source.Expr}
    (h : e.Everywhere (KeepsCalls pool)) (ht : Tracks N pool e) :
    MeetsAll N (expressionStatement pool e) e.calls := by
  intro n ss e' hok
  obtain ⟨⟨last, stmts⟩, e₁, e₂, hc, hss, rfl⟩ := bind_eq_ok.1 hok
  obtain ⟨e₃, hb, rfl, rfl⟩ := capture_eq_ok.1 hc
  obtain ⟨ps, hps, heq⟩ := meets_statementBody hN h ht hb
  unfold LastLeft at hps
  cases hss
  rw [Stmt.mentionsAll_append, hps, heq]

theorem meetsAll_topLevel (hN : Unwritten N) {s : Source.Stmt Source.Expr}
    (h : ∀ e ∈ s.expr?, e.Everywhere (KeepsCalls pool)) (hc : ∀ x ∈ s.calls, x ∈ N)
    (ho : ∀ x ∈ s.others pool, x ∉ N) : MeetsAll N (topLevel pool s) s.calls := by
  rcases s with ⟨kind, span⟩
  cases kind with
  | expr e =>
    have hcalls : (⟨.expr e, span⟩ : Source.Stmt Source.Expr).calls = e.calls :=
      List.append_nil _
    rw [hcalls] at hc ⊢
    exact meetsAll_expressionStatement hN (h e rfl) ⟨hc, ho⟩
  | letDecl name init =>
    have hname : name ∉ N := ho name List.mem_cons_self
    cases init with
    | none =>
      rintro n _ _ ⟨⟩
      simp [Stmt.mentions_declareName hname, Source.Stmt.calls,
        Source.Stmt.expr?]
    | some e =>
      have hcalls : (⟨.letDecl name (some e), span⟩ : Source.Stmt Source.Expr).calls = e.calls :=
        List.append_nil _
      rw [hcalls] at hc ⊢
      have ht : Tracks N pool e := ⟨hc, fun x hx =>
        ho x (List.mem_cons_of_mem _ (List.mem_append_left _ hx))⟩
      intro n ss e' hok
      obtain ⟨⟨v, stmts⟩, e₁, e₂, hcap, hss, rfl⟩ := bind_eq_ok.1 hok
      obtain ⟨e₃, hv, rfl, rfl⟩ := capture_eq_ok.1 hcap
      obtain ⟨ps, hps, heq⟩ := (meets_node hN (h e rfl) ht).value hv
      cases hss
      simp [Stmt.mentions_declareName hname, hps.left, heq]
  | importDecl | exportDecl =>
    rintro n _ _ ⟨⟩
    rfl

/-- What is asked of every statement that can be read. -/
structure TracksStmts (N : List String) (pool : TypePool) (trees : Source.Forest)
    (stmts : List (Source.Stmt ExprId)) : Prop where
  nodes : ∀ s ∈ stmts, ∀ s', s.read trees = .ok s' →
    ∀ e ∈ s'.expr?, e.Everywhere (KeepsCalls pool)
  calls : ∀ s ∈ stmts, ∀ s', s.read trees = .ok s' → ∀ x ∈ s'.calls, x ∈ N
  others : ∀ s ∈ stmts, ∀ s', s.read trees = .ok s' → ∀ x ∈ s'.others pool, x ∉ N

theorem TracksStmts.tail {trees : Source.Forest} {s : Source.Stmt ExprId}
    {rest : List (Source.Stmt ExprId)} (h : TracksStmts N pool trees (s :: rest)) :
    TracksStmts N pool trees rest where
  nodes t ht := h.nodes t (List.mem_cons_of_mem _ ht)
  calls t ht := h.calls t (List.mem_cons_of_mem _ ht)
  others t ht := h.others t (List.mem_cons_of_mem _ ht)

theorem meetsAll_statements (hN : Unwritten N) {trees : Source.Forest}
    {stmts : List (Source.Stmt ExprId)} (h : TracksStmts N pool trees stmts) :
    MeetsAll N (statements pool trees stmts)
      ((stmts.filterMap fun s => (s.read trees).toOption).flatMap Source.Stmt.calls) := by
  induction stmts with
  | nil =>
    rintro n _ _ ⟨⟩
    rfl
  | cons s rest ih =>
    intro n ss e hok
    obtain ⟨s', e₁, e', hread, htail, rfl⟩ := bind_eq_ok.1 hok
    obtain ⟨ss₁, e₂, e₃, h₁, h₂, rfl⟩ := bind_eq_ok.1 htail
    rw [← map_eq_pure_bind] at h₂
    obtain ⟨ss₂, hrest, rfl⟩ := map_eq_ok.1 h₂
    cases hr : s.read trees with
    | error f =>
      rw [hr] at hread
      cases hread
    | ok t =>
      rw [hr] at hread
      cases hread
      have hfirst := meetsAll_topLevel hN (h.nodes s List.mem_cons_self _ hr)
        (h.calls s List.mem_cons_self _ hr) (h.others s List.mem_cons_self _ hr) h₁
      have hrest := ih h.tail hrest
      rw [Stmt.mentionsAll_append, hfirst, hrest, List.filterMap_cons]
      simp [hr, Except.toOption]

/-! ### Files -/

theorem tracksStmts_file {f : Source.File} (h : f.Everywhere (KeepsCalls f.types.pool))
    (ho : ∀ x ∈ f.calls, x ∉ f.others) :
    TracksStmts f.calls f.types.pool (f.arena.trees f.types) f.stmts := by
  have mem {s : Source.Stmt ExprId} (hs : s ∈ f.stmts) {s' : Source.Stmt Source.Expr}
      (hr : s.read (f.arena.trees f.types) = .ok s') : s' ∈ f.body :=
    Source.File.mem_body.2 ⟨s, hs, hr⟩
  exact ⟨h, fun s hs s' hr x hx => List.mem_flatMap.2 ⟨s', mem hs hr, hx⟩,
    fun s hs s' hr x hx hc => ho x hc (List.mem_flatMap.2 ⟨s', mem hs hr, hx⟩)⟩

/-- The calls of a file are met in the order of the source, each of them as often
as in the source: once, where each call has a name of its own. -/
theorem compileFile_calls {c : Check.Checklist} {f : Source.File} {o : FileOutput}
    {ss : List Stmt} (h : compileFile c f = .ok o) (hs : o.stmts = some ss)
    (hk : f.Everywhere (KeepsCalls f.types.pool)) (hd : f.calls.Nodup)
    (ho : ∀ x ∈ f.calls, x ∉ f.others) (hw : ∀ x ∈ f.calls, x ∉ writtenNames) :
    (namesAll ss).filter (· ∈ f.calls) = f.calls ∧ ∀ x ∈ f.calls, (namesAll ss).count x = 1 := by
  obtain ⟨e, hf, -⟩ := compileFile_eq_ok h hs
  have hN : Unwritten f.calls := fun x hx hc => hw x hc hx
  have hcalls : (namesAll ss).filter (· ∈ f.calls) = f.calls :=
    meetsAll_statements hN (tracksStmts_file hk ho) hf
  refine ⟨hcalls, fun x hx => ?_⟩
  calc (namesAll ss).count x
      = ((namesAll ss).filter (· ∈ f.calls)).count x :=
        (List.count_filter (by simpa using hx)).symm
    _ = f.calls.count x := by rw [hcalls]
    _ = 1 := by rw [hd.count, if_pos hx]

/-- `f().x += g(i++)` -/
def addedCall : Source.File where
  path := "add.ts"
  arena :=
    ⟨#[⟨.ident "f", .dummy⟩, ⟨.call ⟨0⟩ .empty, .dummy⟩, ⟨.property ⟨1⟩ "x", .dummy⟩,
      ⟨.ident "g", .dummy⟩, ⟨.ident "i", .dummy⟩, ⟨.postfixed .increment ⟨4⟩, .dummy⟩,
      ⟨.call ⟨3⟩ ⟨0, 1⟩, .dummy⟩, ⟨.binary (.assignWith .add) ⟨2⟩ ⟨6⟩, .dummy⟩], #[⟨5⟩], #[]⟩
  types := .fresh
  stmts := [⟨.expr ⟨7⟩, .dummy⟩]

/-- All that the update could change is bound before it. -/
def addedCallCode : List Stmt :=
  [.declareTemp 2 (.call (.ident "f") []), .declareTemp 1 (.ident "g"),
    .declareTemp 0 (.ident "i"), .compound .add (.ident "i") (.number .one),
    .compound .add (.property (.temp 2) "x") (.call (.temp 1) [.temp 0])]

theorem compileFile_calls_addedCall :
    ∃ o, compileFile .empty addedCall = .ok o ∧ o.stmts = some addedCallCode ∧
      addedCall.Everywhere (KeepsCalls addedCall.types.pool) ∧ addedCall.calls = ["f", "g"] ∧
      (namesAll addedCallCode).filter (· ∈ addedCall.calls) = addedCall.calls ∧
      ∀ x ∈ addedCall.calls, (namesAll addedCallCode).count x = 1 := by
  let info : Source.NodeInfo := ⟨.dummy, .unknown⟩
  have hbody : addedCall.body = [⟨.expr (.binary info (.assignWith .add)
      (.property info (.call info (.ident info "f") []) "x")
      (.call info (.ident info "g") [.postfixed info .increment (.ident info "i")])), .dummy⟩] :=
    rfl
  have hk : addedCall.Everywhere (KeepsCalls addedCall.types.pool) := by
    have leaf (name : String) : (Source.Expr.ident info name).Everywhere
        (KeepsCalls addedCall.types.pool) := .mk ⟨rfl, trivial, trivial⟩ nofun
    rw [Source.File.everywhere_iff, hbody]
    rintro _ (_ | ⟨_, ⟨⟩⟩) _ ⟨⟩
    refine .mk ⟨rfl, trivial, .leaf rfl (.inl rfl)⟩ (List.forall_mem_cons.2 ⟨?_, ?_⟩)
    · refine .mk ⟨rfl, trivial, trivial⟩ (List.forall_mem_singleton.2 ?_)
      exact .mk ⟨rfl, trivial, trivial⟩ (List.forall_mem_singleton.2 (leaf "f"))
    · refine List.forall_mem_singleton.2 (.mk ⟨rfl, trivial, trivial⟩ ?_)
      refine List.forall_mem_cons.2 ⟨leaf "g", List.forall_mem_singleton.2 ?_⟩
      exact .mk ⟨rfl, trivial, .inl rfl⟩ (List.forall_mem_singleton.2 (leaf "i"))
  have hcalls : addedCall.calls = ["f", "g"] := by rw [Source.File.calls, hbody]; rfl
  have hothers : addedCall.others = ["i"] := by rw [Source.File.others, hbody]; rfl
  have hfile : file addedCall 0 = (.ok addedCallCode, (file addedCall 0).2) := rfl
  have h := compileFile_empty hfile
  exact ⟨_, h, rfl, hk, hcalls, compileFile_calls h rfl hk (by rw [hcalls]; decide)
    (by rw [hcalls, hothers]; decide) (by rw [hcalls]; decide)⟩

/-! ### Names met twice -/

/-- What a node promises without regard to patterns that are read again. -/
def Ordinary (pool : TypePool) (e : Source.Expr) : Prop :=
  e.isLoose = false ∧ e.HasNamedConstructor pool ∧ e.TargetsAre (·.isAssignable)

/-- The file has one call, and its lowered statements mention the callee twice. -/
structure MetTwice (f : Source.File) (x : String) : Prop where
  wellFormed : f.WellFormed
  nodes : f.Everywhere (Ordinary f.types.pool)
  calls : f.calls = [x]
  twice : ∃ o ss, compileFile .empty f = .ok o ∧ o.stmts = some ss ∧ (namesAll ss).count x = 2

/-- A file of one statement, by the tree that the statement is. -/
theorem metTwice_of_body {f : Source.File} {e : Source.Expr} {x : String} {ss : List Stmt}
    {eff : Effects} (hw : f.WellFormed) (hbody : f.body = [⟨.expr e, .dummy⟩])
    (he : e.Everywhere (Ordinary f.types.pool)) (hcalls : e.calls = [x])
    (hss : file f 0 = (.ok ss, eff)) (hcount : (namesAll ss).count x = 2) : MetTwice f x := by
  refine ⟨hw, ?_, ?_, _, ss, compileFile_empty hss, rfl, hcount⟩
  · rw [Source.File.everywhere_iff, hbody]
    rintro _ (_ | ⟨_, ⟨⟩⟩) _ ⟨⟩
    exact he
  · rw [Source.File.calls, hbody]
    simpa [Source.Stmt.calls, Source.Stmt.expr?] using hcalls

/-- `tonumber(+x)` -/
def convertedNumber : Source.File where
  path := "number.ts"
  arena :=
    ⟨#[⟨.ident "tonumber", .dummy⟩, ⟨.ident "x", .dummy⟩, ⟨.prefixed .plus ⟨1⟩, .dummy⟩,
      ⟨.call ⟨0⟩ ⟨0, 1⟩, .dummy⟩], #[⟨2⟩], #[]⟩
  types := .fresh
  stmts := [⟨.expr ⟨3⟩, .dummy⟩]

/-- `super - A()`, where the type of `super` is named `A` -/
def subtractedSuper : Source.File where
  path := "super.ts"
  arena :=
    ⟨#[⟨.super, .dummy⟩, ⟨.ident "A", .dummy⟩, ⟨.call ⟨1⟩ .empty, .dummy⟩,
      ⟨.binary (.arithmetic .sub) ⟨0⟩ ⟨2⟩, .dummy⟩], #[], #[]⟩
  types := (TypeTable.ofPool (TypePool.fresh.object (some "A") []).2).record ⟨0⟩ ⟨7⟩
  stmts := [⟨.expr ⟨3⟩, .dummy⟩]

/-- `y = ++[f().x]` -/
def updatedArray : Source.File where
  path := "array.ts"
  arena :=
    ⟨#[⟨.ident "y", .dummy⟩, ⟨.ident "f", .dummy⟩, ⟨.call ⟨1⟩ .empty, .dummy⟩,
      ⟨.property ⟨2⟩ "x", .dummy⟩, ⟨.array ⟨0, 1⟩, .dummy⟩,
      ⟨.prefixed (.update .increment) ⟨4⟩, .dummy⟩, ⟨.binary .assign ⟨0⟩ ⟨5⟩, .dummy⟩],
      #[⟨3⟩], #[]⟩
  types := .fresh
  stmts := [⟨.expr ⟨6⟩, .dummy⟩]

/-- `z = ([f().x]) = y` -/
def parenthesizedArray : Source.File where
  path := "paren.ts"
  arena :=
    ⟨#[⟨.ident "z", .dummy⟩, ⟨.ident "f", .dummy⟩, ⟨.call ⟨1⟩ .empty, .dummy⟩,
      ⟨.property ⟨2⟩ "x", .dummy⟩, ⟨.array ⟨0, 1⟩, .dummy⟩, ⟨.paren ⟨4⟩, .dummy⟩,
      ⟨.ident "y", .dummy⟩, ⟨.binary .assign ⟨5⟩ ⟨6⟩, .dummy⟩,
      ⟨.binary .assign ⟨0⟩ ⟨7⟩, .dummy⟩], #[⟨3⟩], #[]⟩
  types := .fresh
  stmts := [⟨.expr ⟨8⟩, .dummy⟩]

theorem everywhere_leaf {P : Source.Expr → Prop} {e : Source.Expr} (h : P e)
    (hc : e.children = []) : e.Everywhere P := .mk h (by simp [hc])

/-- `[f().x]` -/
theorem everywhere_calledMember {i₁ i₂ i₃ i₄ : Source.NodeInfo} {pool : TypePool} :
    (Source.Expr.array i₁ [.property i₂ (.call i₃ (.ident i₄ "f") []) "x"]).Everywhere
      (Ordinary pool) := by
  refine .mk ⟨rfl, trivial, trivial⟩ (List.forall_mem_singleton.2 ?_)
  refine .mk ⟨rfl, trivial, trivial⟩ (List.forall_mem_singleton.2 ?_)
  refine .mk ⟨rfl, trivial, trivial⟩ (List.forall_mem_singleton.2 ?_)
  exact everywhere_leaf ⟨rfl, trivial, trivial⟩ rfl

theorem metTwice_convertedNumber : MetTwice convertedNumber "tonumber" := by
  refine metTwice_of_body ⟨by decide, by decide⟩ rfl ?_ rfl rfl (by decide)
  refine .mk ⟨rfl, trivial, trivial⟩ (List.forall_mem_cons.2 ⟨?_, List.forall_mem_singleton.2 ?_⟩)
  · exact everywhere_leaf ⟨rfl, trivial, trivial⟩ rfl
  · refine .mk ⟨rfl, trivial, trivial⟩ (List.forall_mem_singleton.2 ?_)
    exact everywhere_leaf ⟨rfl, trivial, trivial⟩ rfl

theorem metTwice_subtractedSuper : MetTwice subtractedSuper "A" := by
  refine metTwice_of_body ⟨by decide, by decide⟩ rfl ?_ rfl rfl (by decide)
  refine .mk ⟨rfl, trivial, trivial⟩ (List.forall_mem_cons.2 ⟨?_, List.forall_mem_singleton.2 ?_⟩)
  · exact everywhere_leaf ⟨rfl, trivial, trivial⟩ rfl
  · refine .mk ⟨rfl, trivial, trivial⟩ (List.forall_mem_singleton.2 ?_)
    exact everywhere_leaf ⟨rfl, trivial, trivial⟩ rfl

theorem metTwice_updatedArray : MetTwice updatedArray "f" := by
  refine metTwice_of_body ⟨by decide, by decide⟩ rfl ?_ rfl rfl (by decide)
  refine .mk ⟨rfl, trivial, .leaf rfl rfl⟩ (List.forall_mem_cons.2 ⟨?_, ?_⟩)
  · exact everywhere_leaf ⟨rfl, trivial, trivial⟩ rfl
  · refine List.forall_mem_singleton.2 (.mk ⟨rfl, trivial, rfl⟩ (List.forall_mem_singleton.2 ?_))
    exact everywhere_calledMember

theorem metTwice_parenthesizedArray : MetTwice parenthesizedArray "f" := by
  refine metTwice_of_body ⟨by decide, by decide⟩ rfl ?_ rfl rfl (by decide)
  refine .mk ⟨rfl, trivial, .leaf rfl rfl⟩ (List.forall_mem_cons.2 ⟨?_, ?_⟩)
  · exact everywhere_leaf ⟨rfl, trivial, trivial⟩ rfl
  · refine List.forall_mem_singleton.2 (.mk ⟨rfl, trivial, .leaf rfl rfl⟩ ?_)
    refine List.forall_mem_cons.2 ⟨?_, List.forall_mem_singleton.2 ?_⟩
    · exact .mk ⟨rfl, trivial, trivial⟩ (List.forall_mem_singleton.2 everywhere_calledMember)
    · exact everywhere_leaf ⟨rfl, trivial, trivial⟩ rfl

/-- A callee is met again where lowering writes its name by itself, for a helper or
for a `super`; and the calls of a pattern, where the pattern is updated or assigned
to in parentheses and then read for its value. -/
theorem calls_met_twice :
    (MetTwice convertedNumber "tonumber" ∧ convertedNumber.others = ["x"]) ∧
    (MetTwice subtractedSuper "A" ∧ ∃ i₁ i₂ i₃ i₄, subtractedSuper.body =
      [⟨.expr (.binary i₁ (.arithmetic .sub) (.super i₂) (.call i₃ (.ident i₄ "A") [])), .dummy⟩]) ∧
    (MetTwice updatedArray "f" ∧ updatedArray.others = ["y"]) ∧
    (MetTwice parenthesizedArray "f" ∧ parenthesizedArray.others = ["z", "y"]) :=
  ⟨⟨metTwice_convertedNumber, rfl⟩, ⟨metTwice_subtractedSuper, _, _, _, _, rfl⟩,
    ⟨metTwice_updatedArray, rfl⟩, ⟨metTwice_parenthesizedArray, rfl⟩⟩

end ScriptLowering.Lower
