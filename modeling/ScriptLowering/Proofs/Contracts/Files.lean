import ScriptLowering.Proofs.Contracts.Expressions
import ScriptLowering.Proofs.Lowering.Files

/-!
# Files under a contract

A file keeps a contract when its expressions do.  With a contract that lets
identifiers, temporaries and members be written to, the code of a file is formed.

    f lowered to ss, its targets identifiers, members or patterns of them
      → FormedAll isLocation ss                                       (compileFile_formed)
-/

namespace ScriptLowering.Lower

open Source.Expr (TargetsAre)
open Target (Expr Stmt)
open Target.Stmt (FormedAll)

variable {K : Contract} {P : Source.Expr → Prop} {pool : TypePool}

/-! ### Statements -/

theorem formed_discard {e : Expr} (h : e.Formed) : ∀ s ∈ discard e, s.Formed K.writable := by
  intro s hs
  unfold discard at hs
  split at hs
  next hc =>
    cases hs
    exact ⟨hc, h⟩
  next hc =>
    split at hs <;> cases hs
    next hi => exact ⟨⟨by simpa using hi, by simpa using hc⟩, h⟩

/-- A statement's own action ends in one formed statement, or in none. -/
theorem ensures_statementBody (hP : ∀ l, P l → MayWrite K.writable (reference pool l))
    {e : Source.Expr} (h : e.Everywhere (K.Admits P pool)) :
    Ensures K (statementBody pool e) fun o => ∀ s ∈ o, s.Formed K.writable := by
  have node {c : Source.Expr} (hc : c ∈ e.children) : EnsuresNode K P pool c :=
    ensures_node hP (h.parts c hc)
  have drop {x : Lower Expr} (hx : Ensures K x Expr.Formed) :
      Ensures K (discard <$> x) fun o => ∀ s ∈ o, s.Formed K.writable :=
    hx.map fun _ hv => formed_discard hv
  have one {x : Lower Stmt} (hx : Ensures K x (Stmt.Formed K.writable)) :
      Ensures K (some <$> x) fun o => ∀ s ∈ o, s.Formed K.writable :=
    hx.map fun _ hs => by simpa using hs
  have value : Ensures K (discard <$> value pool e) fun o => ∀ s ∈ o, s.Formed K.writable :=
    drop (ensures_node hP h).value
  have htargets := h.here.targets
  cases e with
  | binary info op l r =>
    have hl := node (c := l) (by simp [Source.Expr.children])
    have hr := node (c := r) (by simp [Source.Expr.children])
    by_cases hdrop : l.isPattern = true ∨ op.isAssignment = false
    · rw [statementBody_binary pool info l r op hdrop]
      exact value
    obtain ⟨hp, hop⟩ : l.isPattern = false ∧ op.isAssignment = true := by simpa using hdrop
    rcases (Source.BinaryOp.isAssignment_iff op).1 hop with rfl | ⟨op, rfl⟩
    · have hl' : MayWrite K.writable (reference pool l) :=
        hP l (Source.Expr.TargetOf.of_not_pattern htargets hp)
      rw [statementBody_assign pool info l r hp]
      exact one (ensures_assignStatement hl.reference hl' hr.value)
    · have hl' : MayWrite K.writable (reference pool l) :=
        hP l (Source.Expr.TargetOf.of_not_pattern htargets hp)
      rw [statementBody_assignWith pool info l r op hp]
      exact one (ensures_compoundStatement hl.reference hl' hr.value)
  | prefixed info op inner =>
    have hi := node (c := inner) List.mem_cons_self
    cases op with
    | update op => exact one (ensures_updateStatement hi.reference (hP inner htargets))
    | _ => exact value
  | postfixed info op inner =>
    have hi := node (c := inner) List.mem_cons_self
    exact one (ensures_updateStatement hi.reference (hP inner htargets))
  | call info callee args =>
    obtain ⟨hf, ha⟩ := List.forall_mem_cons.1 h.parts
    have parts {c : Source.Expr} (hc : c.Everywhere (K.Admits P pool)) :
        ∀ d ∈ c.children, EnsuresNode K P pool d := fun d hd => ensures_node hP (hc.parts d hd)
    have hargs : ∀ c ∈ args, EnsuresNode K P pool c := fun c hc => ensures_node hP (ha c hc)
    exact drop (ensures_call (ensures_node hP hf) (parts hf) hargs (fun c hc => parts (ha c hc))
      .statement)
  | _ => exact value

theorem ensures_topLevel (hP : ∀ l, P l → MayWrite K.writable (reference pool l))
    {s : Source.Stmt Source.Expr} (h : ∀ e ∈ s.expr?, e.Everywhere (K.Admits P pool)) :
    Ensures K (topLevel pool s) (FormedAll K.writable) := by
  rcases s with ⟨kind, span⟩
  cases kind with
  | expr e =>
    refine (ensures_statementBody hP (h e rfl)).capture.bind ?_
    rintro ⟨last, ss⟩ ⟨hlast, hss⟩
    refine .pure ((Stmt.formedAll_append _ _).2 ⟨hss, ?_⟩)
    cases last with
    | none => trivial
    | some s => exact ⟨hlast s rfl, trivial⟩
  | letDecl name init =>
    cases init with
    | none => exact .pure ⟨trivial, trivial⟩
    | some e =>
      refine (ensures_node hP (h e rfl)).value.capture.bind ?_
      rintro ⟨v, ss⟩ ⟨hv, hss⟩
      exact .pure ((Stmt.formedAll_append _ _).2 ⟨hss, hv, trivial⟩)
  | importDecl | exportDecl => exact .pure trivial

theorem ensures_statements (hP : ∀ l, P l → MayWrite K.writable (reference pool l))
    {trees : Source.Forest} {stmts : List (Source.Stmt ExprId)}
    (hread : ∀ s ∈ stmts, ∀ f, s.read trees = .error f → K.allowed f)
    (h : ∀ s ∈ stmts, ∀ s', s.read trees = .ok s' →
      ∀ e ∈ s'.expr?, e.Everywhere (K.Admits P pool)) :
    Ensures K (statements pool trees stmts) (FormedAll K.writable) := by
  induction stmts with
  | nil => exact .pure trivial
  | cons s rest ih =>
    obtain ⟨hs, hrest⟩ := List.forall_mem_cons.1 h
    obtain ⟨hreads, hreadrest⟩ := List.forall_mem_cons.1 hread
    refine (Ensures.ofFault (Q := fun s' => s.read trees = .ok s') (fun _ => id) hreads).bind ?_
    intro s' hs'
    refine (ensures_topLevel hP (hs s' hs')).bind ?_
    intro ss hss
    refine (ih hreadrest hrest).bind ?_
    intro tt htt
    exact .pure ((Stmt.formedAll_append _ _).2 ⟨hss, htt⟩)

/-! ### Formed code -/

/-- What a location of the source is lowered to is a location of the target. -/
theorem mayWrite_of_isLocation {l : Source.Expr} (hl : l.isLocation) :
    MayWrite (·.isLocation) (reference pool l) := by
  intro n r e h
  have hplace := isLocation_place hl h
  cases hr : r.place with
  | whole u =>
    obtain ⟨name, rfl⟩ : ∃ name, u = .ident name := by rwa [hr] at hplace
    rfl
  | property | index => rfl

/-- Locations may be written to, and any fault may be raised. -/
def Contract.locations : Contract where
  writable e := e.isLocation
  members := ⟨fun _ _ => rfl, fun _ _ => rfl⟩
  temp _ := rfl
  allowed _ := True

/-- In a lowered file whose targets are locations or patterns of them, at every depth
call statements and packs hold calls, what is assigned to is a location, no value
that is dropped is a call or simply read, and each branch ends by assigning to a
temporary. -/
theorem compileFile_formed {c : Check.Checklist} {f : Source.File} {o : FileOutput}
    {ss : List Stmt} (h : compileFile c f = .ok o) (hs : o.stmts = some ss)
    (ht : f.Everywhere (TargetsAre (·.isLocation))) : FormedAll (·.isLocation) ss := by
  obtain ⟨e, hf, -⟩ := compileFile_eq_ok h hs
  have admits : f.Everywhere (Contract.locations.Admits (·.isLocation) f.types.pool) :=
    ht.imp fun _ h => ⟨h, .inl fun _ _ _ _ => trivial⟩
  have hensures := ensures_statements (K := .locations) (fun l => mayWrite_of_isLocation)
    (fun _ _ _ _ => trivial) admits
  exact (hensures.of_ok hf).2

/-- `g && ((a.b) = f())`, where `f` returns several values -/
def guardedPack : Source.File where
  path := "pack.ts"
  arena :=
    ⟨#[⟨.ident "g", .dummy⟩, ⟨.ident "a", .dummy⟩, ⟨.property ⟨1⟩ "b", .dummy⟩,
      ⟨.paren ⟨2⟩, .dummy⟩, ⟨.ident "f", .dummy⟩, ⟨.call ⟨4⟩ .empty, .dummy⟩,
      ⟨.binary .assign ⟨3⟩ ⟨5⟩, .dummy⟩, ⟨.binary (.logical .and) ⟨0⟩ ⟨6⟩, .dummy⟩], #[], #[]⟩
  types := ((TypeTable.ofPool
    (TypePool.fresh.intern (.tupleReturn .never)).2).record ⟨0⟩ .boolean).record ⟨5⟩ ⟨7⟩
  stmts := [⟨.expr ⟨7⟩, .dummy⟩]

def guardedPackCode : List Stmt :=
  let target := Expr.property (.ident "a") "b"
  [.declareTemp 0 (.ident "g"),
    .ifThen (.temp 0) [.assign target (.pack (.call (.ident "f") [])), .assign (.temp 0) target]]

/-- The parenthesised member is written to without its parentheses, in the branch. -/
theorem compileFile_formed_guardedPack :
    ∃ o, compileFile .empty guardedPack = .ok o ∧ o.stmts = some guardedPackCode ∧
      guardedPack.Everywhere (TargetsAre (·.isLocation)) ∧
      FormedAll (·.isLocation) guardedPackCode := by
  have hcode : (file guardedPack 0).1 = .ok guardedPackCode := rfl
  have hfile : file guardedPack 0 = (.ok guardedPackCode, (file guardedPack 0).2) := by rw [← hcode]
  have hc := compileFile_empty hfile
  have ht : guardedPack.Everywhere (TargetsAre (·.isLocation)) := by
    let info : Source.NodeInfo := ⟨.dummy, .unknown⟩
    have hbody : guardedPack.body = [⟨.expr (.binary info (.logical .and)
        (.ident ⟨.dummy, .boolean⟩ "g")
        (.binary info .assign (.paren info (.property info (.ident info "a") "b"))
          (.call ⟨.dummy, ⟨7⟩⟩ (.ident info "f") []))), .dummy⟩] := rfl
    have leaf (i : Source.NodeInfo) (name : String) :
        (Source.Expr.ident i name).Everywhere (TargetsAre (·.isLocation)) := .mk trivial nofun
    rw [Source.File.everywhere_iff, hbody]
    rintro _ (_ | ⟨_, ⟨⟩⟩) _ ⟨⟩
    refine .mk trivial (List.forall_mem_cons.2 ⟨leaf _ _, List.forall_mem_singleton.2 ?_⟩)
    refine .mk (.leaf rfl rfl) (List.forall_mem_cons.2 ⟨?_, List.forall_mem_singleton.2 ?_⟩)
    · exact .mk trivial (List.forall_mem_singleton.2
        (.mk trivial (List.forall_mem_singleton.2 (leaf _ _))))
    · exact .mk trivial (List.forall_mem_singleton.2 (leaf _ _))
  exact ⟨_, hc, rfl, ht, compileFile_formed hc rfl ht⟩

end ScriptLowering.Lower
