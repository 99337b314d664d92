import ScriptLowering.Proofs.Lowering.Files
import ScriptLowering.Proofs.Names.Expressions

/-!
# Names of a lowered file

The names of a source are written as they are, and lowering refers to the tables
of the target by name.  What the top level of the code declares by name are the
`let`s of the source, each at the end of the code of its statement; so a name is
captured exactly where an earlier `let` has it.

    the code of a statement declares what the statement declares          (locals_code)
    what is captured of a file, by the lets before each statement    (compileFile_captures)
-/

namespace ScriptLowering

namespace Source

/-- The name that a `let` declares. -/
def Stmt.let? {ε : Type} (s : Stmt ε) : Option String :=
  match s.kind with
  | .letDecl name _ => some name
  | .expr _ | .importDecl _ | .exportDecl _ => none

/-- The names that are declared by statements of the source. -/
def lets {ε : Type} (ss : List (Stmt ε)) : List String := ss.filterMap Stmt.let?

end Source

namespace Lower

open Nameless (nameless)
open Target (Expr Stmt)

/-- A source statement with the code that it is lowered to. -/
structure Piece (pool : TypePool) where
  source : Source.Stmt Source.Expr
  code : List Stmt
  lowered : ∃ n e, topLevel pool source n = (.ok code, e)

variable {pool : TypePool}

/-! ### Statements -/

theorem nameless_discard (e : Expr) : nameless (discard e) := by
  intro s hs
  unfold discard at hs
  split at hs
  · cases hs
    rfl
  · split at hs <;> cases hs
    rfl

theorem anonymous_statementBody (e : Source.Expr) : Anonymous (statementBody pool e) := by
  have node (c : Source.Expr) : AnonymousNode pool c := anonymous_node pool c
  have drop {x : Lower Expr} (hx : Anonymous x) : Anonymous (discard <$> x) :=
    hx.map fun v _ => nameless_discard v
  have one {x : Lower Stmt} (hx : Anonymous x) : Anonymous (some <$> x) :=
    hx.map fun s hs => by simpa [nameless] using hs
  have value : Anonymous (discard <$> value pool e) := drop (node e).value
  cases e with
  | binary info op l r =>
    by_cases hdrop : l.isPattern = true ∨ op.isAssignment = false
    · rw [statementBody_binary pool info l r op hdrop]
      exact value
    obtain ⟨hp, hop⟩ : l.isPattern = false ∧ op.isAssignment = true := by simpa using hdrop
    rcases (Source.BinaryOp.isAssignment_iff op).1 hop with rfl | ⟨op, rfl⟩
    · rw [statementBody_assign pool info l r hp]
      exact one (anonymous_assignStatement (node l).reference (node r).value)
    · rw [statementBody_assignWith pool info l r op hp]
      exact one (anonymous_compoundStatement (node l).reference (node r).value)
  | prefixed info op inner =>
    cases op with
    | update op => exact one (anonymous_updateStatement op (node inner).reference)
    | _ => exact value
  | postfixed info op inner => exact one (anonymous_updateStatement op (node inner).reference)
  | call info callee args =>
    exact drop (anonymous_call (node callee) (fun c _ => node c) (fun c _ => node c)
      (fun _ _ c _ => node c) .statement)
  | _ => exact value

/-- The code of a statement is nameless but for the local of a `let`, its last statement. -/
theorem topLevel_eq_ok {s : Source.Stmt Source.Expr} {n : Nat} {ss : List Stmt} {e : Effects}
    (h : topLevel pool s n = (.ok ss, e)) :
    (s.let? = none ∧ nameless ss) ∨ ∃ name pre v, s.let? = some name ∧ nameless pre ∧
      ss = pre ++ [.declare (.name name) v] := by
  rcases s with ⟨kind, span⟩
  cases kind with
  | expr e =>
    obtain ⟨⟨last, stmts⟩, e₁, e₂, hc, hss, rfl⟩ := bind_eq_ok.1 h
    obtain ⟨-, hlast, hstmts⟩ := (anonymous_statementBody e).capture hc
    cases hss
    refine .inl ⟨rfl, nameless_append hstmts ?_⟩
    simpa [nameless] using hlast
  | letDecl name init =>
    cases init with
    | none =>
      cases h
      exact .inr ⟨name, [], none, rfl, nameless_nil, rfl⟩
    | some init =>
      obtain ⟨⟨v, stmts⟩, e₁, e₂, hc, hss, rfl⟩ := bind_eq_ok.1 h
      obtain ⟨-, -, hstmts⟩ := (anonymous_node pool init).value.capture hc
      cases hss
      exact .inr ⟨name, stmts, some v, rfl, hstmts, rfl⟩
  | importDecl | exportDecl =>
    cases h
    exact .inl ⟨rfl, nameless_nil⟩

namespace Piece

theorem locals_code (p : Piece pool) : Stmt.locals p.code = p.source.let?.toList := by
  obtain ⟨n, e, h⟩ := p.lowered
  rcases topLevel_eq_ok h with ⟨hl, hcode⟩ | ⟨name, pre, v, hl, hpre, hcode⟩
  · rw [hl, nameless_iff_locals.1 hcode]
    rfl
  · rw [hl, hcode, Stmt.locals_append, nameless_iff_locals.1 hpre]
    rfl

/-- No statement of a piece comes after a local in the same piece. -/
theorem locals_before (p : Piece pool) {pre post : List Stmt} {s : Stmt}
    (hp : p.code = pre ++ s :: post) : Stmt.locals pre = [] := by
  obtain ⟨n, e, h⟩ := p.lowered
  have hdrop : nameless p.code.dropLast := by
    rcases topLevel_eq_ok h with ⟨-, hcode⟩ | ⟨name, pre, v, -, hpre, hcode⟩
    · exact fun s hs => hcode s (List.dropLast_subset _ hs)
    · rwa [hcode, List.dropLast_concat]
  rw [hp, List.dropLast_append_cons] at hdrop
  exact nameless_iff_locals.1 fun s hs => hdrop s (List.mem_append_left _ hs)

theorem locals_flatMap (ps : List (Piece pool)) :
    Stmt.locals (ps.flatMap (·.code)) = Source.lets (ps.map (·.source)) := by
  induction ps with
  | nil => rfl
  | cons p ps ih =>
    rw [List.flatMap_cons, Stmt.locals_append, p.locals_code, ih]
    cases hl : p.source.let? <;> simp [Source.lets, hl]

/-- The locals before a statement of a piece are the `let`s before the piece. -/
theorem locals_upTo (before : List (Piece pool)) (p : Piece pool) {pre post : List Stmt}
    {s : Stmt} (hp : p.code = pre ++ s :: post) :
    Stmt.locals (before.flatMap (·.code) ++ pre) = Source.lets (before.map (·.source)) := by
  rw [Stmt.locals_append, locals_flatMap, p.locals_before hp, List.append_nil]

theorem captures_iff {ps : List (Piece pool)} {name : String} :
    Stmt.Captures (ps.flatMap (·.code)) name ↔ ∃ before p after, ps = before ++ p :: after ∧
      name ∈ Source.lets (before.map (·.source)) ∧ name ∈ Stmt.referencesAll p.code := by
  rw [Stmt.captures_flatMap]
  constructor
  · rintro ⟨before, p, after, pre, s, post, hps, hp, hl, hr⟩
    rw [locals_upTo before p hp] at hl
    exact ⟨before, p, after, hps, hl, Stmt.mem_referencesAll.2 ⟨s, by simp [hp], hr⟩⟩
  · rintro ⟨before, p, after, hps, hl, hr⟩
    obtain ⟨s, hmem, hr⟩ := Stmt.mem_referencesAll.1 hr
    obtain ⟨pre, post, hp⟩ := List.append_of_mem hmem
    rw [← locals_upTo before p hp] at hl
    exact ⟨before, p, after, pre, s, post, hps, hp, hl, hr⟩

theorem mem_lets_of_captures {ps : List (Piece pool)} {name : String}
    (h : Stmt.Captures (ps.flatMap (·.code)) name) : name ∈ Source.lets (ps.map (·.source)) := by
  obtain ⟨before, p, after, rfl, hl, -⟩ := captures_iff.1 h
  rw [List.map_append, Source.lets, List.filterMap_append]
  exact List.mem_append_left _ hl

end Piece

theorem statements_eq_ok {trees : Source.Forest} {stmts : List (Source.Stmt ExprId)} {n : Nat}
    {ss : List Stmt} {e : Effects} (h : statements pool trees stmts n = (.ok ss, e)) :
    ∃ ps : List (Piece pool), ps.flatMap (·.code) = ss ∧
      ps.map (·.source) = stmts.filterMap fun s => (s.read trees).toOption := by
  induction stmts generalizing n ss e with
  | nil =>
    cases h
    exact ⟨[], rfl, rfl⟩
  | cons s rest ih =>
    obtain ⟨t, e₁, e', hread, hstmt, rfl⟩ := bind_eq_ok.1 h
    obtain ⟨code, e₂, e₃, hcode, hrest, rfl⟩ := bind_eq_ok.1 hstmt
    rw [← map_eq_pure_bind] at hrest
    obtain ⟨tail, htail, rfl⟩ := map_eq_ok.1 hrest
    obtain ⟨ps, rfl, hps⟩ := ih htail
    refine ⟨⟨t, code, _, _, hcode⟩ :: ps, rfl, ?_⟩
    cases hr : s.read trees with
    | error f =>
      rw [hr] at hread
      cases hread
    | ok t' =>
      rw [hr] at hread
      cases hread
      simp [hr, hps, Except.toOption]

/-! ## Main results -/

/-- The code of a file is made of pieces, one for each statement of the source.  The
locals before any statement of a piece are the `let`s of the source before the
piece, so those are what its references are captured by, whether they were written
in the source or put there by lowering; and a name that no `let` has is not captured. -/
theorem compileFile_captures {c : Check.Checklist} {f : Source.File} {o : FileOutput}
    {ss : List Stmt} (h : compileFile c f = .ok o) (hs : o.stmts = some ss) :
    ∃ ps : List (Piece f.types.pool), ps.map (·.source) = f.body ∧ ps.flatMap (·.code) = ss ∧
      (∀ before p after pre s post, ps = before ++ p :: after → p.code = pre ++ s :: post →
        Stmt.locals (before.flatMap (·.code) ++ pre) = Source.lets (before.map (·.source))) ∧
      (∀ name, Stmt.Captures ss name ↔ ∃ before p after, ps = before ++ p :: after ∧
        name ∈ Source.lets (before.map (·.source)) ∧ name ∈ Stmt.referencesAll p.code) ∧
      ∀ name, name ∉ Source.lets f.body → ¬ Stmt.Captures ss name := by
  obtain ⟨e, hf, -⟩ := compileFile_eq_ok h hs
  obtain ⟨ps, rfl, hsource⟩ := statements_eq_ok hf
  have hbody : ps.map (·.source) = f.body := hsource
  exact ⟨ps, hbody, rfl, fun before p after pre s post _ hp => Piece.locals_upTo before p hp,
    fun name => Piece.captures_iff,
    fun name hname hc => hname (hbody ▸ Piece.mem_lets_of_captures hc)⟩

/-- `let math = x % y; x % y` -/
def shadowedLibrary : Source.File where
  path := "shadow.ts"
  arena :=
    ⟨#[⟨.ident "x", .dummy⟩, ⟨.ident "y", .dummy⟩, ⟨.binary (.arithmetic .mod) ⟨0⟩ ⟨1⟩, .dummy⟩,
      ⟨.ident "x", .dummy⟩, ⟨.ident "y", .dummy⟩, ⟨.binary (.arithmetic .mod) ⟨3⟩ ⟨4⟩, .dummy⟩],
      #[], #[]⟩
  types := .fresh
  stmts := [⟨.letDecl "math" (some ⟨2⟩), .dummy⟩, ⟨.expr ⟨5⟩, .dummy⟩]

def shadowedLibraryCode : List Stmt :=
  let remainder := Expr.call (.property (.ident "math") "fmod") [.ident "x", .ident "y"]
  [.declare (.name "math") (some remainder), .call remainder]

theorem file_shadowedLibrary :
    file shadowedLibrary 0 = (.ok shadowedLibraryCode, .none) := rfl

/-- The initialiser of the `let` refers to the library before the local, the second
remainder after it. -/
theorem compileFile_captures_shadowedLibrary :
    ∃ o, compileFile .empty shadowedLibrary = .ok o ∧ o.stmts = some shadowedLibraryCode ∧
      ∃ ps : List (Piece shadowedLibrary.types.pool),
        ps.map (·.source) = shadowedLibrary.body ∧ ps.flatMap (·.code) = shadowedLibraryCode ∧
        (Stmt.Captures shadowedLibraryCode "math" ↔ ∃ before p after, ps = before ++ p :: after ∧
          "math" ∈ Source.lets (before.map (·.source)) ∧ "math" ∈ Stmt.referencesAll p.code) ∧
        "x" ∈ Stmt.referencesAll shadowedLibraryCode ∧
        ¬ Stmt.Captures shadowedLibraryCode "x" := by
  have hc := compileFile_empty file_shadowedLibrary
  obtain ⟨ps, hsource, hcode, -, hcaptures, huncaptured⟩ := compileFile_captures hc rfl
  exact ⟨_, hc, rfl, ps, hsource, hcode, hcaptures "math", by decide, huncaptured "x" (by decide)⟩

/-- The library that the second remainder needs is hidden by the local, and the
source does not mention it. -/
theorem library_captured :
    ∃ o, compileFile .empty shadowedLibrary = .ok o ∧ o.isSuccess ∧
      o.stmts = some shadowedLibraryCode ∧
      shadowedLibrary.Everywhere (fun e => ∀ info, e ≠ .ident info "math") ∧
      Stmt.Captures shadowedLibraryCode "math" := by
  have hc := compileFile_empty file_shadowedLibrary
  have hcaptures : Stmt.Captures shadowedLibraryCode "math" :=
    ⟨[_], _, [], rfl, by decide, by decide⟩
  refine ⟨_, hc, rfl, rfl, ?_, hcaptures⟩
  let info : Source.NodeInfo := ⟨.dummy, .unknown⟩
  let remainder := Source.Expr.binary info (.arithmetic .mod) (.ident info "x") (.ident info "y")
  have hbody : shadowedLibrary.body =
      [⟨.letDecl "math" (some remainder), .dummy⟩, ⟨.expr remainder, .dummy⟩] := rfl
  have hremainder : remainder.Everywhere fun e => ∀ info, e ≠ .ident info "math" :=
    .mk nofun (List.forall_mem_cons.2 ⟨.mk (by simp) nofun,
      List.forall_mem_singleton.2 (.mk (by simp) nofun)⟩)
  rw [Source.File.everywhere_iff, hbody]
  rintro _ (_ | ⟨_, _ | ⟨_, ⟨⟩⟩⟩) _ ⟨⟩
  · exact hremainder
  · exact hremainder

end Lower

end ScriptLowering
