import ScriptLowering.Proofs.Source.Visits

/-!
# Files without loose comparisons

The strict form of a file has an error node in place of each loose comparison,
with the same span and the same recorded type.  Its trees are those of the file,
with the outermost loose comparisons replaced.

    f.arena.trees reads e as t → f.strict.arena.trees reads e as t.strict      (reads_trees)
    f.WellFormed → f.strict.body = f.body.map strict                             (body_strict)
-/

namespace ScriptLowering.Source

/-! ## Algorithm -/

namespace Expr

mutual

/-- The tree with its outermost loose comparisons replaced. -/
def strict : Expr → Expr
  | binary info (.loose _) _ _ => error info
  | ident info name => ident info name
  | this info => this info
  | super info => super info
  | number info n => number info n
  | string info s => string info s
  | bool info b => bool info b
  | undefined info => undefined info
  | error info => error info
  | paren info e => paren info e.strict
  | spread info e => spread info e.strict
  | property info o name => property info o.strict name
  | element info o i => element info o.strict i.strict
  | call info f args => call info f.strict (strictList args)
  | binary info op l r => binary info op l.strict r.strict
  | prefixed info op e => prefixed info op e.strict
  | postfixed info op e => postfixed info op e.strict
  | array info es => array info (strictList es)
  | object info ps => object info (strictProperties ps)
termination_by structural e => e

def strictList : List Expr → List Expr
  | [] => []
  | e :: es => e.strict :: strictList es
termination_by structural es => es

def strictProperties : List (String × Expr) → List (String × Expr)
  | [] => []
  | (name, e) :: ps => (name, e.strict) :: strictProperties ps
termination_by structural ps => ps

end

end Expr

def NodeKind.strict : NodeKind → NodeKind
  | .binary (.loose _) _ _ => .error
  | k => k

def Arena.strict (a : Arena) : Arena :=
  { a with nodes := a.nodes.map fun n => { n with kind := n.kind.strict } }

/-- The file with each loose comparison replaced by an error node. -/
def File.strict (f : File) : File := { f with arena := f.arena.strict }

def Stmt.strict (s : Stmt Expr) : Stmt Expr where
  kind :=
    match s.kind with
    | .expr e => .expr e.strict
    | .letDecl name init => .letDecl name (init.map Expr.strict)
    | .importDecl module => .importDecl module
    | .exportDecl name => .exportDecl name
  span := s.span

/-- Whatever the first forest reads, the second one reads in its strict form. -/
structure Forest.StrictlyReads (f g : Forest) : Prop where
  size : g.size = f.size
  get {e : ExprId} {t : Expr} (h : f.get e = .ok t) : g.get e = .ok t.strict

/-! ## Lemmas -/

namespace Expr

theorem strictList_eq_map (es : List Expr) : strictList es = es.map strict := by
  induction es with
  | nil => rfl
  | cons e es ih => simp [strictList, ih]

theorem strictProperties_eq_map (ps : List (String × Expr)) :
    strictProperties ps = ps.map fun p => (p.1, p.2.strict) := by
  induction ps with
  | nil => rfl
  | cons p ps ih => simp [strictProperties, ih]

theorem strict_of_isLoose {e : Expr} (h : e.isLoose) : e.strict = error e.info := by
  cases e with
  | binary _ op _ _ => cases op <;> first | rfl | cases h
  | _ => cases h

theorem strict_binary (info : NodeInfo) {op : BinaryOp} (l r : Expr)
    (h : (binary info op l r).isLoose = false) :
    (binary info op l r).strict = binary info op l.strict r.strict := by
  cases op with
  | loose => cases h
  | _ => rfl

@[simp] theorem info_strict (e : Expr) : e.strict.info = e.info := by
  cases e with
  | binary _ op _ _ => cases op <;> rfl
  | _ => rfl

@[simp] theorem span_strict (e : Expr) : e.strict.span = e.span := congrArg (·.span) e.info_strict

@[simp] theorem ty_strict (e : Expr) : e.strict.ty = e.ty := congrArg (·.ty) e.info_strict

@[simp] theorem isPattern_strict (e : Expr) : e.strict.isPattern = e.isPattern := by
  cases e with
  | binary _ op _ _ => cases op <;> rfl
  | _ => rfl

@[simp] theorem isSpread_strict (e : Expr) : e.strict.isSpread = e.isSpread := by
  cases e with
  | binary _ op _ _ => cases op <;> rfl
  | _ => rfl

end Expr

/-! ### Reading strict arenas -/

theorem bind_eq_ok {α β : Type} {x : Except Fault α} {f : α → Except Fault β} {b : β}
    (h : (x >>= f) = .ok b) : ∃ a, x = .ok a ∧ f a = .ok b := by
  cases x with
  | error e => cases h
  | ok a => exact ⟨a, rfl, h⟩

/-- What one function reads of each entry, another one reads in a changed form. -/
theorem mapM_eq_ok_map {α β : Type} {g g' : α → Except Fault β} {k : β → β}
    (hg : ∀ x y, g x = .ok y → g' x = .ok (k y)) {xs : List α} {ys : List β}
    (h : xs.mapM g = .ok ys) : xs.mapM g' = .ok (ys.map k) := by
  induction xs generalizing ys with
  | nil =>
    cases h
    rfl
  | cons x xs ih =>
    rw [List.mapM_cons] at h
    obtain ⟨y, hy, h⟩ := bind_eq_ok h
    obtain ⟨ys, hys, h⟩ := bind_eq_ok h
    cases h
    rw [List.mapM_cons, hg x y hy, ih hys]
    rfl

namespace Arena

variable {a : Arena} {f g : Forest} {info : NodeInfo}

/-- The strict form of a node, over the strict forms of its parts. -/
theorem grow_strict (hfg : f.StrictlyReads g) {k : NodeKind} {t : Expr}
    (h : a.grow info f k = .ok t) : a.strict.grow info g k.strict = .ok t.strict := by
  cases k with
  | ident | this | super | number | string | bool | undefined | error =>
    cases h
    rfl
  | paren e | spread e | property e _ | prefixed _ e | postfixed _ e =>
    obtain ⟨u, hu, h⟩ := bind_eq_ok h
    cases h
    simp only [NodeKind.strict, grow, hfg.get hu]
    rfl
  | element o i =>
    obtain ⟨u, hu, h⟩ := bind_eq_ok h
    obtain ⟨v, hv, h⟩ := bind_eq_ok h
    cases h
    simp only [NodeKind.strict, grow, hfg.get hu, hfg.get hv]
    rfl
  | binary op l r =>
    obtain ⟨u, hu, h⟩ := bind_eq_ok h
    obtain ⟨v, hv, h⟩ := bind_eq_ok h
    cases h
    cases op with
    | loose => rfl
    | _ =>
      simp only [NodeKind.strict, grow, hfg.get hu, hfg.get hv]
      rfl
  | call c args =>
    obtain ⟨u, hu, h⟩ := bind_eq_ok h
    obtain ⟨ids, hids, h⟩ := bind_eq_ok h
    obtain ⟨vs, hvs, h⟩ := bind_eq_ok h
    cases h
    have hids' : a.strict.exprs args = .ok ids := hids
    simp only [NodeKind.strict, grow, hfg.get hu, hids', bind, Except.bind,
      mapM_eq_ok_map (fun _ _ => hfg.get) hvs, Expr.strict, Expr.strictList_eq_map]
    rfl
  | array elements =>
    obtain ⟨ids, hids, h⟩ := bind_eq_ok h
    obtain ⟨vs, hvs, h⟩ := bind_eq_ok h
    cases h
    have hids' : a.strict.exprs elements = .ok ids := hids
    simp only [NodeKind.strict, grow, hids', bind, Except.bind,
      mapM_eq_ok_map (fun _ _ => hfg.get) hvs, Expr.strict, Expr.strictList_eq_map]
    rfl
  | object properties =>
    obtain ⟨ps, hps, h⟩ := bind_eq_ok h
    obtain ⟨vs, hvs, h⟩ := bind_eq_ok h
    cases h
    have hps' : a.strict.properties properties = .ok ps := hps
    have part (p : PropertyNode) (y : String × Expr)
        (hy : (do return (p.name, ← f.get p.value)) = Except.ok y) :
        (do return (p.name, ← g.get p.value)) = Except.ok (y.1, y.2.strict) := by
      obtain ⟨u, hu, hy⟩ := bind_eq_ok hy
      cases hy
      simp only [hfg.get hu]
      rfl
    have hvs' := mapM_eq_ok_map part hvs
    simp only [NodeKind.strict, grow, hps', bind, Except.bind, Expr.strict,
      Expr.strictProperties_eq_map] at hvs' ⊢
    rw [hvs']
    rfl

theorem strictlyReads_push (hfg : f.StrictlyReads g) {r r' : Except Fault Expr}
    (hr : ∀ t, r = .ok t → r' = .ok t.strict) :
    Forest.StrictlyReads (f.push r) (g.push r') where
  size := by simp [hfg.size]
  get {e t} h := by
    unfold Forest.get at h ⊢
    rcases Nat.lt_trichotomy e.index f.size with hlt | heq | hgt
    · rw [Array.getElem?_push_lt hlt, ← Array.getElem?_eq_getElem hlt] at h
      have hlt' : e.index < g.size := hfg.size ▸ hlt
      rw [Array.getElem?_push_lt hlt', ← Array.getElem?_eq_getElem hlt']
      exact hfg.get h
    · have heq' : e.index = g.size := hfg.size ▸ heq
      rw [heq, Array.getElem?_push_size] at h
      rw [heq', Array.getElem?_push_size]
      exact hr t h
    · rw [Array.getElem?_eq_none (by rw [Array.size_push]; omega)] at h
      cases h

theorem strictlyReads_growAll (types : TypeTable) {ns : List Node} (hfg : f.StrictlyReads g) :
    (a.growAll types ns f).StrictlyReads
      (a.strict.growAll types (ns.map fun n => { n with kind := n.kind.strict }) g) := by
  induction ns generalizing f g with
  | nil => exact hfg
  | cons n ns ih =>
    refine ih (strictlyReads_push hfg fun t ht => ?_)
    rw [hfg.size]
    exact grow_strict hfg ht

theorem strictlyReads_trees (a : Arena) (types : TypeTable) :
    (a.trees types).StrictlyReads (a.strict.trees types) := by
  have empty : Forest.StrictlyReads #[] #[] := ⟨rfl, fun h => by cases h⟩
  have h : (a.growAll types a.nodes.toList #[]).StrictlyReads
      (a.strict.growAll types (a.nodes.toList.map fun n => { n with kind := n.kind.strict }) #[]) :=
    strictlyReads_growAll types empty
  rwa [← Array.toList_map] at h

end Arena

/-- A statement that is read is read in its strict form from the strict trees. -/
theorem Stmt.read_strict {f g : Forest} (hfg : f.StrictlyReads g) {s : Stmt ExprId} {s' : Stmt Expr}
    (h : s.read f = .ok s') : s.read g = .ok s'.strict := by
  rcases s with ⟨k, span⟩
  cases k with
  | expr e =>
    obtain ⟨t, ht, h⟩ := bind_eq_ok h
    cases h
    simp only [Stmt.read, hfg.get ht]
    rfl
  | letDecl name init =>
    cases init with
    | none =>
      cases h
      rfl
    | some e =>
      obtain ⟨t, ht, h⟩ := bind_eq_ok h
      cases h
      simp only [Stmt.read, hfg.get ht]
      rfl
  | importDecl | exportDecl =>
    cases h
    rfl

theorem File.read_strict {f : File} {s : Stmt ExprId} {s' : Stmt Expr}
    (h : s.read (f.arena.trees f.types) = .ok s') :
    s.read (f.strict.arena.trees f.strict.types) = .ok s'.strict :=
  Stmt.read_strict (f.arena.strictlyReads_trees f.types) h

/-- A well-formed file and its strict form differ in the loose comparisons only. -/
theorem File.body_strict {f : File} (h : f.WellFormed) :
    f.strict.body = f.body.map Stmt.strict := by
  have read (ss : List (Stmt ExprId)) (hss : ∀ s ∈ ss, s ∈ f.stmts) :
      ss.filterMap (fun s => (s.read (f.strict.arena.trees f.strict.types)).toOption) =
        (ss.filterMap fun s => (s.read (f.arena.trees f.types)).toOption).map Stmt.strict := by
    induction ss with
    | nil => rfl
    | cons s ss ih =>
      obtain ⟨hs, hss⟩ := List.forall_mem_cons.1 hss
      obtain ⟨s', hs'⟩ := h.read hs
      rw [List.filterMap_cons, List.filterMap_cons, hs', File.read_strict hs']
      exact congrArg (List.cons s'.strict) (ih hss)
  exact read f.stmts fun _ hs => hs

end ScriptLowering.Source
