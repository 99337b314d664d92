import ScriptLowering.Source.File

/-!
# Well-formed arenas

An arena is well formed when its ranges lie in their stores and every node
names only nodes allocated before it.  Such an arena can be read as trees.

    a.WellFormed → e.index < a.size → (a.trees types).get e = .ok tree, for some tree    (get_trees)
-/

namespace ScriptLowering.Source

namespace Arena

/-- The nodes that a node names, in order. -/
def parts (a : Arena) : NodeKind → Except Fault (List ExprId)
  | .ident _ | .this | .super | .number _ | .string _ | .bool _ | .undefined | .error => .ok []
  | .paren e | .spread e | .property e _ | .prefixed _ e | .postfixed _ e => .ok [e]
  | .element o i => .ok [o, i]
  | .binary _ l r => .ok [l, r]
  | .call f args => return f :: (← a.exprs args)
  | .array elements => a.exprs elements
  | .object properties => return (← a.properties properties).map (·.value)

/-- The parts of a node are among the first `i` nodes. -/
def partsBefore (a : Arena) (k : NodeKind) (i : Nat) : Bool :=
  match a.parts k with
  | .ok ids => ids.all (·.index < i)
  | .error _ => false

def WellFormed (a : Arena) : Prop := ∀ i, (h : i < a.nodes.size) → a.partsBefore a.nodes[i].kind i

instance (a : Arena) : Decidable a.WellFormed :=
  inferInstanceAs (Decidable (∀ i, (h : i < a.nodes.size) → a.partsBefore a.nodes[i].kind i = true))

end Arena

/-- The expression of a statement, if it has one. -/
def Stmt.expr? {ε : Type} (s : Stmt ε) : Option ε :=
  match s.kind with
  | .expr e => some e
  | .letDecl _ init => init
  | .importDecl _ | .exportDecl _ => none

/-- The arena is well formed and the statements name nodes of it. -/
structure File.WellFormed (f : File) : Prop where
  arena : f.arena.WellFormed
  stmts : ∀ s ∈ f.stmts, ∀ e ∈ s.expr?, e.index < f.arena.size

/-! ## Lemmas -/

theorem Arena.partsBefore_iff {a : Arena} {k : NodeKind} {i : Nat} :
    a.partsBefore k i ↔ ∃ ids, a.parts k = .ok ids ∧ ∀ e ∈ ids, e.index < i := by
  unfold partsBefore
  split <;> simp_all

/-- The node was read without a fault. -/
def Forest.Has (f : Forest) (e : ExprId) : Prop := ∃ tree, f.get e = .ok tree

theorem mapM_ok {α β : Type} {g : α → Except Fault β} {xs : List α}
    (h : ∀ x ∈ xs, ∃ y, g x = .ok y) : ∃ ys, xs.mapM g = .ok ys := by
  induction xs with
  | nil => exact ⟨[], rfl⟩
  | cons x xs ih =>
    obtain ⟨y, hy⟩ := h x (by simp)
    obtain ⟨ys, hys⟩ := ih fun x hx => h x (by simp [hx])
    exact ⟨y :: ys, by simp [List.mapM_cons, hy, hys, bind, Except.bind, pure, Except.pure]⟩

theorem Forest.mapM_get (f : Forest) {ids : List ExprId} (h : ∀ e ∈ ids, f.Has e) :
    ∃ trees, ids.mapM f.get = .ok trees := mapM_ok h

/-- A node is read when its parts were. -/
theorem Arena.grow_ok (a : Arena) (info : NodeInfo) {f : Forest} {k : NodeKind} {ids : List ExprId}
    (hk : a.parts k = .ok ids) (hf : ∀ e ∈ ids, f.Has e) :
    ∃ tree, a.grow info f k = .ok tree := by
  cases k with
  | ident | this | super | number | string | bool | undefined | error => exact ⟨_, rfl⟩
  | paren e | spread e | property e _ | prefixed _ e | postfixed _ e =>
    cases hk
    obtain ⟨t, ht⟩ := hf e (by simp)
    exact ⟨_, by simp only [grow, ht]; rfl⟩
  | element o i | binary _ o i =>
    cases hk
    obtain ⟨t, ht⟩ := hf o (by simp)
    obtain ⟨u, hu⟩ := hf i (by simp)
    exact ⟨_, by simp only [grow, ht, hu]; rfl⟩
  | call c args =>
    cases ha : a.exprs args with
    | error e => simp [parts, ha, bind, Except.bind] at hk
    | ok es =>
      simp only [parts, ha, bind, Except.bind, pure, Except.pure, Except.ok.injEq] at hk
      subst hk
      obtain ⟨t, ht⟩ := hf c (by simp)
      obtain ⟨ts, hts⟩ := f.mapM_get fun e he => hf e (List.mem_cons_of_mem _ he)
      exact ⟨_, by simp only [grow, ht, ha, bind, Except.bind, hts]; rfl⟩
  | array elements =>
    obtain ⟨ts, hts⟩ := f.mapM_get hf
    exact ⟨_, by simp only [parts] at hk; simp only [grow, hk, bind, Except.bind, hts]; rfl⟩
  | object properties =>
    cases hp : a.properties properties with
    | error e => simp [parts, hp, bind, Except.bind] at hk
    | ok ps =>
      simp only [parts, hp, bind, Except.bind, pure, Except.pure, Except.ok.injEq] at hk
      subst hk
      have hps : ∀ p ∈ ps, ∃ y, (do return (p.name, ← f.get p.value) : Except Fault _) = .ok y := by
        intro p hp
        obtain ⟨t, ht⟩ := hf p.value (List.mem_map_of_mem hp)
        exact ⟨_, by rw [ht]; rfl⟩
      obtain ⟨ts, hts⟩ := mapM_ok hps
      exact ⟨_, by simp only [grow, hp, bind, Except.bind] at hts ⊢; rw [hts]; rfl⟩

theorem Forest.has_push {f : Forest} {r : Except Fault Expr} {e : ExprId} (h : f.Has e) :
    Forest.Has (f.push r) e := by
  obtain ⟨t, ht⟩ := h
  refine ⟨t, ?_⟩
  unfold Forest.get at ht ⊢
  split at ht
  next hi =>
    have hlt : e.index < f.size := (Array.getElem?_eq_some_iff.1 hi).1
    rw [Array.getElem?_push_lt hlt, ← Array.getElem?_eq_getElem hlt, hi]
    exact ht
  next => cases ht

theorem Forest.has_push_self {f : Forest} {tree : Expr} {e : ExprId} (h : e.index = f.size) :
    Forest.Has (f.push (.ok tree)) e :=
  ⟨tree, by simp [Forest.get, h]⟩

/-- Nodes whose parts come before them are all read. -/
theorem Arena.has_growAll (a : Arena) (types : TypeTable) (ns : List Node) (f : Forest)
    (hf : ∀ e : ExprId, e.index < f.size → f.Has e)
    (hns : ∀ i, (h : i < ns.length) → a.partsBefore ns[i].kind (f.size + i)) (e : ExprId)
    (he : e.index < f.size + ns.length) : Forest.Has (a.growAll types ns f) e := by
  induction ns generalizing f with
  | nil => exact hf e (by simpa using he)
  | cons n rest ih =>
    rw [growAll]
    obtain ⟨ids, hids, hlt⟩ := partsBefore_iff.1 (hns 0 (by simp))
    obtain ⟨tree, htree⟩ :=
      a.grow_ok ⟨n.span, types.typeOf ⟨f.size⟩⟩ hids fun e he => hf e (hlt e he)
    rw [List.getElem_cons_zero] at htree
    rw [htree]
    refine ih _ ?_ ?_ ?_
    · intro e he
      rw [Array.size_push] at he
      rcases Nat.lt_or_ge e.index f.size with hlt | hge
      · exact Forest.has_push (hf e hlt)
      · exact Forest.has_push_self (by omega)
    · intro i hi
      have := hns (i + 1) (by simpa using hi)
      rw [Array.size_push, show f.size + 1 + i = f.size + (i + 1) by omega]
      simpa using this
    · rw [Array.size_push]
      simp only [List.length_cons] at he
      omega

theorem Arena.get_trees {a : Arena} (h : a.WellFormed) (types : TypeTable) {e : ExprId}
    (he : e.index < a.size) : ∃ tree, (a.trees types).get e = .ok tree :=
  a.has_growAll types a.nodes.toList #[] (fun e he => absurd he (by simp))
    (fun i hi => by simpa using h i (by simpa using hi)) e (by simpa [size] using he)

/-- The statements of a well-formed file are read without a fault. -/
theorem File.WellFormed.read {f : File} (h : f.WellFormed) {s : Stmt ExprId} (hs : s ∈ f.stmts) :
    ∃ s', s.read (f.arena.trees f.types) = .ok s' := by
  have he := h.stmts s hs
  rcases s with ⟨k, span⟩
  cases k with
  | expr e =>
    obtain ⟨t, ht⟩ := Arena.get_trees h.arena f.types (he e rfl)
    exact ⟨_, by simp only [Stmt.read, ht]; rfl⟩
  | letDecl name init =>
    cases init with
    | none => exact ⟨_, rfl⟩
    | some e =>
      obtain ⟨t, ht⟩ := Arena.get_trees h.arena f.types (he e rfl)
      exact ⟨_, by simp only [Stmt.read, ht]; rfl⟩
  | importDecl => exact ⟨_, rfl⟩
  | exportDecl => exact ⟨_, rfl⟩

end ScriptLowering.Source
