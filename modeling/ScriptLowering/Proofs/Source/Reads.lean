import Mathlib.Data.List.Forall2
import ScriptLowering.Proofs.Source.Strict

/-!
# Nodes and their trees

The trees of a well-formed arena are grown from one another: the tree of a node
is made of the trees of its parts, looked up among all trees of the arena.

    a.WellFormed, node e is n → (a.trees types).get e = a.grow info (a.trees types) n.kind   (get_trees_eq)
    f reads e as t → t is made of the trees of e's parts, which all come before e           (Reads.node)
-/

namespace ScriptLowering.Source

/-- The expression is read from the node. -/
def File.Reads (f : File) (e : ExprId) (t : Expr) : Prop :=
  (f.arena.trees f.types).get e = .ok t

/-- The tree of a node of the kind, made of the trees that its parts are read as. -/
inductive File.Grows (f : File) (info : NodeInfo) : NodeKind → Expr → Prop
  | ident (name : String) : f.Grows info (.ident name) (.ident info name)
  | this : f.Grows info .this (.this info)
  | super : f.Grows info .super (.super info)
  | number (n : Number) : f.Grows info (.number n) (.number info n)
  | string (s : String) : f.Grows info (.string s) (.string info s)
  | bool (b : Bool) : f.Grows info (.bool b) (.bool info b)
  | undefined : f.Grows info .undefined (.undefined info)
  | error : f.Grows info .error (.error info)
  | paren {e : ExprId} {t : Expr} (h : f.Reads e t) : f.Grows info (.paren e) (.paren info t)
  | spread {e : ExprId} {t : Expr} (h : f.Reads e t) : f.Grows info (.spread e) (.spread info t)
  | property {e : ExprId} {t : Expr} (h : f.Reads e t) (name : String) :
      f.Grows info (.property e name) (.property info t name)
  | element {o i : ExprId} {t u : Expr} (ho : f.Reads o t) (hi : f.Reads i u) :
      f.Grows info (.element o i) (.element info t u)
  | call {c : ExprId} {t : Expr} {r : ListRange} {ids : List ExprId} {ts : List Expr}
      (hc : f.Reads c t) (hr : f.arena.exprs r = .ok ids) (hs : List.Forall₂ f.Reads ids ts) :
      f.Grows info (.call c r) (.call info t ts)
  | binary (op : BinaryOp) {l r : ExprId} {t u : Expr} (hl : f.Reads l t) (hr : f.Reads r u) :
      f.Grows info (.binary op l r) (.binary info op t u)
  | prefixed (op : PrefixOp) {e : ExprId} {t : Expr} (h : f.Reads e t) :
      f.Grows info (.prefixed op e) (.prefixed info op t)
  | postfixed (op : UpdateOp) {e : ExprId} {t : Expr} (h : f.Reads e t) :
      f.Grows info (.postfixed op e) (.postfixed info op t)
  | array {r : ListRange} {ids : List ExprId} {ts : List Expr} (hr : f.arena.exprs r = .ok ids)
      (hs : List.Forall₂ f.Reads ids ts) : f.Grows info (.array r) (.array info ts)
  | object {r : ListRange} {ps : List PropertyNode} {ts : List (String × Expr)}
      (hr : f.arena.properties r = .ok ps)
      (hs : List.Forall₂ (fun p t => p.name = t.1 ∧ f.Reads p.value t.2) ps ts) :
      f.Grows info (.object r) (.object info ts)

/-- The node that an expression is read from, and what it is made of. -/
structure File.ReadsNode (f : File) (e : ExprId) (t : Expr) (n : Node) : Prop where
  node : f.arena.node? e = some n
  grows : f.Grows ⟨n.span, f.types.typeOf e⟩ n.kind t
  parts : f.arena.partsBefore n.kind e.index

def NodeKind.isPattern : NodeKind → Bool
  | .array _ | .object _ => true
  | _ => false

/-! ## Lemmas -/

namespace Arena

variable {a : Arena} {f g : Forest}

theorem mapM_congr {α β : Type} {g g' : α → Except Fault β} {xs : List α}
    (h : ∀ x ∈ xs, g x = g' x) : xs.mapM g = xs.mapM g' := by
  induction xs with
  | nil => rfl
  | cons x xs ih =>
    obtain ⟨hx, hxs⟩ := List.forall_mem_cons.1 h
    rw [List.mapM_cons, List.mapM_cons, hx, ih hxs]

/-- A tree is grown from the trees of the node's parts. -/
theorem grow_congr {info : NodeInfo} {k : NodeKind} {ids : List ExprId} (hk : a.parts k = .ok ids)
    (hfg : ∀ e ∈ ids, f.get e = g.get e) : a.grow info f k = a.grow info g k := by
  cases k with
  | ident | this | super | number | string | bool | undefined | error => rfl
  | paren e | spread e | property e _ | prefixed _ e | postfixed _ e =>
    cases hk
    simp only [grow, hfg e List.mem_cons_self]
  | element o i | binary _ o i =>
    cases hk
    simp only [grow, hfg o List.mem_cons_self, hfg i (List.mem_cons_of_mem _ List.mem_cons_self)]
  | call c args =>
    obtain ⟨es, hes, h⟩ := bind_eq_ok hk
    cases h
    obtain ⟨hc, hargs⟩ := List.forall_mem_cons.1 hfg
    simp only [grow, hc, hes, mapM_congr hargs, bind, Except.bind]
  | array elements =>
    have hes : a.exprs elements = .ok ids := hk
    simp only [grow, hes, mapM_congr hfg, bind, Except.bind]
  | object properties =>
    obtain ⟨ps, hps, h⟩ := bind_eq_ok hk
    cases h
    have part : ∀ p ∈ ps, (do return (p.name, ← f.get p.value) : Except Fault (String × Expr)) =
        (do return (p.name, ← g.get p.value)) := by
      intro p hp
      rw [hfg p.value (List.mem_map_of_mem hp)]
    simp only [grow, hps, bind, Except.bind] at part ⊢
    rw [mapM_congr part]

theorem get_growAll_of_lt (types : TypeTable) (ns : List Node) {e : ExprId} (h : e.index < f.size) :
    (a.growAll types ns f).get e = f.get e := by
  simp only [Forest.get, growAll_getElem? a types ns f h]

/-- Every tree is grown from the trees of all nodes. -/
theorem get_growAll (types : TypeTable) {ns : List Node} {i : Nat} (hi : i < ns.length)
    (hparts : a.partsBefore ns[i].kind (f.size + i)) :
    (a.growAll types ns f).get ⟨f.size + i⟩ =
      a.grow ⟨ns[i].span, types.typeOf ⟨f.size + i⟩⟩ (a.growAll types ns f) ns[i].kind := by
  induction ns generalizing f i with
  | nil => cases hi
  | cons n rest ih =>
    have hsize : ∀ r, (f.push r).size = f.size + 1 := fun _ => Array.size_push _
    cases i with
    | zero =>
      obtain ⟨ids, hids, hlt⟩ := partsBefore_iff.1 hparts
      rw [List.getElem_cons_zero] at hids
      have earlier : ∀ e ∈ ids, f.get e = (a.growAll types (n :: rest) f).get e :=
        fun e he => (get_growAll_of_lt types (n :: rest) (hlt e he)).symm
      rw [Nat.add_zero, List.getElem_cons_zero, ← grow_congr hids earlier, growAll,
        get_growAll_of_lt types rest (by rw [hsize]; exact Nat.lt_succ_self _)]
      simp [Forest.get]
    | succ i =>
      have hindex (r : Except Fault Expr) : f.size + (i + 1) = (f.push r).size + i := by
        rw [hsize]
        omega
      rw [growAll, List.getElem_cons_succ, hindex]
      rw [hindex] at hparts
      exact ih (Nat.lt_of_succ_lt_succ hi) hparts

theorem get_trees_eq (h : a.WellFormed) (types : TypeTable) {e : ExprId} {n : Node}
    (hn : a.node? e = some n) :
    (a.trees types).get e = a.grow ⟨n.span, types.typeOf e⟩ (a.trees types) n.kind := by
  obtain ⟨hi, rfl⟩ := Array.getElem?_eq_some_iff.1 hn
  have hlength : e.index < a.nodes.toList.length := by simpa using hi
  have hparts : a.partsBefore a.nodes.toList[e.index].kind ((#[] : Forest).size + e.index) := by
    simpa using h e.index hi
  have hget := get_growAll types hlength hparts
  simpa [trees] using hget

end Arena

namespace File

variable {f : File} {e : ExprId} {t : Expr}

theorem Reads.lt_size (h : f.Reads e t) : e.index < f.arena.size := by
  rw [← Arena.size_trees f.arena f.types]
  unfold Reads Forest.get at h
  split at h
  next he => exact (Array.getElem?_eq_some_iff.1 he).1
  next => cases h

theorem forall₂_of_mapM {α β : Type} {g : α → Except Fault β} {xs : List α} {ys : List β}
    (h : xs.mapM g = .ok ys) : List.Forall₂ (fun x y => g x = .ok y) xs ys := by
  induction xs generalizing ys with
  | nil =>
    cases h
    exact .nil
  | cons x xs ih =>
    rw [List.mapM_cons] at h
    obtain ⟨y, hy, h⟩ := bind_eq_ok h
    obtain ⟨ys', hys, h⟩ := bind_eq_ok h
    cases h
    exact .cons hy (ih hys)

/-- What the tree of a node is made of. -/
theorem grows_of_grow {info : NodeInfo} {k : NodeKind}
    (h : f.arena.grow info (f.arena.trees f.types) k = .ok t) : f.Grows info k t := by
  cases k with
  | ident | this | super | number | string | bool | undefined | error =>
    cases h
    constructor
  | paren e | spread e | property e name | prefixed op e | postfixed op e =>
    obtain ⟨_, he, h⟩ := bind_eq_ok h
    cases h
    constructor
    exact he
  | element o i | binary op o i =>
    obtain ⟨_, ho, h⟩ := bind_eq_ok h
    obtain ⟨_, hi, h⟩ := bind_eq_ok h
    cases h
    constructor <;> assumption
  | call c args =>
    obtain ⟨_, hc, h⟩ := bind_eq_ok h
    obtain ⟨_, hr, h⟩ := bind_eq_ok h
    obtain ⟨_, hs, h⟩ := bind_eq_ok h
    cases h
    exact .call hc hr (forall₂_of_mapM hs)
  | array elements =>
    obtain ⟨_, hr, h⟩ := bind_eq_ok h
    obtain ⟨_, hs, h⟩ := bind_eq_ok h
    cases h
    exact .array hr (forall₂_of_mapM hs)
  | object properties =>
    obtain ⟨_, hr, h⟩ := bind_eq_ok h
    obtain ⟨_, hs, h⟩ := bind_eq_ok h
    cases h
    refine .object hr ((forall₂_of_mapM hs).imp fun p q hq => ?_)
    obtain ⟨_, hv, hq⟩ := bind_eq_ok hq
    cases hq
    exact ⟨rfl, hv⟩

theorem Grows.info_eq {info : NodeInfo} {k : NodeKind} (h : f.Grows info k t) : t.info = info := by
  cases h <;> rfl

theorem Grows.isPattern_eq {info : NodeInfo} {k : NodeKind} (h : f.Grows info k t) :
    k.isPattern = t.isPattern := by
  cases h <;> rfl

theorem Grows.super_or {info : NodeInfo} {k : NodeKind} (h : f.Grows info k t) :
    k = .super ∧ t = .super info ∨ k ≠ .super ∧ ∀ i, t ≠ .super i := by
  cases h <;> simp

theorem Grows.undefined_or {info : NodeInfo} {k : NodeKind} (h : f.Grows info k t) :
    k = .undefined ∧ t = .undefined info ∨ k ≠ .undefined ∧ ∀ i, t ≠ .undefined i := by
  cases h <;> simp

theorem Reads.node (hf : f.WellFormed) (h : f.Reads e t) : ∃ n, f.ReadsNode e t n := by
  have he : e.index < f.arena.nodes.size := h.lt_size
  have hn : f.arena.node? e = some f.arena.nodes[e.index] := Array.getElem?_eq_getElem he
  exact ⟨_, hn, grows_of_grow ((Arena.get_trees_eq hf.arena f.types hn).symm.trans h),
    hf.arena e.index he⟩

theorem ReadsNode.ty {n : Node} (h : f.ReadsNode e t n) : f.types.typeOf e = t.ty :=
  congrArg NodeInfo.ty h.grows.info_eq.symm

theorem ReadsNode.span {n : Node} (h : f.ReadsNode e t n) : n.span = t.span :=
  congrArg NodeInfo.span h.grows.info_eq.symm

/-- The parts of the node come before it. -/
theorem ReadsNode.lt {n : Node} (h : f.ReadsNode e t n) (ids : List ExprId)
    (hids : f.arena.parts n.kind = .ok ids) : ∀ c ∈ ids, c.index < e.index := by
  obtain ⟨ids', h', hlt⟩ := Arena.partsBefore_iff.1 h.parts
  cases hids.symm.trans h'
  exact hlt

end File

end ScriptLowering.Source
