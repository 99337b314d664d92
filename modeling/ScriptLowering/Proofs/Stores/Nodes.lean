import ScriptLowering.Proofs.Stores.Run
import ScriptLowering.Source.Arena

/-!
# Runs of the node arena

Whatever is allocated in between, a handle reads back what it was given out for,
since the three stores only grow.  Only a list that is too long for a range
stops a run.

    a.ReadsBack c k, a.Appended a' → a'.ReadsBack c k              (ReadsBack.of_appended)
    nodes get the ids that follow those given out before           (ids_runAll)
    no list is too long → a run has handles for all                (runAll_isOk)
-/

namespace ScriptLowering.Source

/-- What an arena can be asked to keep. -/
inductive Allocation where
  | node (n : Node)
  | exprs (ids : List ExprId)
  | properties (ps : List PropertyNode)

/-- What it gives out for it. -/
inductive Handle where
  | node (e : ExprId)
  | exprs (r : ListRange)
  | properties (r : ListRange)

/-! ## Algorithm -/

/-- Which kind of list is longer than a range can say. -/
def Allocation.tooLong? : Allocation → Option ListKind
  | node _ => none
  | exprs ids => if maxListLength < ids.length then some .expressions else none
  | properties ps => if maxListLength < ps.length then some .properties else none

/-- The id of a node. -/
def Handle.ids : Handle → List ExprId
  | node e => [e]
  | exprs _ | properties _ => []

namespace Arena

def allocate (a : Arena) : Allocation → Except Fault (Handle × Arena)
  | .node n => .ok (.node (a.alloc n).1, (a.alloc n).2)
  | .exprs ids => do
    let (r, a) ← a.allocExprs ids
    return (.exprs r, a)
  | .properties ps => do
    let (r, a) ← a.allocProperties ps
    return (.properties r, a)

/-- What is found under the handle is what was allocated; an empty list has the empty range. -/
def ReadsBack (a : Arena) : Allocation → Handle → Prop
  | .node n, .node e => a.get e = .ok n
  | .exprs ids, .exprs r => a.exprs r = .ok ids ∧ (ids = [] → r = .empty)
  | .properties ps, .properties r => a.properties r = .ok ps ∧ (ps = [] → r = .empty)
  | _, _ => False

end Arena

/-! ## Lemmas -/

/-! ### Ranges -/

namespace ListRange

variable {α : Type} {kind : ListKind} {store store' : Array α} {xs : List α} {r : ListRange}

theorem write_eq_ok (h : write kind store xs = .ok (r, store')) :
    (∃ more, store' = store ++ more) ∧ (xs = [] → r = .empty) := by
  unfold write at h
  split at h
  · cases h
    exact ⟨⟨#[], by simp⟩, fun _ => rfl⟩
  next hx =>
    split at h <;> cases h
    exact ⟨⟨_, rfl⟩, fun hnil => absurd (by simp [hnil]) hx⟩

theorem write_isOk (kind : ListKind) (store : Array α) (h : xs.length ≤ maxListLength) :
    ∃ r store', write kind store xs = .ok (r, store') := by
  rw [write, if_pos h]
  split <;> exact ⟨_, _, rfl⟩

theorem write_of_lt (h : maxListLength < xs.length) :
    write kind store xs = .error (.listTooLong kind) := by
  have hne : xs.isEmpty = false := by
    cases xs with
    | nil => cases h
    | cons x xs => rfl
  rw [write, hne, if_neg Bool.false_ne_true, if_neg (Nat.not_le.2 h)]

/-- What could be read is read also after more was appended. -/
theorem read_append (h : r.read store = .ok xs) (more : Array α) :
    r.read (store ++ more) = .ok xs := by
  unfold read at *
  split at h
  next he => rw [if_pos he]; exact h
  next he =>
    split at h <;> cases h
    next hle =>
      have hle' : r.start + r.length ≤ (store ++ more).size := by
        rw [Array.size_append]
        omega
      have hnone : r.start + r.length - store.size = 0 := by omega
      rw [if_neg he, if_pos hle', Array.extract_append, hnone]
      simp

end ListRange

/-! ### One allocation -/

namespace Arena

variable {a a' : Arena} {c : Allocation} {k : Handle}

theorem get_eq_ok_iff {e : ExprId} {n : Node} : a.get e = .ok n ↔ a.nodes[e.index]? = some n := by
  unfold get node?
  cases a.nodes[e.index]? <;> simp

/-- What each allocation does to the three stores. -/
theorem allocate_cases (h : a.allocate c = .ok (k, a')) :
    (∃ n, c = .node n ∧ k = .node ⟨a.size⟩ ∧ a' = { a with nodes := a.nodes.push n }) ∨
    (∃ ids r store, c = .exprs ids ∧ k = .exprs r ∧
      ListRange.write .expressions a.exprLists ids = .ok (r, store) ∧
      a' = { a with exprLists := store }) ∨
    ∃ ps r store, c = .properties ps ∧ k = .properties r ∧
      ListRange.write .properties a.propertyLists ps = .ok (r, store) ∧
      a' = { a with propertyLists := store } := by
  cases c with
  | node n =>
    cases h
    exact .inl ⟨n, rfl, rfl, rfl⟩
  | exprs ids =>
    simp only [allocate, allocExprs, bind, Except.bind] at h
    cases hw : ListRange.write .expressions a.exprLists ids <;> rw [hw] at h <;> cases h
    exact .inr (.inl ⟨ids, _, _, rfl, rfl, hw, rfl⟩)
  | properties ps =>
    simp only [allocate, allocProperties, bind, Except.bind] at h
    cases hw : ListRange.write .properties a.propertyLists ps <;> rw [hw] at h <;> cases h
    exact .inr (.inr ⟨ps, _, _, rfl, rfl, hw, rfl⟩)

/-- Only a list that is too long is refused. -/
theorem allocate_isOk (h : c.tooLong? = none) : ∃ k a', a.allocate c = .ok (k, a') := by
  cases c with
  | node n => exact ⟨_, _, rfl⟩
  | exprs ids =>
    have hle : ids.length ≤ maxListLength := by simpa [Allocation.tooLong?] using h
    obtain ⟨r, store, hw⟩ := ListRange.write_isOk .expressions a.exprLists hle
    exact ⟨.exprs r, { a with exprLists := store }, by rw [allocate, allocExprs, hw]; rfl⟩
  | properties ps =>
    have hle : ps.length ≤ maxListLength := by simpa [Allocation.tooLong?] using h
    obtain ⟨r, store, hw⟩ := ListRange.write_isOk .properties a.propertyLists hle
    exact ⟨.properties r, { a with propertyLists := store }, by
      rw [allocate, allocProperties, hw]; rfl⟩

theorem allocate_of_tooLong {kind : ListKind} (h : c.tooLong? = some kind) :
    a.allocate c = .error (.listTooLong kind) := by
  cases c with
  | node n => cases h
  | exprs ids =>
    obtain ⟨hlt, rfl⟩ := by simpa [Allocation.tooLong?] using h
    rw [allocate, allocExprs, ListRange.write_of_lt hlt]
    rfl
  | properties ps =>
    obtain ⟨hlt, rfl⟩ := by simpa [Allocation.tooLong?] using h
    rw [allocate, allocProperties, ListRange.write_of_lt hlt]
    rfl

/-- The stores of the second arena begin with those of the first. -/
structure Appended (a a' : Arena) : Prop where
  nodes : ∃ more, a'.nodes = a.nodes ++ more
  exprLists : ∃ more, a'.exprLists = a.exprLists ++ more
  propertyLists : ∃ more, a'.propertyLists = a.propertyLists ++ more

theorem appended_allocate (h : a.allocate c = .ok (k, a')) : a.Appended a' := by
  have hsame {α : Type} (store : Array α) : ∃ more, store = store ++ more := ⟨#[], by simp⟩
  rcases allocate_cases h with ⟨n, -, -, rfl⟩ | ⟨ids, r, store, -, -, hw, rfl⟩ |
    ⟨ps, r, store, -, -, hw, rfl⟩
  · exact ⟨⟨#[n], rfl⟩, hsame _, hsame _⟩
  · exact ⟨hsame _, (ListRange.write_eq_ok hw).1, hsame _⟩
  · exact ⟨hsame _, hsame _, (ListRange.write_eq_ok hw).1⟩

theorem readsBack_allocate (h : a.allocate c = .ok (k, a')) : a'.ReadsBack c k := by
  rcases allocate_cases h with ⟨n, rfl, rfl, rfl⟩ | ⟨ids, r, store, rfl, rfl, hw, rfl⟩ |
    ⟨ps, r, store, rfl, rfl, hw, rfl⟩
  · simp [ReadsBack, get, node?, size]
  · exact ⟨by simpa [exprs] using ListRange.read_write hw #[], (ListRange.write_eq_ok hw).2⟩
  · exact ⟨by simpa [properties] using ListRange.read_write hw #[], (ListRange.write_eq_ok hw).2⟩

/-- What reads back goes on doing so. -/
theorem ReadsBack.of_appended (hread : a.ReadsBack c k) (h : a.Appended a') : a'.ReadsBack c k := by
  obtain ⟨⟨moreNodes, hnodes⟩, ⟨moreExprs, hexprs⟩, ⟨moreProperties, hproperties⟩⟩ := h
  cases c <;> cases k <;> try exact hread
  case node n e =>
    have hn : a.nodes[e.index]? = some n := get_eq_ok_iff.1 hread
    have hlt : e.index < a.nodes.size := (Array.getElem?_eq_some_iff.1 hn).1
    refine get_eq_ok_iff.2 ?_
    rw [hnodes, Array.getElem?_append_left hlt, hn]
  case exprs ids r =>
    exact ⟨by rw [exprs, hexprs]; exact ListRange.read_append hread.1 _, hread.2⟩
  case properties ps r =>
    exact ⟨by rw [properties, hproperties]; exact ListRange.read_append hread.1 _, hread.2⟩

/-- A node gets the next id. -/
theorem ids_allocate (h : a.allocate c = .ok (k, a')) :
    (List.range a.size).map ExprId.mk ++ k.ids = (List.range a'.size).map ExprId.mk := by
  rcases allocate_cases h with ⟨n, -, rfl, rfl⟩ | ⟨ids, r, store, -, rfl, -, rfl⟩ |
    ⟨ps, r, store, -, rfl, -, rfl⟩
  · simp [Handle.ids, size, List.range_succ]
  · exact List.append_nil _
  · exact List.append_nil _

/-! ### Runs -/

variable {cs : List Allocation} {ks : List Handle}

theorem readsBack_runAll (h : runAll allocate a cs = .ok (ks, a')) :
    List.Forall₂ a'.ReadsBack cs ks :=
  runAll_answers readsBack_allocate (fun hread h => hread.of_appended (appended_allocate h)) h

theorem ids_runAll (h : runAll allocate a cs = .ok (ks, a')) :
    (List.range a.size).map ExprId.mk ++ ks.flatMap Handle.ids =
      (List.range a'.size).map ExprId.mk := by
  induction cs generalizing a ks with
  | nil =>
    cases h
    exact List.append_nil _
  | cons c cs ih =>
    obtain ⟨k, a₁, ks, hk, hks, rfl⟩ := runAll_cons_eq_ok h
    rw [List.flatMap_cons, ← List.append_assoc, ids_allocate hk, ih hks]

/-- Without a list that is too long all is allocated. -/
theorem runAll_isOk (h : cs.findSome? Allocation.tooLong? = none) :
    ∃ ks a', runAll allocate a cs = .ok (ks, a') := by
  induction cs generalizing a with
  | nil => exact ⟨[], a, rfl⟩
  | cons c cs ih =>
    obtain ⟨hc, hcs⟩ := List.forall_mem_cons.1 (List.findSome?_eq_none_iff.1 h)
    obtain ⟨k, a₁, hk⟩ := allocate_isOk hc
    obtain ⟨ks, a', hks⟩ := ih (List.findSome?_eq_none_iff.2 hcs)
    exact ⟨k :: ks, a', runAll_cons hk hks⟩

/-- The first list that is too long ends the run. -/
theorem runAll_of_tooLong {kind : ListKind} (h : cs.findSome? Allocation.tooLong? = some kind) :
    runAll allocate a cs = .error (.listTooLong kind) := by
  induction cs generalizing a with
  | nil => cases h
  | cons c cs ih =>
    rw [List.findSome?_cons] at h
    split at h
    next kind' hc =>
      cases h
      rw [runAll, allocate_of_tooLong hc]
      rfl
    next hc =>
      obtain ⟨k, a₁, hk⟩ := allocate_isOk (a := a) hc
      simp only [runAll, hk, ih h, bind, Except.bind]

/-! ## Main results -/

/-- A list that is too long ends a run with an error, and nothing else does: otherwise all is
allocated.  The nodes get the ids 0, 1, 2, … in their order, and at any time of the run each
handle given out so far reads back what it was given out for, an empty list under the empty
range. -/
theorem handles_faithful (cs : List Allocation) :
    (∀ kind, cs.findSome? Allocation.tooLong? = some kind →
      runAll allocate empty cs = .error (.listTooLong kind)) ∧
    (cs.findSome? Allocation.tooLong? = none →
      ∃ ks a, runAll allocate empty cs = .ok (ks, a) ∧ ks.length = cs.length ∧
        ks.flatMap Handle.ids = (List.range a.size).map ExprId.mk ∧
        ∀ before after, cs = before ++ after →
          ∃ ks₁ a₁, runAll allocate empty before = .ok (ks₁, a₁) ∧ ks₁ <+: ks ∧
            List.Forall₂ a₁.ReadsBack before ks₁) := by
  refine ⟨fun kind h => runAll_of_tooLong h, fun h => ?_⟩
  obtain ⟨ks, a, hks⟩ := runAll_isOk (a := empty) h
  refine ⟨ks, a, hks, (readsBack_runAll hks).length_eq.symm, ids_runAll hks,
    fun before after hcs => ?_⟩
  obtain ⟨ks₁, a₁, ks₂, hks₁, -, rfl⟩ := runAll_append_eq_ok (hcs ▸ hks)
  exact ⟨ks₁, a₁, hks₁, List.prefix_append .., readsBack_runAll hks₁⟩

/-- Two nodes with their lists between them, and after all a list that is too long. -/
theorem handles_faithful_tooLong :
    let cs : List Allocation := [.node ⟨.this, .dummy⟩, .exprs [⟨0⟩], .exprs [],
      .node ⟨.paren ⟨0⟩, .dummy⟩, .exprs [⟨1⟩, ⟨0⟩]]
    let late : Allocation := .properties (List.replicate 65536 ⟨"x", ⟨0⟩, .dummy⟩)
    cs.findSome? Allocation.tooLong? = none ∧
      (∃ ks a, runAll allocate empty cs = .ok (ks, a) ∧ ks.length = 5 ∧
        ks.flatMap Handle.ids = (List.range a.size).map ExprId.mk ∧
        ∃ ks₁ a₁, runAll allocate empty (cs.take 3) = .ok (ks₁, a₁) ∧ ks₁ <+: ks ∧
          List.Forall₂ a₁.ReadsBack (cs.take 3) ks₁) ∧
      (cs ++ [late]).findSome? Allocation.tooLong? = some .properties ∧
      runAll allocate empty (cs ++ [late]) = .error (.listTooLong .properties) := by
  intro cs late
  have hfits : cs.findSome? Allocation.tooLong? = none := by decide
  have hlate : late.tooLong? = some .properties := by
    obtain ⟨ps, hps, hlen⟩ : ∃ ps, late = .properties ps ∧ ps.length = 65536 :=
      ⟨_, rfl, List.length_replicate⟩
    rw [hps, Allocation.tooLong?, hlen]
    rfl
  have hlong : (cs ++ [late]).findSome? Allocation.tooLong? = some .properties := by
    rw [List.findSome?_append, hfits, List.findSome?_singleton, hlate]
    rfl
  obtain ⟨ks, a, hks, hlen, hids, hread⟩ := (handles_faithful cs).2 hfits
  exact ⟨hfits, ⟨ks, a, hks, hlen, hids, hread _ (cs.drop 3) rfl⟩, hlong,
    (handles_faithful (cs ++ [late])).1 _ hlong⟩

end Arena

end ScriptLowering.Source
