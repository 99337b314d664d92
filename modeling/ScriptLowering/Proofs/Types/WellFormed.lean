import ScriptLowering.Proofs.Types.Members
import ScriptLowering.Types.SubType
import ScriptLowering.Types.Table

/-!
# Well-formed type pools

A pool that grew from the fresh one by data over ids that it held has the
primitive types, and each of its entries mentions smaller ids only.  Whatever is
asked of a type in such a pool is answered with types of the pool.

    p.WellFormed, the parts of d held by p → (p.intern d).2.WellFormed        (wellFormed_intern)
    p.Built → p.WellFormed                                                    (Built.wellFormed)
    p holds ty, p.subType ty i = .ok s → p holds s                            (holds_subType)
-/

namespace ScriptLowering

namespace TypePool

/-- The id is one of the pool. -/
def Holds (p : TypePool) (t : TypeId) : Prop := t.index < p.size

instance (p : TypePool) (t : TypeId) : Decidable (p.Holds t) :=
  inferInstanceAs (Decidable (t.index < p.size))

structure WellFormed (p : TypePool) : Prop where
  primitives : TypeId.primitiveCount ≤ p.size
  parts ⦃t : TypeId⦄ ⦃d : TypeData⦄ (h : p.data? t = some d) : ∀ u ∈ d.parts, u.index < t.index

/-- The pools that the constructors of types lead to, with types that the pool
holds as the parts of new ones.  A union is always joined from types. -/
inductive Built : TypePool → Prop
  | fresh : Built fresh
  | intern {p : TypePool} {d : TypeData} (hp : Built p) (hd : ∀ u ∈ d.parts, p.Holds u)
      (hunion : ∀ members, d ≠ .union members) : Built (p.intern d).2
  | union {p : TypePool} {ts : List TypeId} (hp : Built p) (hts : ∀ t ∈ ts, p.Holds t) :
      Built (p.union ts).2

def HoldsSubType (p : TypePool) : SubType → Prop
  | .single t => p.Holds t
  | .sequence ts => ∀ t ∈ ts, p.Holds t

/-! ## Lemmas -/

variable {p : TypePool} {t : TypeId}

/-! ### Construction -/

theorem wellFormed_fresh : fresh.WellFormed where
  primitives := Nat.le_refl 7
  parts t d h u hu := by
    have none : ∀ e ∈ fresh.entries.toList, e.data.parts = [] := by decide
    obtain ⟨e, he, rfl⟩ := exists_entry h
    rw [none e he] at hu
    cases hu

/-- What the pool holds after an addition is the addition, at the end, or was held before. -/
theorem data?_intern_cases {d e : TypeData} (h : (p.intern d).2.data? t = some e) :
    p.data? t = some e ∨ t.index = p.size ∧ e = d := by
  rcases intern_cases p d with ⟨u, -, heq⟩ | ⟨hnew, heq⟩ <;> rw [heq] at h
  · exact .inl h
  · rw [data?_add] at h
    split at h
    next ht => exact .inr ⟨ht, (Option.some.inj h).symm⟩
    next => exact .inl h

/-- A type is added after those that it mentions. -/
theorem wellFormed_intern (hp : p.WellFormed) {d : TypeData} (hd : ∀ u ∈ d.parts, p.Holds u) :
    (p.intern d).2.WellFormed := by
  refine ⟨Nat.le_trans hp.primitives (size_le_intern p d), fun t e h => ?_⟩
  rcases data?_intern_cases h with h | ⟨ht, rfl⟩
  · exact hp.parts h
  · exact ht ▸ hd

/-! ### Answers -/

theorem WellFormed.holds_part (hp : p.WellFormed) {d : TypeData} (h : p.data? t = some d)
    {u : TypeId} (hu : u ∈ d.parts) : p.Holds u :=
  Nat.lt_trans (hp.parts h u hu) (data?_lt h)

theorem holds_unionMembers (hp : p.WellFormed) (ht : p.Holds t) :
    ∀ m ∈ p.unionMembers t, p.Holds m := by
  intro m hm
  unfold unionMembers at hm
  split at hm
  next members hd => exact hp.holds_part hd hm
  next => exact List.mem_singleton.1 hm ▸ ht

theorem Built.wellFormed (h : p.Built) : p.WellFormed := by
  induction h with
  | fresh => exact wellFormed_fresh
  | intern _ hd _ ih => exact wellFormed_intern ih hd
  | @union p ts _ hts ih =>
    unfold TypePool.union
    split
    · exact ih
    · exact ih
    next members _ _ =>
      refine wellFormed_intern ih fun m hm => ?_
      obtain ⟨t, ht, hmt⟩ := mem_flatten.1 hm
      exact holds_unionMembers ih (hts t ht) m hmt

/-- No type of such a pool is a union of nothing. -/
theorem Built.unionMembers_ne_nil (h : p.Built) (t : TypeId) : p.unionMembers t ≠ [] := by
  have key : ∀ {t members}, p.data? t = some (.union members) → members ≠ [] := by
    induction h with
    | fresh =>
      intro t members h
      have none : ∀ e ∈ TypePool.fresh.entries.toList, e.data.has .union = false := by decide
      obtain ⟨e, he, hd⟩ := exists_entry h
      cases hd ▸ none e he
    | intern _ _ hunion ih =>
      intro t members h
      rcases data?_intern_cases h with h | ⟨-, h⟩
      · exact ih h
      · exact absurd h.symm (hunion members)
    | @union p ts _ _ ih =>
      intro t members h
      unfold TypePool.union at h
      split at h
      · exact ih h
      · exact ih h
      next hne _ =>
        rcases data?_intern_cases h with h | ⟨-, h⟩
        · exact ih h
        · cases h
          exact hne
  unfold unionMembers
  split
  next members hd => exact key hd
  next => exact List.cons_ne_nil _ _

theorem holds_typeArguments (hp : p.WellFormed) : ∀ a ∈ p.typeArguments t, p.Holds a := by
  intro a ha
  unfold typeArguments at ha
  split at ha
  next args hd => exact hp.holds_part hd ha
  next elements hd => exact hp.holds_part hd ha
  next => cases ha

theorem holds_elementType (hp : p.WellFormed) {u : TypeId} (h : p.elementType? t = some u) :
    p.Holds u := by
  unfold elementType? at h
  split at h <;> cases h
  next hd => exact hp.holds_part hd List.mem_cons_self

theorem holds_propertyType (hp : p.WellFormed) {name : String} {u : TypeId}
    (h : p.propertyType? t name = some u) : p.Holds u := by
  unfold propertyType? at h
  split at h
  next properties hd =>
    obtain ⟨l₁, l₂, rfl, -⟩ := List.lookup_eq_some_iff.1 h
    exact hp.holds_part hd (by simp [TypeData.parts])
  next => cases h

/-- What a multi-value return wraps is a smaller id. -/
theorem lt_of_returnInner (hp : p.WellFormed) {u : TypeId} (h : p.returnInner? t = some u) :
    u.index < t.index := by
  unfold returnInner? at h
  split at h <;> cases h
  next hd => exact hp.parts hd _ List.mem_cons_self

/-! ### Sub-types -/

/-- Once all wrappers are taken off, looking for more changes nothing. -/
theorem stripReturns_of_le (hp : p.WellFormed) {depth : Nat} (h : t.index ≤ depth) :
    p.stripReturns depth t = p.returned t := by
  have key (m n : Nat) (t : TypeId) (hm : t.index ≤ m) (hn : t.index ≤ n) :
      p.stripReturns m t = p.stripReturns n t := by
    induction m generalizing n t with
    | zero =>
      cases n with
      | zero => rfl
      | succ n =>
        cases hr : p.returnInner? t with
        | none => simp [stripReturns, hr]
        | some u => exact absurd (lt_of_returnInner hp hr) (by omega)
    | succ m ih =>
      cases hr : p.returnInner? t with
      | none => cases n <;> simp [stripReturns, hr]
      | some u =>
        have hu := lt_of_returnInner hp hr
        cases n with
        | zero => omega
        | succ n =>
          simp only [stripReturns, hr]
          exact ih n u (by omega) (by omega)
  exact key depth t.index t h (Nat.le_refl _)

theorem returned_of_returnInner (hp : p.WellFormed) {u : TypeId} (h : p.returnInner? t = some u) :
    p.returned t = p.returned u := by
  rw [← stripReturns_of_le hp (Nat.le_succ t.index), stripReturns, h]
  exact stripReturns_of_le hp (Nat.le_of_lt (lt_of_returnInner hp h))

theorem returned_of_no_returnInner (h : p.returnInner? t = none) : p.returned t = t := by
  unfold returned
  cases t.index <;> simp [stripReturns, h]

theorem holds_returned (hp : p.WellFormed) (ht : p.Holds t) : p.Holds (p.returned t) := by
  have key (depth : Nat) (t : TypeId) (ht : p.Holds t) : p.Holds (p.stripReturns depth t) := by
    induction depth generalizing t with
    | zero => exact ht
    | succ depth ih =>
      rw [stripReturns]
      split
      next inner hr => exact ih inner (Nat.lt_trans (lt_of_returnInner hp hr) ht)
      next => exact ht
  exact key t.index t ht

theorem holds_elementAt {elements : List TypeId} (h : ∀ e ∈ elements, p.Holds e) {i : Nat}
    {s : SubType} (hs : elementAt elements i = .ok s) : p.HoldsSubType s := by
  unfold elementAt at hs
  split at hs <;> cases hs
  next he => exact h _ (List.mem_of_getElem? he)

theorem holds_firstArgument (hp : p.WellFormed) {s : SubType} (hs : p.firstArgument t = .ok s) :
    p.HoldsSubType s := by
  unfold firstArgument at hs
  split at hs <;> cases hs
  next a _ ha => exact holds_typeArguments hp a (ha ▸ List.mem_cons_self)

theorem holds_positionType (hp : p.WellFormed) (ht : p.Holds t) {i : Nat} {s : SubType}
    (hs : p.positionType t i = .ok s) : p.HoldsSubType s := by
  unfold positionType at hs
  split at hs
  · split at hs
    · exact holds_elementAt (holds_typeArguments hp) hs
    · split at hs <;> cases hs
      next he => exact holds_elementType hp he
  · split at hs
    · cases hs
      exact ht
    · split at hs
      · exact holds_firstArgument hp hs
      · split at hs
        · cases hs
          exact holds_typeArguments hp
        · split at hs
          · exact holds_firstArgument hp hs
          · cases hs

theorem holds_subType (hp : p.WellFormed) {ty : SubType} (ht : p.HoldsSubType ty)
    {index : SubIndex} {s : SubType} (hs : p.subType ty index = .ok s) : p.HoldsSubType s := by
  cases ty with
  | sequence elements =>
    cases index with
    | name => cases hs
    | position i => exact holds_elementAt ht hs
  | single t =>
    cases index with
    | name name =>
      simp only [subType] at hs
      split at hs <;> cases hs
      next h => exact holds_propertyType hp h
    | position i => exact holds_positionType hp (holds_returned hp ht) hs

end TypePool

/-! ### Tables -/

/-- The recorded types are types of a well-formed pool. -/
structure TypeTable.WellFormed (t : TypeTable) : Prop where
  pool : t.pool.WellFormed
  records : ∀ r ∈ t.records, t.pool.Holds r.2

theorem TypeTable.WellFormed.holds_typeOf {t : TypeTable} (h : t.WellFormed) (e : ExprId) :
    t.pool.Holds (t.typeOf e) := by
  unfold typeOf
  cases hr : t.records.lookup e with
  | none => exact Nat.lt_of_lt_of_le (by decide) h.pool.primitives
  | some ty =>
    obtain ⟨l₁, l₂, heq, -⟩ := List.lookup_eq_some_iff.1 hr
    exact h.records (e, ty) (by simp [heq])

end ScriptLowering
