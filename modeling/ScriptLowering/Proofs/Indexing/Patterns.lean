import ScriptLowering.Proofs.Lowering.Nodes

/-!
# The code of array patterns

An assignment to an array pattern binds its value once, has it converted unless
its type lets it be indexed as it is, and then takes each part from its slot.

    local k = v, [local k+1 = TS.array.from(k)], …, tᵢ = source[i + 1], …    (value_arrayPattern)
    slots are counted on along the pattern                                  (taken_assignElements)
-/

namespace ScriptLowering.Lower

open Target (Expr Stmt)
open Source (NodeInfo)

/-! ## Algorithm -/

/-- An assignment to an array pattern, lowered. -/
structure PatternCode where
  /-- The statements of the value. -/
  hoisted : List Stmt
  value : Expr
  /-- The temporary that the value is bound to. -/
  temp : Nat
  conversion : List Stmt
  /-- What the parts are indexed from. -/
  source : Expr
  /-- The statements that assign the parts. -/
  assigns : List Stmt

namespace PatternCode

def stmts (c : PatternCode) : List Stmt :=
  c.hoisted ++ .declareTemp c.temp c.value :: (c.conversion ++ c.assigns)

/-- The bound value is what is indexed, with nothing made of it before. -/
def Direct (c : PatternCode) : Prop := c.conversion = [] ∧ c.source = .temp c.temp

/-- An array is made of the bound value, and bound in its turn. -/
def Converted (c : PatternCode) : Prop :=
  c.conversion =
      [.declareTemp (c.temp + 1) (.call (helperMember .array "from") [.temp c.temp])] ∧
    c.source = .temp (c.temp + 1)

/-- The code assigns the value `v` to the pattern of the parts `es`, lowered from `n` on. -/
structure IsFor (c : PatternCode) (pool : TypePool) (es : List Source.Expr) (v : Source.Expr)
    (n : Nat) : Prop where
  value : ∃ e, Lower.value pool v n = (.ok c.value, e) ∧ e.stmts = c.hoisted ∧
    n + e.temps.length = c.temp
  source : if isIndexable pool (.single v.ty) then c.Direct else c.Converted
  assigns : ∃ e, assignElements pool es 0 c.source (.single v.ty)
    (c.temp + 1 + c.conversion.length) = (.ok (), e) ∧ e.stmts = c.assigns

end PatternCode

/-- The statement takes a part of a pattern from its slot: a part that is a
pattern has the slot bound for it, any other is assigned. -/
def Takes (pool : TypePool) (part : Source.Expr) (slot : Expr) (s : Stmt) : Prop :=
  if part.isPattern then ∃ id, s = .declareTemp id slot
  else ∃ n p e, asPlaceExpr (reference pool part) n = (.ok p, e) ∧ s = .assign p slot

/-! ## Lemmas -/

variable {pool : TypePool} {n : Nat}

theorem pushTemp_bind_eq_ok {α : Type} {hint : String} {span : Span} {v : Expr}
    {f : Expr → Lower α} {a : α} {e : Effects}
    (h : (pushTemp hint span v >>= f) n = (.ok a, e)) :
    ∃ e', f (.temp n) (n + 1) = (.ok a, e') ∧ e.stmts = .declareTemp n v :: e'.stmts := by
  rw [bind_of_ok (pushTemp_apply hint span v n)] at h
  obtain ⟨hr, rfl⟩ := Prod.mk.inj h
  exact ⟨_, Prod.ext hr rfl, rfl⟩

/-- What is no array is converted by one more statement. -/
theorem indexableSource_eq_ok {span : Span} {ty : SubType} {source r : Expr} {e : Effects}
    (h : indexableSource pool span ty source n = (.ok r, e)) :
    (isIndexable pool ty ∧ r = source ∧ e = .none) ∨
      (isIndexable pool ty = false ∧ r = .temp n ∧ e.temps.length = 1 ∧
        e.stmts = [.declareTemp n (.call (helperMember .array "from") [source])]) := by
  unfold indexableSource at h
  split at h
  next hty =>
    cases h
    exact .inl ⟨hty, rfl, rfl⟩
  next hty =>
    cases h
    exact .inr ⟨Bool.eq_false_iff.2 hty, rfl, rfl, rfl⟩

theorem value_arrayPattern {info pinfo : NodeInfo} {op : Source.BinaryOp} (hop : op.isAssignment)
    {es : List Source.Expr} {v : Source.Expr} {r : Expr} {e : Effects}
    (h : value pool (.binary info op (.array pinfo es) v) n = (.ok r, e)) :
    ∃ c : PatternCode, c.IsFor pool es v n ∧ c.stmts = e.stmts ∧ r = .temp c.temp := by
  rw [value_pattern pool info _ v op hop rfl] at h
  obtain ⟨code, e₁, e₂, hv, hbound, rfl⟩ := bind_eq_ok.1 h
  obtain ⟨e₃, hrest, hstmts⟩ := pushTemp_bind_eq_ok hbound
  obtain ⟨⟨⟩, e₄, e₅, hassign, hpure, rfl⟩ := bind_eq_ok.1 hrest
  cases hpure
  obtain ⟨source, e₆, e₇, hsource, hparts, rfl⟩ := bind_eq_ok.1 hassign
  have hcode : (e₁ ++ e₂).stmts = e₁.stmts ++
      .declareTemp (n + e₁.temps.length) code :: (e₆.stmts ++ e₇.stmts) := by
    simp [hstmts]
  rcases indexableSource_eq_ok hsource with ⟨hty, rfl, rfl⟩ | ⟨hty, rfl, htemps, hconv⟩
  · refine ⟨⟨e₁.stmts, code, n + e₁.temps.length, [], _, e₇.stmts⟩,
      ⟨⟨e₁, hv, rfl, rfl⟩, ?_, ⟨e₇, hparts, rfl⟩⟩, hcode.symm, rfl⟩
    rw [if_pos hty]
    exact ⟨rfl, rfl⟩
  · rw [htemps] at hparts
    rw [hconv] at hcode
    refine ⟨⟨e₁.stmts, code, n + e₁.temps.length, _, _, e₇.stmts⟩,
      ⟨⟨e₁, hv, rfl, rfl⟩, ?_, ⟨e₇, hparts, rfl⟩⟩, hcode.symm, rfl⟩
    rw [if_neg (Bool.eq_false_iff.1 hty)]
    exact ⟨rfl, rfl⟩

theorem PatternCode.IsFor.conversion_eq_nil_iff {c : PatternCode} {es : List Source.Expr}
    {v : Source.Expr} (hc : c.IsFor pool es v n) :
    c.conversion = [] ↔ isIndexable pool (.single v.ty) := by
  have h := hc.source
  split at h
  next hty => exact iff_of_true h.1 hty
  next hty => exact iff_of_false (by simp [h.1]) hty

theorem PatternCode.IsFor.direct {c : PatternCode} {es : List Source.Expr} {v : Source.Expr}
    (hc : c.IsFor pool es v n) (hty : isIndexable pool (.single v.ty)) : c.Direct := by
  simpa [hty] using hc.source

/-- A part that is not left out is taken from its slot. -/
theorem taken_assignPart {part : Source.Expr} (hpart : ∀ info, part ≠ .undefined info)
    {nested : Expr → SubType → Lower Unit} {slot : Expr} {ty : SubType} {index : SubIndex}
    {e : Effects}
    (h : assignPart pool part nested (asPlaceExpr (reference pool part)) slot ty index n =
      (.ok (), e)) : ∃ s ∈ e.stmts, Takes pool part slot s := by
  unfold assignPart at h
  unfold Takes
  split at h
  next hp =>
    obtain ⟨partTy, e₁, e₂, -, hbound, rfl⟩ := bind_eq_ok.1 h
    obtain ⟨e₃, -, hstmts⟩ := pushTemp_bind_eq_ok hbound
    refine ⟨.declareTemp (n + e₁.temps.length) slot, by simp [hstmts], ?_⟩
    rw [if_pos hp]
    exact ⟨_, rfl⟩
  next hp =>
    split at h
    next info => exact absurd rfl (hpart info)
    next =>
      obtain ⟨p, e₁, e₂, hplace, hemit, rfl⟩ := bind_eq_ok.1 h
      cases hemit
      refine ⟨.assign p slot, List.mem_append_right _ (List.mem_singleton_self _), ?_⟩
      rw [if_neg hp]
      exact ⟨_, _, _, hplace, rfl⟩

/-- Each part is taken from the slot at its place in the pattern. -/
theorem taken_assignElements {es : List Source.Expr} {position : Nat} {source : Expr}
    {ty : SubType} {e : Effects}
    (h : assignElements pool es position source ty n = (.ok (), e)) {i : Nat}
    {part : Source.Expr} (hi : es[i]? = some part) (hpart : ∀ info, part ≠ .undefined info) :
    ∃ s ∈ e.stmts, Takes pool part (.index source (oneBased (position + i))) s := by
  induction es generalizing position n e i with
  | nil => simp at hi
  | cons first rest ih =>
    obtain ⟨⟨⟩, e₁, e₂, hfirst, hrest, rfl⟩ := bind_eq_ok.1 h
    cases i with
    | zero =>
      obtain rfl : first = part := by simpa using hi
      obtain ⟨s, hs, htakes⟩ := taken_assignPart hpart hfirst
      exact ⟨s, List.mem_append_left _ hs, htakes⟩
    | succ i =>
      obtain ⟨s, hs, htakes⟩ := ih hrest (by simpa using hi)
      rw [Nat.add_assoc, Nat.add_comm 1] at htakes
      exact ⟨s, List.mem_append_right _ hs, htakes⟩

end ScriptLowering.Lower
