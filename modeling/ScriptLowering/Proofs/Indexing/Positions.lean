import ScriptLowering.Proofs.Indexing.Packing
import ScriptLowering.Proofs.Number.Naturals

/-!
# Positions in values that are indexed as they are

An array pattern takes the part at a position from the slot one further, whatever
lets its value be indexed.  An element access counts from one only where all
members of the type are arrays, so the two part on a multi-value return.

    v[k] is the value of v, indexed by k or by k + 1                         (accessIndex_shifted)
    pattern and access name one slot iff no member is a multi-value return   (slots_agree_iff)
-/

namespace ScriptLowering.Lower

open Target (Expr Stmt)
open Source (NodeInfo)

/-! ## Algorithm -/

/-- The element access of `v` by the literal `k` is lowered to the value of `v` at
the literal `index`, and nothing more. -/
def AccessIndex (pool : TypePool) (v : Source.Expr) (k index : Number) : Prop :=
  ∀ {info ninfo n r e}, reference pool (.element info v (.number ninfo k)) n = (.ok r, e) ↔
    ∃ o, value pool v n = (.ok o, e) ∧ r = .plain (.index o (.number index))

/-- An array pattern that is assigned `v` indexes the bound value itself, and takes
the part at the position, unless it is left out, from the slot. -/
def PatternSlot (pool : TypePool) (v : Source.Expr) (i : Nat) (slot : Number) : Prop :=
  ∀ {info pinfo op es part n r e}, Source.BinaryOp.isAssignment op → es[i]? = some part →
    (∀ info, part ≠ .undefined info) →
    value pool (.binary info op (.array pinfo es) v) n = (.ok r, e) →
      ∃ c : PatternCode, c.IsFor pool es v n ∧ c.stmts = e.stmts ∧ c.Direct ∧
        ∃ s ∈ c.assigns, Takes pool part (.index c.source (.number slot)) s

/-! ## Lemmas -/

variable {pool : TypePool} {n : Nat}

/-! ### Literal indices -/

/-- A second operand that runs no statements leaves the first where it is. -/
theorem inOrderPair_pure (x : Operand) (span : Span) (v : Expr) :
    inOrderPair x ⟨span, pure v⟩ =
      (x.lower.capture >>= fun p => emitAll p.2 >>= fun _ => pure (p.1, v)) := by
  have hv : (pure v : Lower Expr).capture = pure (v, []) := rfl
  have hlast : settle ⟨span, v, []⟩ [] = pure v := rfl
  have hfirst (c : Captured) :
      settle c [⟨span, v, []⟩] = (emitAll c.stmts >>= fun _ => pure c.value) :=
    settle_of_no_stmts (by simp)
  simp only [inOrderPair, Operand.capture, bind_assoc, pure_bind, hv, hlast, hfirst]

theorem inOrderPair_pure_eq_ok {x : Operand} {span : Span} {v : Expr} {p : Expr × Expr}
    {e : Effects} :
    inOrderPair x ⟨span, pure v⟩ n = (.ok p, e) ↔ ∃ u, x.lower n = (.ok u, e) ∧ p = (u, v) := by
  have hemit (u : Expr) (ss : List Stmt) (m : Nat) :
      (emitAll ss >>= fun _ => pure (u, v)) m = (.ok (u, v), .ofStmts ss) :=
    Prod.ext rfl (Effects.append_none _)
  rw [inOrderPair_pure]
  constructor
  · intro h
    obtain ⟨⟨u, ss⟩, e₁, e₂, hc, hlater, rfl⟩ := bind_eq_ok.1 h
    obtain ⟨e₃, hx, rfl, rfl⟩ := capture_eq_ok.1 hc
    cases (hemit u e₃.stmts _).symm.trans hlater
    rw [Effects.withoutStmts_append_ofStmts]
    exact ⟨u, hx, rfl⟩
  · rintro ⟨u, hx, rfl⟩
    rw [bind_of_ok (capture_of_ok hx), hemit]
    exact Prod.ext rfl (Effects.withoutStmts_append_ofStmts e)

/-- The literal is shifted where all members of the type are arrays or undefined. -/
theorem accessIndex_shifted (v : Source.Expr) (k : Number) : AccessIndex pool v k
    (if pool.isDefinitely v.ty fun t => pool.has t .array || pool.has t .undefined then k.add .one
      else k) := by
  intro info ninfo n r e
  have hpair : reference pool (.element info v (.number ninfo k)) =
      (fun p : Expr × Expr => .plain (.index p.1 (shiftIndex pool v.ty p.2))) <$>
        inOrderPair ⟨v.span, value pool v⟩ ⟨ninfo.span, pure (.number k)⟩ := rfl
  have hindex : shiftIndex pool v.ty (.number k) = .number
      (if pool.isDefinitely v.ty fun t => pool.has t .array || pool.has t .undefined then
        k.add .one else k) := by
    unfold shiftIndex
    split <;> rfl
  rw [hpair, map_eq_ok]
  constructor
  · rintro ⟨p, hp, rfl⟩
    obtain ⟨o, ho, rfl⟩ := inOrderPair_pure_eq_ok.1 hp
    exact ⟨o, ho, by rw [hindex]⟩
  · rintro ⟨o, ho, rfl⟩
    exact ⟨_, inOrderPair_pure_eq_ok.2 ⟨o, ho, rfl⟩, by rw [hindex]⟩

/-! ### Slots -/

/-- What the shift of an element access asks, of a type whose values are indexed as they are. -/
theorem isDefinitely_shifted_iff {ty : TypeId} (hty : isIndexable pool (.single ty)) :
    (pool.isDefinitely ty fun t => pool.has t .array || pool.has t .undefined) ↔
      NoReturn pool ty := by
  rw [TypePool.isDefinitely_iff, and_iff_right (isIndexable_single_iff.1 hty).1]
  refine forall_members_iff hty (fun m hm => by simp [hm]) fun m hm => ?_
  rw [TypePool.has_of_tupleReturn hm (by decide), TypePool.has_of_tupleReturn hm (by decide)]
  rfl

/-- The part at a position is taken from the slot one further. -/
theorem patternSlot_oneBased {v : Source.Expr} (hv : isIndexable pool (.single v.ty)) (i : Nat) :
    PatternSlot pool v i ((Number.ofNat i).add .one) := by
  intro info pinfo op es part n r e hop hpart hkept h
  obtain ⟨c, hc, hstmts, -⟩ := value_arrayPattern hop h
  obtain ⟨e', hassigns, hparts⟩ := hc.assigns
  obtain ⟨s, hs, htakes⟩ := taken_assignElements hassigns hpart hkept
  rw [Nat.zero_add] at htakes
  exact ⟨c, hc, hstmts, hc.direct hv, s, hparts ▸ hs, htakes⟩

/-- Of a value that array patterns index as it is, an element access by a literal
and a pattern name one slot just if its type has no multi-value return among its
members.  From 2^53 on a position and the next may be one number. -/
theorem slots_agree_iff {v : Source.Expr} (hv : isIndexable pool (.single v.ty)) (i : Nat) :
    ∃ index slot : Number, AccessIndex pool v (.ofNat i) index ∧ PatternSlot pool v i slot ∧
      (NoReturn pool v.ty → index = slot) ∧
      (i < 2 ^ 53 → slot = .ofNat (i + 1) ∧ (index = slot ↔ NoReturn pool v.ty)) := by
  refine ⟨_, _, accessIndex_shifted v (.ofNat i), patternSlot_oneBased hv i, fun h => ?_,
    fun hi => ?_⟩
  · rw [if_pos ((isDefinitely_shifted_iff hv).2 h)]
  · obtain ⟨hnext, hne⟩ := Number.ofNat_succ hi
    refine ⟨hnext, ?_⟩
    rw [← isDefinitely_shifted_iff hv]
    split
    next h => exact iff_of_true rfl h
    next h => exact iff_of_false (fun heq => hne (heq.trans hnext)) h

/-- A pool with the type of arrays of numbers. -/
def numberArrays : TypePool := (TypePool.fresh.array .number).2

def arrayVariable : Source.Expr := .ident ⟨.dummy, ⟨7⟩⟩ "v"

/-- `v[0]` -/
def firstOf (v : Source.Expr) : Source.Expr :=
  .element ⟨.dummy, .unknown⟩ v (.number ⟨.dummy, .number⟩ (.ofNat 0))

/-- The first element of an array is at the slot one. -/
theorem slots_agree_arrayVariable :
    (reference numberArrays (firstOf arrayVariable) 0).1 =
        .ok (.plain (.index (.ident "v") (.number (.ofNat 1)))) ∧
      PatternSlot numberArrays arrayVariable 0 (.ofNat 1) := by
  have hv : isIndexable numberArrays (.single arrayVariable.ty) := rfl
  obtain ⟨index, slot, haccess, hpattern, -, hsame⟩ := slots_agree_iff hv 0
  obtain ⟨rfl, hiff⟩ := hsame (by decide)
  have hindex : index = .ofNat 1 := hiff.2 (by unfold NoReturn; decide)
  have hlowered : reference numberArrays (firstOf arrayVariable) 0 =
      (.ok (.plain (.index (.ident "v") (.number index))), (value numberArrays arrayVariable 0).2) :=
    haccess.2 ⟨_, rfl, rfl⟩
  rw [hindex] at hlowered
  exact ⟨congrArg Prod.fst hlowered, hpattern⟩

/-- The pattern takes `x` from the slot one, the access reads the slot zero. -/
theorem slots_of_return_differ :
    isIndexable twoNumbers (.single (typedCall ⟨8⟩).ty) ∧
      (value twoNumbers (destructuredCall ⟨8⟩) 0).2.stmts =
        [.declareTemp 0 (.pack (.call (.ident "f") [])),
          .assign (.ident "x") (.index (.temp 0) (.number (.ofNat 1)))] ∧
      (value twoNumbers (firstOf (typedCall ⟨8⟩)) 0).1 =
        .ok (.index (.pack (.call (.ident "f") [])) (.number (.ofNat 0))) ∧
      Number.ofNat 0 ≠ .ofNat 1 := by
  have hslot : (Number.ofNat 0).add .one = .ofNat 1 := (Number.ofNat_succ (by decide)).1
  refine ⟨rfl, ?_, rfl, (Number.ofNat_succ (by decide)).2⟩
  rw [← hslot]
  rfl

end ScriptLowering.Lower
