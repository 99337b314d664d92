import ScriptLowering.Proofs.Indexing.Patterns
import ScriptLowering.Proofs.Lowering.Emitted
import ScriptLowering.Proofs.Types.Returns

/-!
# Packed calls and array patterns

A call is packed by what its type is, an array pattern indexes a value by what
the union members of its type are.  The two agree on a call that an array
pattern indexes as it is, unless its type is a union with a multi-value return
among its members: such a call is not packed, and its first value is indexed.

    value (f(args)) = packReturn <$> the call unpacked                  (call_value_eq_map)
    the bound value is a table iff the type is a multi-value return, or has none as a member
-/

namespace ScriptLowering

namespace Target.Expr

def isPack : Expr → Bool
  | pack _ => true
  | _ => false

end Target.Expr

namespace Lower

open Target (Expr Stmt)
open Source (NodeInfo)

/-- The call with whatever it returns. -/
def CallContext.unpacked : CallContext := ⟨false, false⟩

/-- The code gives one table: all values of the type are arrays, or the values of
the call are packed. -/
def IsTable (pool : TypePool) (ty : TypeId) (code : Expr) : Prop :=
  (∀ m ∈ pool.unionMembers ty, pool.has m .array) ∨ code.isPack

/-- Whenever the action has a result, it is of that kind. -/
def Yields {α : Type} (x : Lower α) (P : α → Prop) : Prop := ∀ ⦃n a e⦄, x n = (.ok a, e) → P a

/-! ## Lemmas -/

variable {pool : TypePool} {n : Nat}

section

variable {α β : Type} {P : β → Prop}

theorem Yields.pure {b : β} (h : P b) : Yields (Pure.pure b) P := by
  rintro n _ _ ⟨⟩
  exact h

theorem Yields.bind {x : Lower α} {f : α → Lower β} (hf : ∀ a, Yields (f a) P) :
    Yields (x >>= f) P := by
  intro n b e h
  obtain ⟨a, e₁, e₂, -, hb, -⟩ := bind_eq_ok.1 h
  exact hf a hb

end

theorem isPack_build (form : CallForm) (member : String) (receiver : Expr) (args : List Expr) :
    (form.build member receiver args).isPack = false := by
  cases form with
  | helper h => cases h <;> rfl
  | _ => rfl

theorem call_value_eq_map (info : NodeInfo) (callee : Source.Expr) (args : List Source.Expr) :
    call pool .value (.call info callee args) =
      packReturn pool .value info.ty <$> call pool .unpacked (.call info callee args) := by
  cases callee with
  | property calleeInfo object member =>
    simp only [call, propertyCall_eq, map_eq_pure_bind, bind_assoc, pure_bind]
    rfl
  | super calleeInfo =>
    simp only [call, superCall, map_eq_pure_bind, bind_assoc, pure_bind]
    rfl
  | _ =>
    simp only [call, plainCall, map_eq_pure_bind, bind_assoc, pure_bind]
    rfl

theorem yields_call_unpacked (info : NodeInfo) (callee : Source.Expr) (args : List Source.Expr) :
    Yields (call pool .unpacked (.call info callee args)) (·.isPack = false) := by
  cases callee with
  | property calleeInfo object member =>
    rw [call, propertyCall_eq]
    exact .bind fun _ => .bind fun form => .bind fun p => .bind fun _ =>
      .pure (isPack_build form member p.1 p.2)
  | super calleeInfo => exact .bind fun _ => .bind fun _ => .bind fun _ => .pure rfl
  | _ => exact .bind fun _ => .bind fun _ => .pure rfl

/-- What is a call in the target is packed as its type says. -/
theorem isPack_value_call {info : NodeInfo} {callee : Source.Expr} {args : List Source.Expr}
    {c : Expr} {e : Effects} (h : value pool (.call info callee args) n = (.ok c, e))
    (hcall : c.isCall ∨ c.isPack) : c.isPack ↔ pool.has info.ty .tupleReturn := by
  rw [value_call, call_value_eq_map] at h
  obtain ⟨b, hb, rfl⟩ := map_eq_ok.1 h
  have hpack : b.isPack = false := yields_call_unpacked _ _ _ hb
  cases hty : pool.has info.ty .tupleReturn with
  | false => simp [packReturn, hty, hpack]
  | true =>
    cases hbare : b.isCall with
    | false => simp [packReturn_of_not_isCall hbare, hbare, hpack] at hcall
    | true => simp [packReturn, hty, hbare, CallContext.value, Expr.isPack]

/-- A call whose bound value an array pattern indexes as it is gives one table just
if its type is a multi-value return or has none among its union members. -/
theorem directCall_isTable_iff {info pinfo cinfo : NodeInfo} {op : Source.BinaryOp}
    (hop : op.isAssignment) {es : List Source.Expr} {callee : Source.Expr}
    {args : List Source.Expr} {r : Expr} {e : Effects}
    (h : value pool (.binary info op (.array pinfo es) (.call cinfo callee args)) n = (.ok r, e)) :
    ∃ c : PatternCode, c.IsFor pool es (.call cinfo callee args) n ∧ c.stmts = e.stmts ∧
      r = .temp c.temp ∧
      (c.Direct → c.value.isCall ∨ c.value.isPack →
        (IsTable pool cinfo.ty c.value ↔
          pool.has cinfo.ty .tupleReturn ∨ NoReturn pool cinfo.ty)) := by
  obtain ⟨c, hc, hstmts, hr⟩ := value_arrayPattern hop h
  refine ⟨c, hc, hstmts, hr, fun hdirect hcall => ?_⟩
  obtain ⟨e₁, hvalue, -⟩ := hc.value
  have hty : isIndexable pool (.single cinfo.ty) := hc.conversion_eq_nil_iff.1 hdirect.1
  rw [IsTable, forall_array_iff hty, isPack_value_call hvalue hcall, or_comm]

/-- `f()` with a type of its own -/
def typedCall (ty : TypeId) : Source.Expr :=
  .call ⟨.dummy, ty⟩ (.ident ⟨.dummy, .unknown⟩ "f") []

/-- `[x] = f()` -/
def destructuredCall (ty : TypeId) : Source.Expr :=
  .binary ⟨.dummy, .unknown⟩ .assign
    (.array ⟨.dummy, .unknown⟩ [.ident ⟨.dummy, .unknown⟩ "x"]) (typedCall ty)

/-- A pool with a multi-value return of two numbers. -/
def twoNumbers : TypePool := (TypePool.fresh.tupleReturn [.number, .number]).2

/-- A call that returns several values is packed, and the pack is indexed. -/
theorem directCall_isTable_twoNumbers :
    ∃ c : PatternCode, c.stmts = (value twoNumbers (destructuredCall ⟨8⟩) 0).2.stmts ∧
      c.Direct ∧ c.value = .pack (.call (.ident "f") []) ∧ IsTable twoNumbers ⟨8⟩ c.value := by
  have hlowered : value twoNumbers (destructuredCall ⟨8⟩) 0 =
      (.ok (.temp 0), (value twoNumbers (destructuredCall ⟨8⟩) 0).2) := rfl
  obtain ⟨c, hc, hstmts, -, hiff⟩ := directCall_isTable_iff rfl hlowered
  obtain ⟨e, hvalue, -⟩ := hc.value
  have hcode : .pack (.call (.ident "f") []) = c.value := Except.ok.inj (congrArg Prod.fst hvalue)
  have hdirect : c.Direct := hc.direct rfl
  exact ⟨c, hstmts, hdirect, hcode.symm, (hiff hdirect (.inr (by rw [← hcode]; rfl))).2 (.inl rfl)⟩

/-- A pool with the union of two multi-value returns, of numbers and of strings. -/
def numbersOrStrings : TypePool :=
  (((TypePool.fresh.tupleReturn [.number]).2.tupleReturn [.string]).2.union [⟨8⟩, ⟨10⟩]).2

/-- The first returned value is bound, and indexed. -/
theorem directCall_not_isTable :
    ∃ c : PatternCode,
      c.IsFor numbersOrStrings [.ident ⟨.dummy, .unknown⟩ "x"] (typedCall ⟨11⟩) 0 ∧
      c.stmts = (value numbersOrStrings (destructuredCall ⟨11⟩) 0).2.stmts ∧
      c.stmts = [.declareTemp 0 (.call (.ident "f") []),
        .assign (.ident "x") (.index (.temp 0) (oneBased 0))] ∧
      c.Direct ∧ c.value.isCall ∧ ¬ IsTable numbersOrStrings ⟨11⟩ c.value := by
  have hdirect : isIndexable numbersOrStrings (.single (typedCall ⟨11⟩).ty) := rfl
  refine ⟨⟨[], .call (.ident "f") [], 0, [], .temp 0,
    [.assign (.ident "x") (.index (.temp 0) (oneBased 0))]⟩,
    ⟨⟨_, rfl, rfl, rfl⟩, ?_, ⟨_, rfl, rfl⟩⟩, rfl, rfl, ⟨rfl, rfl⟩, rfl, ?_⟩
  · rw [if_pos hdirect]
    exact ⟨rfl, rfl⟩
  · unfold IsTable
    decide

end Lower

end ScriptLowering
