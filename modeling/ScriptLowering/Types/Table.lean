import ScriptLowering.Source.ExprId
import ScriptLowering.Types.Query

/-!
# Type table

A type pool together with the type recorded for each expression.  An expression
without a record has the type unknown; the last record counts.

    (t.record e ty).typeOf e' = if e' = e then ty else t.typeOf e'        (typeOf_record)
-/

namespace ScriptLowering

structure TypeTable where
  pool : TypePool
  /-- Newest first. -/
  records : List (ExprId × TypeId)

namespace TypeTable

def ofPool (pool : TypePool) : TypeTable := ⟨pool, []⟩

def fresh : TypeTable := ofPool .fresh

def record (t : TypeTable) (e : ExprId) (ty : TypeId) : TypeTable :=
  ⟨t.pool, (e, ty) :: t.records⟩

def typeOf (t : TypeTable) (e : ExprId) : TypeId := (t.records.lookup e).getD .unknown

/-! ## Lemmas -/

theorem typeOf_record (t : TypeTable) (e e' : ExprId) (ty : TypeId) :
    (t.record e ty).typeOf e' = if e' = e then ty else t.typeOf e' := by
  by_cases h : e' = e
  · simp [typeOf, record, h]
  · have hb : (e' == e) = false := by simpa using h
    simp [typeOf, record, h, hb, List.lookup_cons]

end TypeTable

end ScriptLowering
