/-!
# Helper namespaces

Lowered code calls helpers `TS.namespace.member` of a support library.  A file's
helper set says which namespaces it needs.

    (s ∪ t).contains h = (s.contains h || t.contains h)            (contains_union)
    (∀ h, s.contains h = t.contains h) → s = t                       (ext_contains)
-/

namespace ScriptLowering

inductive Helper where
  | array
  | string
  | map
  | set
  | object
  | runtime
  deriving DecidableEq

structure HelperSet where
  array : Bool := false
  string : Bool := false
  map : Bool := false
  set : Bool := false
  object : Bool := false
  runtime : Bool := false
  deriving DecidableEq

namespace Helper

/-- The field of the support library that holds the namespace. -/
def field : Helper → String
  | array => "array"
  | string => "string"
  | map => "map"
  | set => "set"
  | object => "Object"
  | runtime => "runtime"

/-- The name of the namespace in a listing of helpers. -/
def label : Helper → String
  | array => "ARRAY"
  | string => "STRING"
  | map => "MAP"
  | set => "SET"
  | object => "OBJECT"
  | runtime => "RUNTIME"

/-- The namespaces in the order in which they are listed. -/
def all : List Helper := [array, string, map, set, object, runtime]

end Helper

namespace HelperSet

def empty : HelperSet := {}

def contains (s : HelperSet) : Helper → Bool
  | .array => s.array
  | .string => s.string
  | .map => s.map
  | .set => s.set
  | .object => s.object
  | .runtime => s.runtime

def single : Helper → HelperSet
  | .array => { array := true }
  | .string => { string := true }
  | .map => { map := true }
  | .set => { set := true }
  | .object => { object := true }
  | .runtime => { runtime := true }

protected def union (s t : HelperSet) : HelperSet where
  array := s.array || t.array
  string := s.string || t.string
  map := s.map || t.map
  set := s.set || t.set
  object := s.object || t.object
  runtime := s.runtime || t.runtime

instance : Union HelperSet := ⟨HelperSet.union⟩

def insert (s : HelperSet) (h : Helper) : HelperSet := s ∪ single h

def toList (s : HelperSet) : List Helper := Helper.all.filter s.contains

/-! ## Lemmas -/

@[simp] theorem contains_empty (h : Helper) : empty.contains h = false := by cases h <;> rfl

@[simp] theorem contains_union (s t : HelperSet) (h : Helper) :
    (s ∪ t).contains h = (s.contains h || t.contains h) := by cases h <;> rfl

@[simp] theorem contains_single (h k : Helper) : (single h).contains k = (h == k) := by
  cases h <;> cases k <;> rfl

theorem ext_contains {s t : HelperSet} (h : ∀ k, s.contains k = t.contains k) : s = t := by
  have ha := h .array
  have hs := h .string
  have hm := h .map
  have ht := h .set
  have ho := h .object
  have hr := h .runtime
  cases s
  cases t
  simp_all [contains]

theorem empty_union (s : HelperSet) : empty ∪ s = s := ext_contains (by simp)

theorem union_empty (s : HelperSet) : s ∪ empty = s := ext_contains (by simp)

theorem union_assoc (s t u : HelperSet) : s ∪ t ∪ u = s ∪ (t ∪ u) :=
  ext_contains (by simp [Bool.or_assoc])

theorem mem_toList (s : HelperSet) (h : Helper) : h ∈ s.toList ↔ s.contains h := by
  have : h ∈ Helper.all := by cases h <;> decide
  simp [toList, this]

end HelperSet

end ScriptLowering
