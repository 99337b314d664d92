/-!
# Spans of source text

A span is a half-open range of offsets.  The dummy span `0..0` stands for no
place at all: it covers nothing and is the unit of `cover`.

    s.contains o ↔ s.start ≤ o ∧ o < s.stop          (contains_iff)
    dummy.cover s = s,  s.cover dummy = s              (dummy_cover, cover_dummy)
-/

namespace ScriptLowering

/-- The offsets from `start` up to, not including, `stop`. -/
structure Span where
  start : Nat
  stop : Nat
  deriving DecidableEq

namespace Span

/-- The span of what has no place in the text. -/
def dummy : Span := ⟨0, 0⟩

def isDummy (s : Span) : Bool := s == dummy

/-- Zero for a span that ends before it starts. -/
def length (s : Span) : Nat := s.stop - s.start

def isEmpty (s : Span) : Bool := s.length == 0

def contains (s : Span) (offset : Nat) : Bool := s.start ≤ offset && offset < s.stop

/-- The least span around both; a dummy span adds nothing. -/
def cover (s t : Span) : Span :=
  if s.isDummy then t
  else if t.isDummy then s
  else ⟨min s.start t.start, max s.stop t.stop⟩

/-- The span as `start..stop`. -/
def toText (s : Span) : String := toString s.start ++ ".." ++ toString s.stop

/-! ## Lemmas -/

theorem contains_iff (s : Span) (o : Nat) : s.contains o ↔ s.start ≤ o ∧ o < s.stop := by
  simp [contains]

theorem isDummy_iff (s : Span) : s.isDummy ↔ s = dummy := by simp [isDummy]

theorem dummy_cover (s : Span) : dummy.cover s = s := by simp [cover, isDummy]

theorem cover_dummy (s : Span) : s.cover dummy = s := by
  by_cases h : s = dummy <;> simp [cover, isDummy, h]

theorem contains_cover_left (s t : Span) (o : Nat) (h : s.contains o) : (s.cover t).contains o := by
  have hs : s ≠ dummy := by
    rintro rfl
    simp [contains, dummy] at h
  rw [contains_iff] at *
  by_cases ht : t = dummy <;> simp [cover, isDummy, hs, ht] <;> omega

end Span

end ScriptLowering
