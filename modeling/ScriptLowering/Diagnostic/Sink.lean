import ScriptLowering.Diagnostic.Basic

/-!
# Diagnostic sink

A sink keeps diagnostics in the order in which they were pushed.  Its view is
`toList`.

    (s.push d).toList = s.toList ++ [d]           (toList_push)
    (s.extend ds).toList = s.toList ++ ds         (toList_extend)
    s.hasErrors ↔ ∃ d ∈ s.toList, d.isError       (hasErrors_iff)
-/

namespace ScriptLowering

structure DiagnosticSink where
  entries : Array Diagnostic
  deriving DecidableEq

namespace DiagnosticSink

def empty : DiagnosticSink := ⟨#[]⟩

def toList (s : DiagnosticSink) : List Diagnostic := s.entries.toList

def size (s : DiagnosticSink) : Nat := s.entries.size

def isEmpty (s : DiagnosticSink) : Bool := s.entries.isEmpty

def push (s : DiagnosticSink) (d : Diagnostic) : DiagnosticSink := ⟨s.entries.push d⟩

def extend (s : DiagnosticSink) (ds : List Diagnostic) : DiagnosticSink :=
  ⟨s.entries ++ ds.toArray⟩

def error (s : DiagnosticSink) (kind : DiagnosticKind) (span : Span) (message : String) :
    DiagnosticSink :=
  s.push (.error kind span message)

def errorCount (s : DiagnosticSink) : Nat := s.entries.countP Diagnostic.isError

def hasErrors (s : DiagnosticSink) : Bool := s.entries.any Diagnostic.isError

/-! ## Lemmas -/

@[simp] theorem toList_empty : empty.toList = [] := rfl

@[simp] theorem toList_push (s : DiagnosticSink) (d : Diagnostic) :
    (s.push d).toList = s.toList ++ [d] := by simp [push, toList]

@[simp] theorem toList_extend (s : DiagnosticSink) (ds : List Diagnostic) :
    (s.extend ds).toList = s.toList ++ ds := by simp [extend, toList]

theorem toList_injective {s t : DiagnosticSink} (h : s.toList = t.toList) : s = t := by
  cases s; cases t; simpa [toList] using h

theorem hasErrors_iff (s : DiagnosticSink) : s.hasErrors ↔ ∃ d ∈ s.toList, d.isError := by
  rw [hasErrors, ← Array.any_toList, List.any_eq_true, toList]

theorem errorCount_eq (s : DiagnosticSink) : s.errorCount = s.toList.countP Diagnostic.isError := by
  simp [errorCount, toList]

theorem hasErrors_iff_errorCount (s : DiagnosticSink) : s.hasErrors ↔ 0 < s.errorCount := by
  rw [errorCount_eq, List.countP_pos_iff, hasErrors_iff]

end DiagnosticSink

end ScriptLowering
