import ScriptLowering.Diagnostic.Kind
import ScriptLowering.Span

/-!
# Diagnostics

A diagnostic is a finding about the source text.  Its text ends in the place
that it is about, unless that is the dummy span.
-/

namespace ScriptLowering

inductive Severity where
  | error
  | warning
  deriving DecidableEq

structure Diagnostic where
  severity : Severity
  kind : DiagnosticKind
  span : Span
  message : String
  deriving DecidableEq

def Severity.word : Severity → String
  | .error => "error"
  | .warning => "warning"

namespace Diagnostic

def error (kind : DiagnosticKind) (span : Span) (message : String) : Diagnostic :=
  ⟨.error, kind, span, message⟩

def warning (kind : DiagnosticKind) (span : Span) (message : String) : Diagnostic :=
  ⟨.warning, kind, span, message⟩

def isError (d : Diagnostic) : Bool := d.severity == .error

/-- The line `severity[code]: message (at span)`. -/
def toText (d : Diagnostic) : String :=
  d.severity.word ++ "[" ++ d.kind.code ++ "]: " ++ d.message
    ++ (if d.span.isDummy then "" else " (at " ++ d.span.toText ++ ")")

@[simp] theorem isError_error (k : DiagnosticKind) (s : Span) (m : String) :
    (error k s m).isError = true := rfl

@[simp] theorem isError_warning (k : DiagnosticKind) (s : Span) (m : String) :
    (warning k s m).isError = false := rfl

end Diagnostic

end ScriptLowering
