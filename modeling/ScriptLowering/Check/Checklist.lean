import ScriptLowering.Check.FileName
import ScriptLowering.Check.ModuleSyntax

/-!
# Checklists

The checks that a file has to pass before it is lowered, run in order.  All of
them run, also after one has reported.
-/

namespace ScriptLowering.Check

structure Checklist where
  checks : List (Source.File → List Diagnostic)

namespace Checklist

def empty : Checklist := ⟨[]⟩

def withCheck (c : Checklist) (check : Source.File → List Diagnostic) : Checklist :=
  ⟨c.checks ++ [check]⟩

/-- The checks for files of a project. -/
def standard : Checklist := ⟨[checkModule, checkFileName]⟩

def length (c : Checklist) : Nat := c.checks.length

def isEmpty (c : Checklist) : Bool := c.checks.isEmpty

/-- What all checks report. -/
def run (c : Checklist) (f : Source.File) : List Diagnostic := c.checks.flatMap (· f)

/-! ## Lemmas -/

@[simp] theorem run_empty (f : Source.File) : empty.run f = [] := rfl

theorem run_withCheck (c : Checklist) (check : Source.File → List Diagnostic) (f : Source.File) :
    (c.withCheck check).run f = c.run f ++ check f := by
  simp [run, withCheck]

/-- Checks in another order report the same in another order. -/
theorem run_perm {c d : Checklist} (h : c.checks.Perm d.checks) (f : Source.File) :
    (c.run f).Perm (d.run f) := h.flatMap_right _

end Checklist

end ScriptLowering.Check
