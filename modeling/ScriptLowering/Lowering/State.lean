import ScriptLowering.Diagnostic.Sink
import ScriptLowering.Fault
import ScriptLowering.Helper
import ScriptLowering.Target.Stmt

/-!
# Unit state

What is gathered while one file is lowered: diagnostics, temporaries and helper
namespaces.  Nothing is ever taken out.  `Effects` is what one piece of lowering
adds, together with the statements that it wants to run earlier.

    (a ++ b) ++ c = a ++ (b ++ c)                         (append_assoc)
    (u.extend a).extend b = u.extend (a ++ b)              (extend_append)
-/

namespace ScriptLowering

/-- A temporary: a hint for its name, and the place that asked for it. -/
structure Temp where
  hint : String
  span : Span
  deriving DecidableEq

structure UnitState where
  diagnostics : DiagnosticSink
  /-- The place of a temporary is its id. -/
  temps : Array Temp
  helpers : HelperSet
  deriving DecidableEq

/-- What lowering adds to a unit. -/
structure Effects where
  /-- Statements to run before the result is used. -/
  stmts : List Target.Stmt
  diagnostics : List Diagnostic
  temps : List Temp
  helpers : HelperSet

namespace Effects

def none : Effects := ⟨[], [], [], .empty⟩

protected def append (a b : Effects) : Effects :=
  ⟨a.stmts ++ b.stmts, a.diagnostics ++ b.diagnostics, a.temps ++ b.temps, a.helpers ∪ b.helpers⟩

instance : Append Effects := ⟨Effects.append⟩

def ofStmts (stmts : List Target.Stmt) : Effects := { none with stmts }

def ofDiagnostic (d : Diagnostic) : Effects := { none with diagnostics := [d] }

def ofTemp (t : Temp) : Effects := { none with temps := [t] }

def ofHelper (h : Helper) : Effects := { none with helpers := .single h }

/-- The effects but for the statements. -/
def withoutStmts (e : Effects) : Effects := { e with stmts := [] }

/-! ## Lemmas -/

@[simp] theorem stmts_append (a b : Effects) : (a ++ b).stmts = a.stmts ++ b.stmts := rfl

@[simp] theorem diagnostics_append (a b : Effects) :
    (a ++ b).diagnostics = a.diagnostics ++ b.diagnostics := rfl

@[simp] theorem temps_append (a b : Effects) : (a ++ b).temps = a.temps ++ b.temps := rfl

@[simp] theorem helpers_append (a b : Effects) : (a ++ b).helpers = a.helpers ∪ b.helpers := rfl

theorem ext_fields {a b : Effects} (hs : a.stmts = b.stmts) (hd : a.diagnostics = b.diagnostics)
    (ht : a.temps = b.temps) (hh : a.helpers = b.helpers) : a = b := by
  cases a
  cases b
  simp_all

@[simp] theorem none_append (a : Effects) : none ++ a = a :=
  ext_fields rfl rfl rfl (HelperSet.empty_union _)

@[simp] theorem append_none (a : Effects) : a ++ none = a :=
  ext_fields (by simp [none]) (by simp [none]) (by simp [none]) (HelperSet.union_empty _)

theorem append_assoc (a b c : Effects) : a ++ b ++ c = a ++ (b ++ c) :=
  ext_fields (by simp) (by simp) (by simp) (HelperSet.union_assoc ..)

end Effects

namespace UnitState

def empty : UnitState := ⟨.empty, #[], .empty⟩

/-- The id of the next temporary. -/
def nextTemp (u : UnitState) : Nat := u.temps.size

/-- The state with the effects added; statements are not kept. -/
def extend (u : UnitState) (e : Effects) : UnitState where
  diagnostics := u.diagnostics.extend e.diagnostics
  temps := u.temps ++ e.temps.toArray
  helpers := u.helpers ∪ e.helpers

/-- Allocates a temporary. -/
def newTemp (u : UnitState) (t : Temp) : Nat × UnitState := (u.nextTemp, u.extend (.ofTemp t))

def useHelper (u : UnitState) (h : Helper) : UnitState := u.extend (.ofHelper h)

def report (u : UnitState) (d : Diagnostic) : UnitState := u.extend (.ofDiagnostic d)

def temp (u : UnitState) (id : Nat) : Except Fault Temp :=
  match u.temps[id]? with
  | some t => .ok t
  | none => .error .outOfBounds

/-! ## Lemmas -/

theorem ext_fields {u v : UnitState} (hd : u.diagnostics.toList = v.diagnostics.toList)
    (ht : u.temps = v.temps) (hh : u.helpers = v.helpers) : u = v := by
  have := DiagnosticSink.toList_injective hd
  cases u
  cases v
  simp_all

@[simp] theorem nextTemp_extend (u : UnitState) (e : Effects) :
    (u.extend e).nextTemp = u.nextTemp + e.temps.length := by
  simp [nextTemp, extend]

theorem extend_append (u : UnitState) (a b : Effects) :
    (u.extend a).extend b = u.extend (a ++ b) :=
  ext_fields (by simp [extend]) (by simp [extend]) (by simp [extend, HelperSet.union_assoc])

end UnitState

end ScriptLowering
