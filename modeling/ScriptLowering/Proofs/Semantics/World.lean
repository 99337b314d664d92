import ScriptLowering.Proofs.Semantics.Value
import ScriptLowering.Target.Operator

/-!
# Worlds and runs

A world says what the code itself does not: what calls do, what is found in a
table, what the operators make of values.  A run changes the variables and the
heap and notes every call it makes; it ends with a result or with an error.

    (x >>= f) s = f a s', where x s = (.ok a, s')                          (bind_of_ok)
    x s = y s → f and g agree on what y leaves → (x >>= f) s = (y >>= g) s   (bind_congr)
-/

namespace ScriptLowering

/-- What code can read and change. -/
structure Store (Ref Heap : Type) where
  vars : String → Value Ref
  heap : Heap

/-- A change of the store, which may end in an error. -/
abbrev Action (Ref Heap Error α : Type) : Type :=
  Store Ref Heap → Except Error α × Store Ref Heap

structure World where
  Ref : Type
  [decEq : DecidableEq Ref]
  Heap : Type
  Error : Type
  /-- What a call of the value with these arguments does. -/
  call (callee : Value Ref) (args : List (Value Ref)) : Action Ref Heap Error (Value Ref)
  /-- What a value holds under a key. -/
  member (object key : Value Ref) (s : Store Ref Heap) : Except Error (Value Ref)
  setMember (object key value : Value Ref) : Action Ref Heap Error Unit
  /-- Arithmetic and comparison by order. -/
  binary (op : Target.BinaryOp) (l r : Value Ref) : Action Ref Heap Error (Value Ref)
  unary (op : Target.UnaryOp) (v : Value Ref) : Action Ref Heap Error (Value Ref)
  table (fields : List (Option String × Value Ref)) : Action Ref Heap Error (Value Ref)
  /-- All values that a call returned, as one table. -/
  pack (v : Value Ref) : Action Ref Heap Error (Value Ref)
  /-- The error of code without a meaning. -/
  stuck : Error

attribute [instance] World.decEq

namespace World

variable (w : World)

abbrev Val : Type := Value w.Ref

/-- A store and the calls made so far, each with its callee and arguments. -/
structure State extends Store w.Ref w.Heap where
  calls : List (w.Val × List w.Val)

def Run (α : Type) : Type := w.State → Except w.Error α × w.State

end World

namespace Run

variable {w : World} {α β γ : Type}

/-! ## Algorithm -/

protected def pure (a : α) : w.Run α := fun s => (.ok a, s)

protected def bind (x : w.Run α) (f : α → w.Run β) : w.Run β := fun s =>
  match x s with
  | (.ok a, s) => f a s
  | (.error e, s) => (.error e, s)

instance : Monad w.Run where
  pure := Run.pure
  bind := Run.bind

def raise (e : w.Error) : w.Run α := fun s => (.error e, s)

/-- An action of the world; it makes no call of its own. -/
def act (x : Action w.Ref w.Heap w.Error α) : w.Run α := fun s =>
  let (r, store) := x s.toStore
  (r, ⟨store, s.calls⟩)

def readVar (name : String) : w.Run w.Val := fun s => (.ok (s.vars name), s)

def writeVar (name : String) (v : w.Val) : w.Run Unit := fun s =>
  (.ok (), { s with vars := fun x => if x = name then v else s.vars x })

def readMember (object key : w.Val) : w.Run w.Val := fun s => (w.member object key s.toStore, s)

def writeMember (object key v : w.Val) : w.Run Unit := act (w.setMember object key v)

/-- Notes a call and makes it. -/
def callValue (callee : w.Val) (args : List w.Val) : w.Run w.Val := fun s =>
  act (w.call callee args) { s with calls := s.calls ++ [(callee, args)] }

/-- Equality is that of the values; the other operators are the world's. -/
def binary (op : Target.BinaryOp) (l r : w.Val) : w.Run w.Val :=
  match op with
  | .eq => pure (.bool (l.same r))
  | .ne => pure (.bool (!l.same r))
  | op => act (w.binary op l r)

/-- The sign of a number is flipped; other operands are the world's. -/
def negate (v : w.Val) : w.Run w.Val :=
  match v with
  | .number n => pure (.number n.neg)
  | v => act (w.unary .neg v)

/-! ## Lemmas -/

theorem pure_apply (a : α) (s : w.State) : (pure a : w.Run α) s = (.ok a, s) := rfl

theorem bind_apply (x : w.Run α) (f : α → w.Run β) (s : w.State) :
    (x >>= f) s = match x s with
      | (.ok a, s) => f a s
      | (.error e, s) => (.error e, s) := rfl

theorem bind_of_ok {x : w.Run α} {s s' : w.State} {a : α} (h : x s = (.ok a, s'))
    (f : α → w.Run β) : (x >>= f) s = f a s' := by
  rw [bind_apply, h]

theorem pure_bind (a : α) (f : α → w.Run β) : (pure a >>= f) = f a := rfl

theorem bind_pure (x : w.Run α) : (x >>= pure) = x := by
  funext s
  rw [bind_apply]
  rcases x s with ⟨_ | _, _⟩ <;> rfl

theorem bind_assoc (x : w.Run α) (f : α → w.Run β) (g : β → w.Run γ) :
    (x >>= f >>= g) = (x >>= fun a => f a >>= g) := by
  funext s
  simp only [bind_apply]
  rcases x s with ⟨_ | _, _⟩ <;> rfl

instance : LawfulMonad w.Run := LawfulMonad.mk' w.Run bind_pure pure_bind bind_assoc

/-- The result of a run that has one, in the state it leaves. -/
def After (x : w.Run α) (s : w.State) (P : α → w.State → Prop) : Prop :=
  ∀ a s', x s = (.ok a, s') → P a s'

/-- Runs that begin alike and go on alike from there are alike. -/
theorem bind_congr {x y : w.Run α} {f g : α → w.Run β} {s : w.State} (h : x s = y s)
    (hf : ∀ a s', y s = (.ok a, s') → f a s' = g a s') : (x >>= f) s = (y >>= g) s := by
  rw [bind_apply, bind_apply, h]
  rcases hy : y s with ⟨_ | a, s'⟩
  · rfl
  · exact hf a s' hy

theorem bind_congr_right {x : w.Run α} {f g : α → w.Run β} {s : w.State}
    (hf : ∀ a s', x s = (.ok a, s') → f a s' = g a s') : (x >>= f) s = (x >>= g) s :=
  bind_congr rfl hf

/-- What goes on after two runs in a row may also depend on the first result,
as long as it makes no difference. -/
theorem bind_through {x : w.Run α} {y : α → w.Run β} {m : w.Run β} {f : α → β → w.Run γ}
    {g : β → w.Run γ} {s : w.State} (hm : (x >>= y) s = m s)
    (h : ∀ a b s', m s = (.ok b, s') → f a b s' = g b s') :
    (x >>= fun a => y a >>= f a) s = (m >>= g) s := by
  rw [bind_apply] at hm
  rw [bind_apply, bind_apply, ← hm]
  rcases hx : x s with ⟨_ | a, s₁⟩
  · rfl
  · simp only [hx] at hm
    simp only [bind_apply]
    rcases hy : y a s₁ with ⟨_ | b, s₂⟩
    · rfl
    · exact h a b s₂ (hm.symm.trans hy)

theorem bind_eq_ok {x : w.Run α} {f : α → w.Run β} {s t : w.State} {b : β} :
    (x >>= f) s = (.ok b, t) ↔ ∃ a s', x s = (.ok a, s') ∧ f a s' = (.ok b, t) := by
  rw [bind_apply]
  rcases x s with ⟨_ | a, s'⟩
  · simp
  · constructor
    · intro h
      exact ⟨a, s', rfl, h⟩
    · rintro ⟨_, _, ⟨⟩, h⟩
      exact h

end Run

end ScriptLowering
