import ScriptLowering.Proofs.Target.Leaves

/-!
# Scopes of temporaries

A list of statements is *scoped* when each use of a temporary follows its
declaration, in the same list or in a block nested in it, and no statement
writes to a temporary but the last one of the block right after its declaration.
What else a statement may write to is a parameter.

    Scoped V ss → Scoped (declared ss ++ V) tt → Scoped V (ss ++ tt)       (append)
    Scoped V ss → a temporary in ss is in V or declared in ss                (mem_of_temp)
-/

namespace ScriptLowering.Target

/-! ## Algorithm -/

def Binding.temps : Binding → List Nat
  | temp id => [id]
  | name _ | discard => []

/-- The temporaries that a statement declares for those after it. -/
def Stmt.declares : Stmt → List Nat
  | declare b _ => b.temps
  | call _ | assign _ _ | compound _ _ _ | ifThen _ _ => []

/-- The temporaries visible after a list of statements. -/
def Stmt.declared (ss : List Stmt) : List Nat := ss.flatMap declares

mutual

/-- The temporaries declared by a statement and in its blocks. -/
def Stmt.declaresWithin : Stmt → List Nat
  | .declare b _ => b.temps
  | .ifThen _ body => Stmt.declaredWithin body
  | .call _ | .assign _ _ | .compound _ _ _ => []
termination_by structural s => s

def Stmt.declaredWithin : List Stmt → List Nat
  | [] => []
  | s :: ss => s.declaresWithin ++ Stmt.declaredWithin ss
termination_by structural ss => ss

end

inductive Stmt.Scoped (writable : Expr → Prop) : List Nat → List Stmt → Prop
  | nil {V : List Nat} : Scoped writable V []
  | call {V : List Nat} {e : Expr} {rest : List Stmt} (he : e.ReadsIn V)
      (hr : Scoped writable V rest) : Scoped writable V (.call e :: rest)
  | assign {V : List Nat} {t v : Expr} {rest : List Stmt} (ht : t.ReadsIn V) (hw : writable t)
      (hv : v.ReadsIn V) (hr : Scoped writable V rest) : Scoped writable V (.assign t v :: rest)
  | compound {V : List Nat} {op : ArithmeticOp} {t v : Expr} {rest : List Stmt}
      (ht : t.ReadsIn V) (hw : writable t) (hv : v.ReadsIn V) (hr : Scoped writable V rest) :
      Scoped writable V (.compound op t v :: rest)
  | declare {V : List Nat} {b : Binding} {value : Option Expr} {rest : List Stmt}
      (hv : ∀ v ∈ value, v.ReadsIn V) (hr : Scoped writable (b.temps ++ V) rest) :
      Scoped writable V (.declare b value :: rest)
  /-- A temporary that the block right after its declaration gives a new value. -/
  | block {V : List Nat} {id : Nat} {value condition last : Expr} {body rest : List Stmt}
      (hv : value.ReadsIn V) (hc : condition.ReadsIn (id :: V))
      (hb : Scoped writable (id :: V) body) (hl : last.ReadsIn (declared body ++ id :: V))
      (hr : Scoped writable (id :: V) rest) :
      Scoped writable V (.declareTemp id value ::
        .ifThen condition (body ++ [.assign (.temp id) last]) :: rest)

/-! ## Lemmas -/

namespace Stmt

variable {writable : Expr → Prop} {V W : List Nat} {ss tt : List Stmt}

@[simp] theorem declared_nil : declared [] = [] := rfl

@[simp] theorem declared_cons (s : Stmt) (ss : List Stmt) :
    declared (s :: ss) = s.declares ++ declared ss := rfl

@[simp] theorem declared_append (ss tt : List Stmt) :
    declared (ss ++ tt) = declared ss ++ declared tt := by
  simp [declared]

@[simp] theorem declaredWithin_append (ss tt : List Stmt) :
    declaredWithin (ss ++ tt) = declaredWithin ss ++ declaredWithin tt := by
  induction ss with
  | nil => rfl
  | cons s ss ih => simp [declaredWithin, ih]

theorem declares_subset_within (s : Stmt) : ∀ i ∈ s.declares, i ∈ s.declaresWithin := by
  cases s <;> simp [declares, declaresWithin]

theorem declared_subset_within (ss : List Stmt) :
    ∀ i ∈ declared ss, i ∈ declaredWithin ss := by
  intro i hi
  induction ss with
  | nil => exact hi
  | cons s ss ih =>
    rcases List.mem_append.1 hi with hi | hi
    · exact List.mem_append_left _ (declares_subset_within s i hi)
    · exact List.mem_append_right _ (ih hi)

theorem declaredWithin_block (id : Nat) (value condition last : Expr) (body : List Stmt) :
    declaredWithin [.declareTemp id value, .ifThen condition (body ++ [.assign (.temp id) last])] =
      id :: declaredWithin body := by
  simp [declaredWithin, declaresWithin, declareTemp, Binding.temps]

/-- More visible temporaries do no harm. -/
theorem Scoped.mono (h : Scoped writable V ss) (hVW : ∀ i ∈ V, i ∈ W) : Scoped writable W ss := by
  induction h generalizing W with
  | nil => exact .nil
  | call he _ ih => exact .call (he.mono hVW) (ih hVW)
  | assign ht hw hv _ ih => exact .assign (ht.mono hVW) hw (hv.mono hVW) (ih hVW)
  | compound ht hw hv _ ih => exact .compound (ht.mono hVW) hw (hv.mono hVW) (ih hVW)
  | declare hv _ ih =>
    refine .declare (fun v h => (hv v h).mono hVW) (ih fun i hi => ?_)
    simp only [List.mem_append] at hi ⊢
    exact hi.imp_right (hVW i)
  | @block V id value condition last body rest hv hc _ hl _ ihb ihr =>
    have hcons : ∀ i ∈ id :: V, i ∈ id :: W := by
      simpa using fun i hi => Or.inr (hVW i hi)
    refine .block (hv.mono hVW) (hc.mono hcons) (ihb hcons) (hl.mono fun i hi => ?_) (ihr hcons)
    rw [List.mem_append] at hi ⊢
    exact hi.imp_right (hcons i)

/-- What a list declares is visible to the list after it. -/
theorem Scoped.append (hs : Scoped writable V ss) (ht : Scoped writable (declared ss ++ V) tt) :
    Scoped writable V (ss ++ tt) := by
  induction hs with
  | nil => exact ht
  | call he _ ih => exact .call he (ih ht)
  | assign h hw hv _ ih => exact .assign h hw hv (ih ht)
  | compound h hw hv _ ih => exact .compound h hw hv (ih ht)
  | declare hv _ ih =>
    refine .declare hv (ih (ht.mono fun i hi => ?_))
    simp only [declared_cons, declares, List.mem_append] at hi ⊢
    grind
  | block hv hc hb hl _ _ ihr =>
    refine .block hv hc hb hl (ihr (ht.mono fun i hi => ?_))
    simp only [declared_cons, declareTemp, declares, Binding.temps, List.mem_append,
      List.mem_cons, List.not_mem_nil, or_false, false_or] at hi ⊢
    grind

/-- A temporary that occurs in a scoped list was visible before or is declared in it. -/
theorem Scoped.mem_of_temp (h : Scoped writable V ss) :
    ∀ i, .temp i ∈ leavesAll ss → i ∈ V ∨ i ∈ declaredWithin ss := by
  induction h with
  | nil => simp [leavesAll]
  | call he _ ih =>
    intro i hi
    rcases List.mem_append.1 hi with hi | hi
    · exact .inl (he i hi)
    · exact (ih i hi).imp_right (List.mem_append_right _)
  | assign ht _ hv _ ih | compound ht _ hv _ ih =>
    intro i hi
    simp only [leavesAll, leaves, List.mem_append] at hi
    rcases hi with (hi | hi) | hi
    · exact .inl (ht i hi)
    · exact .inl (hv i hi)
    · exact (ih i hi).imp_right (List.mem_append_right _)
  | @declare V b value rest hv _ ih =>
    intro i hi
    have hb : .temp i ∈ b.leaves → i ∈ b.temps := by
      cases b <;> simp [Binding.leaves, Binding.temps]
    simp only [leavesAll, List.mem_append] at hi
    simp only [declaredWithin, declaresWithin, List.mem_append] at ih ⊢
    rcases hi with hi | hi
    · cases value with
      | none => exact .inr (.inl (hb hi))
      | some v =>
        rcases List.mem_append.1 hi with hi | hi
        · exact .inl (hv v rfl i hi)
        · exact .inr (.inl (hb hi))
    · have := ih i hi
      grind
  | @block V id value condition last body rest hv hc _ hl _ ihb ihr =>
    intro i hi
    simp only [leavesAll, leaves, declareTemp, leavesAll_append, Binding.leaves, Expr.leaves,
      List.mem_append, List.mem_cons, List.not_mem_nil, or_false, Leaf.temp.injEq] at hi
    have hwithin := declared_subset_within body i
    have hl' := hl i
    have hc' := hc i
    have hb := ihb i
    have hr := ihr i
    simp only [declaredWithin, declaresWithin, declareTemp, Binding.temps, declaredWithin_append,
      List.mem_append, List.mem_cons, List.not_mem_nil, or_false] at hl' hc' hb hr ⊢
    have := hv i
    grind

end Stmt

end ScriptLowering.Target
