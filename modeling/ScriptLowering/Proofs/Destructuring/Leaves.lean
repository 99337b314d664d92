import ScriptLowering.Lowering.Statement
import ScriptLowering.Proofs.Destructuring.Runs
import ScriptLowering.Proofs.Number.Naturals

/-!
# Leaves of destructuring assignments

An assignment to a pattern evaluates its value once, binds it, and assigns the
parts from there.  If conversions only make new arrays, then in the end each
variable of the pattern holds the part of the value at its path.

    p.assign x s = s' → p holds x in s', after one call a conversion         (assign_holds)
    position i is read from slot i + 1                                       (key_position)
    resolve l = some p → the code of l = v assigns the value of v to p        (destructuring_assigns)
-/

namespace ScriptLowering

/-- `TS.array.from`, as it is found in the store. -/
def World.conversion (w : World) (s : Store w.Ref w.Heap) : Except w.Error w.Val := do
  let array ← w.member (s.vars "TS") (.string "array") s
  w.member array (.string "from") s

/-- Members are kept in the heap, and a conversion changes none that is there, and
no variable. -/
structure World.QuietConversions (w : World) : Prop where
  member_heap : ∀ {object key s s'}, s.heap = s'.heap →
    w.member object key s = w.member object key s'
  vars_kept : ∀ {f x y s s'}, w.conversion s = .ok f → w.call f [x] s = (.ok y, s') →
    s'.vars = s.vars
  members_kept : ∀ {f x y s s'}, w.conversion s = .ok f → w.call f [x] s = (.ok y, s') →
    ∀ {object key v}, w.member object key s = .ok v → w.member object key s' = .ok v

theorem SubIndex.key_position {Ref : Type} {i : Nat} (h : i < 2 ^ 53) :
    (SubIndex.position i).key = (.number (.ofNat (i + 1)) : Value Ref) :=
  congrArg Value.number (Number.ofNat_succ h).1

namespace Lower

open Target (Expr Stmt Temps eval execAll)

variable {w : World} {pool : TypePool}

/-! ## Algorithm -/

/-- Calls with their callees and arguments. -/
abbrev Calls (w : World) : Type := List (w.Val × List w.Val)

/-- The conversion `f` has made `y` of `x`. -/
def Converts (f x y : w.Val) : Prop := ∃ s s', w.conversion s = .ok f ∧ w.call f [x] s = (.ok y, s')

namespace Pattern

mutual

/-- Each variable holds the part of the value at its path; the calls are those that
converted the value and its parts, level by level. -/
def Holds (s : w.State) : Pattern → w.Val → Calls w → Prop
  | leaf name, x, cs => s.vars name = x ∧ cs = []
  | elided, _, cs => cs = []
  | level true parts, x, cs =>
    ∃ f y rest, cs = (f, [x]) :: rest ∧ Converts f x y ∧ HoldsAll s parts y rest
  | level false parts, x, cs => HoldsAll s parts x cs
termination_by structural p => p

/-- Each part holds the member of the value at its step. -/
def HoldsAll (s : w.State) : List (SubIndex × Pattern) → w.Val → Calls w → Prop
  | [], _, cs => cs = []
  | (index, p) :: rest, x, cs => ∃ first later, cs = first ++ later ∧
    (if p.isElided then first = []
      else ∃ y, w.member x index.key s.toStore = .ok y ∧ Holds s p y first) ∧
    HoldsAll s rest x later
termination_by structural ps => ps

end

end Pattern

/-- What an assignment to the variables leaves as it was. -/
structure Changes (names : List String) (s s' : w.State) (cs : Calls w) : Prop where
  calls : s'.calls = s.calls ++ cs
  vars : ∀ name ∉ names, s'.vars name = s.vars name
  members : ∀ {object key v}, w.member object key s.toStore = .ok v →
    w.member object key s'.toStore = .ok v

/-! ## Lemmas -/

/-! ### Changes -/

theorem Changes.refl (s : w.State) : Changes [] s s [] :=
  ⟨(List.append_nil _).symm, fun _ _ => rfl, id⟩

theorem Changes.trans {names names' : List String} {s₁ s₂ s₃ : w.State} {cs cs' : Calls w}
    (h : Changes names s₁ s₂ cs) (h' : Changes names' s₂ s₃ cs') :
    Changes (names ++ names') s₁ s₃ (cs ++ cs') where
  calls := by rw [h'.calls, h.calls, List.append_assoc]
  vars name hname := by
    rw [h'.vars name fun hm => hname (List.mem_append_right _ hm),
      h.vars name fun hm => hname (List.mem_append_left _ hm)]
  members hv := h'.members (h.members hv)

theorem changes_writeVar (hw : w.QuietConversions) {name : String} {x : w.Val} {s s' : w.State}
    (h : Run.writeVar name x s = (.ok (), s')) : Changes [name] s s' [] ∧ s'.vars name = x := by
  cases h
  refine ⟨⟨(List.append_nil _).symm, fun name' hname => ?_, fun hv => ?_⟩, if_pos rfl⟩
  · exact if_neg fun heq => hname (List.mem_singleton.2 heq)
  · rw [← hv]
    exact hw.member_heap rfl

/-- A conversion is one call, of what `TS.array.from` was then. -/
theorem convert_eq_ok {x y : w.Val} {s s' : w.State} (h : convert x s = (.ok y, s')) :
    ∃ f, w.conversion s.toStore = .ok f ∧ w.call f [x] s.toStore = (.ok y, s'.toStore) ∧
      s'.calls = s.calls ++ [(f, [x])] := by
  obtain ⟨ts, s₁, hts, h⟩ := Run.bind_eq_ok.1 h
  obtain ⟨array, s₂, harray, h⟩ := Run.bind_eq_ok.1 h
  obtain ⟨f, s₃, hf, h⟩ := Run.bind_eq_ok.1 h
  cases hts
  obtain rfl : s = s₂ := congrArg (·.2) harray
  obtain rfl : s = s₃ := congrArg (·.2) hf
  have harray : w.member (s.vars "TS") (.string "array") s.toStore = .ok array :=
    congrArg (·.1) harray
  have hf : w.member array (.string "from") s.toStore = .ok f := congrArg (·.1) hf
  refine ⟨f, by rw [World.conversion, harray]; exact hf, ?_⟩
  rcases hcall : w.call f [x] s.toStore with ⟨r, store⟩
  simp only [Run.callValue, Run.act, hcall, Prod.mk.injEq] at h
  obtain ⟨rfl, rfl⟩ := h
  exact ⟨rfl, rfl⟩

theorem changes_convert (hw : w.QuietConversions) {x y : w.Val} {s s' : w.State}
    (h : convert x s = (.ok y, s')) : ∃ f, Changes [] s s' [(f, [x])] ∧ Converts f x y := by
  obtain ⟨f, hf, hcall, hcalls⟩ := convert_eq_ok h
  refine ⟨f, ⟨hcalls, fun name _ => ?_, fun hv => hw.members_kept hf hcall hv⟩, _, _, hf, hcall⟩
  rw [hw.vars_kept hf hcall]

namespace Pattern

/-! ### Parts at their paths -/

mutual

/-- Later assignments to other variables leave what the pattern holds. -/
theorem Holds.kept {names : List String} {s s' : w.State} {later : Calls w}
    (hc : Changes names s s' later) : ∀ (p : Pattern) {x : w.Val} {cs : Calls w},
    (∀ name ∈ p.leaves, name ∉ names) → p.Holds s x cs → p.Holds s' x cs
  | leaf name, x, cs, hdisj, h => ⟨(hc.vars name (hdisj name List.mem_cons_self)).trans h.1, h.2⟩
  | elided, x, cs, _, h => h
  | level true parts, x, cs, hdisj, h => by
    obtain ⟨f, y, rest, hcs, hconv, h⟩ := h
    exact ⟨f, y, rest, hcs, hconv, HoldsAll.kept hc parts hdisj h⟩
  | level false parts, x, cs, hdisj, h => HoldsAll.kept hc parts hdisj h
termination_by structural p => p

theorem HoldsAll.kept {names : List String} {s s' : w.State} {later : Calls w}
    (hc : Changes names s s' later) : ∀ (ps : List (SubIndex × Pattern)) {x : w.Val} {cs : Calls w},
    (∀ name ∈ leavesAll ps, name ∉ names) → HoldsAll s ps x cs → HoldsAll s' ps x cs
  | [], x, cs, _, h => h
  | (index, p) :: rest, x, cs, hdisj, h => by
    obtain ⟨cs₁, cs₂, hcs, hfirst, hrest⟩ := h
    refine ⟨cs₁, cs₂, hcs, ?_,
      HoldsAll.kept hc rest (fun name hm => hdisj name (List.mem_append_right _ hm)) hrest⟩
    split at hfirst
    next helided => rwa [if_pos helided]
    next helided =>
      rw [if_neg helided]
      obtain ⟨y, hy, hp⟩ := hfirst
      exact ⟨y, hc.members hy,
        Holds.kept hc p (fun name hm => hdisj name (List.mem_append_left _ hm)) hp⟩
termination_by structural ps => ps

end

mutual

/-- What is assigned is held in the end, where no variable is assigned twice. -/
theorem assign_holds (hw : w.QuietConversions) : ∀ (p : Pattern) {x : w.Val} {s s' : w.State},
    p.leaves.Nodup → p.assign x s = (.ok (), s') →
      ∃ cs, Changes p.leaves s s' cs ∧ p.Holds s' x cs
  | leaf name, x, s, s', _, h => by
    obtain ⟨hc, hx⟩ := changes_writeVar hw h
    exact ⟨[], hc, hx, rfl⟩
  | elided, x, s, s', _, h => by
    cases h
    exact ⟨[], .refl s, rfl⟩
  | level true parts, x, s, s', hnodup, h => by
    obtain ⟨y, s₁, hconv, hparts⟩ := Run.bind_eq_ok.1 h
    obtain ⟨f, hc₁, hf⟩ := changes_convert hw hconv
    obtain ⟨cs, hc₂, hholds⟩ := assignAll_holds hw parts hnodup hparts
    exact ⟨(f, [x]) :: cs, hc₁.trans hc₂, f, y, cs, rfl, hf, hholds⟩
  | level false parts, x, s, s', hnodup, h => assignAll_holds hw parts hnodup h
termination_by structural p => p

theorem assignAll_holds (hw : w.QuietConversions) :
    ∀ (ps : List (SubIndex × Pattern)) {x : w.Val} {s s' : w.State},
    (leavesAll ps).Nodup → assignAll ps x s = (.ok (), s') →
      ∃ cs, Changes (leavesAll ps) s s' cs ∧ HoldsAll s' ps x cs
  | [], x, s, s', _, h => by
    cases h
    exact ⟨[], .refl s, rfl⟩
  | (index, p) :: rest, x, s, s', hnodup, h => by
    obtain ⟨hp, hrest, hdisj⟩ := List.nodup_append.1 hnodup
    obtain ⟨⟨⟩, s₁, h₁, h₂⟩ := Run.bind_eq_ok.1 h
    obtain ⟨cs₂, hc₂, hholds₂⟩ := assignAll_holds hw rest hrest h₂
    cases helided : p.isElided with
    | true =>
      rw [helided, if_pos rfl] at h₁
      cases h₁
      have hleaves : p.leaves = [] := by cases p <;> first | rfl | cases helided
      refine ⟨cs₂, ?_, [], cs₂, rfl, by rw [if_pos helided], hholds₂⟩
      rw [leavesAll, hleaves]
      exact hc₂
    | false =>
      rw [helided, if_neg Bool.false_ne_true] at h₁
      obtain ⟨y, s₂, hread, hassign⟩ := Run.bind_eq_ok.1 h₁
      obtain rfl : s = s₂ := congrArg (·.2) hread
      have hy : w.member x index.key s.toStore = .ok y := congrArg (·.1) hread
      obtain ⟨cs₁, hc₁, hholds₁⟩ := assign_holds hw p hp hassign
      refine ⟨cs₁ ++ cs₂, hc₁.trans hc₂, cs₁, cs₂, rfl, ?_, hholds₂⟩
      rw [if_neg (by simp [helided])]
      exact ⟨y, hc₂.members (hc₁.members hy),
        Holds.kept hc₂ p (fun name hm hm' => hdisj name hm name hm' rfl) hholds₁⟩
termination_by structural ps => ps

end

end Pattern

/-! ### Assignments -/

theorem isPattern_of_resolve {l : Source.Expr} {ty : SubType} {p : Pattern}
    (h : resolve pool l ty = some p) : l.isPattern := by
  cases l <;> first | rfl | cases h

/-- An assignment to a pattern that resolves is lowered as its value is.  Its code
evaluates that value once, then assigns the variables of the pattern, each once and
from left to right, and gives the value. -/
theorem destructuring_code {info : Source.NodeInfo} {op : Source.BinaryOp} {l r : Source.Expr}
    {p : Pattern} {n : Nat} {code : Expr} {e₁ : Effects} (hop : op.isAssignment)
    (hp : resolve pool l (.single r.ty) = some p) (hr : value pool r n = (.ok code, e₁)) :
    ∃ k e rest, value pool (.binary info op l r) n = (.ok (.temp k), e) ∧
      e.stmts = e₁.stmts ++ .declareTemp k code :: rest ∧ assignedNames rest = p.leaves ∧
      ∀ (w : World) (τ : Temps w), runValue e.stmts (.temp k) τ =
        (runValue e₁.stmts code τ >>= fun x => p.assign x >>= fun _ => pure x) := by
  have hk : n + e₁.temps.length < n + e₁.temps.length + 1 := Nat.lt_succ_self _
  obtain ⟨e₂, hrest, hnames, hruns⟩ := destructure_runs l hp hk
  have hstmts : (e₁ ++ (⟨[.declareTemp (n + e₁.temps.length) code], [], [⟨"value", info.span⟩],
      .empty⟩ ++ (e₂ ++ .none))).stmts =
        e₁.stmts ++ .declareTemp (n + e₁.temps.length) code :: e₂.stmts := by
    simp
  refine ⟨n + e₁.temps.length, _, e₂.stmts, ?_, hstmts, hnames, fun w τ => ?_⟩
  · rw [value_pattern pool info l r op hop (isPattern_of_resolve hp)]
    refine bind_eq_ok.2 ⟨code, e₁, _, hr, bind_eq_ok.2 ⟨.temp _, _, _, pushTemp_apply .., ?_, rfl⟩,
      rfl⟩
    exact bind_eq_ok.2 ⟨(), e₂, .none, hrest, rfl, rfl⟩
  · have hparts (τ₁ : Temps w) (x : w.Val) :
        (execAll e₂.stmts (τ₁.set (n + e₁.temps.length) x) >>= fun τ₂ =>
          pure (τ₂ (n + e₁.temps.length))) = (p.assign x >>= fun _ => pure x) := by
      have h := hruns w (τ₁.set (n + e₁.temps.length) x)
      simp only [Temps.set_self] at h
      refine (h.bind fun τ₂ _ hτ₂ => ?_).eq
      exact .pure ((hτ₂ _ hk).trans (Temps.set_self ..))
    rw [hstmts]
    simp only [runValue, Target.execAll_append, execAll, Target.exec_declareTemp, eval,
      Run.bind_assoc, Run.pure_bind, hparts]

/-- An assignment of a value to a pattern of distinct variables evaluates the value
once, and then assigns the variables, each once and from left to right.  Where
conversions are quiet, each variable then holds the part of the value at its path,
read from one conversion for each level that is not indexed as it is; and nothing
else has changed. -/
theorem destructuring_assigns {info : Source.NodeInfo} {op : Source.BinaryOp}
    {l r : Source.Expr} {p : Pattern} {n : Nat} {code : Expr} {e₁ : Effects}
    (hop : op.isAssignment) (hp : resolve pool l (.single r.ty) = some p)
    (hleaves : p.leaves.Nodup) (hr : value pool r n = (.ok code, e₁)) :
    ∃ k e rest, value pool (.binary info op l r) n = (.ok (.temp k), e) ∧
      expressionStatement pool (.binary info op l r) n = (.ok e.stmts, e.withoutStmts) ∧
      e.stmts = e₁.stmts ++ .declareTemp k code :: rest ∧ assignedNames rest = p.leaves ∧
      ∀ (w : World) (τ : Temps w),
        runValue e.stmts (.temp k) τ =
          (runValue e₁.stmts code τ >>= fun x => p.assign x >>= fun _ => pure x) ∧
        (w.QuietConversions → ∀ s x s', runValue e.stmts (.temp k) τ s = (.ok x, s') →
          ∃ s₁ cs, runValue e₁.stmts code τ s = (.ok x, s₁) ∧ Changes p.leaves s₁ s' cs ∧
            p.Holds s' x cs) := by
  obtain ⟨k, e, rest, hvalue, hstmts, hnames, hrun⟩ := destructuring_code hop hp hr
  refine ⟨k, e, rest, hvalue, ?_, hstmts, hnames, fun w τ => ⟨hrun w τ, fun hw s x s' h => ?_⟩⟩
  · have hbody : statementBody pool (.binary info op l r) n = (.ok none, e) := by
      rw [statementBody_binary pool info l r op (.inl (isPattern_of_resolve hp))]
      exact map_eq_ok.2 ⟨.temp k, hvalue, rfl⟩
    refine bind_eq_ok.2 ⟨_, _, .none, capture_of_ok hbody, ?_, (Effects.append_none _).symm⟩
    simp [Lower.pure_apply]
  · rw [hrun w τ] at h
    obtain ⟨y, s₁, hy, h⟩ := Run.bind_eq_ok.1 h
    obtain ⟨⟨⟩, s₂, hassign, h⟩ := Run.bind_eq_ok.1 h
    cases h
    obtain ⟨cs, hchanges, hholds⟩ := Pattern.assign_holds hw p hleaves hassign
    exact ⟨s₁, cs, hy, hchanges, hholds⟩

/-- A world of arrays, of which a conversion makes a copy. -/
def copyingWorld : World where
  Ref := Nat
  Heap := Nat × (Nat → Number → Value Nat)
  Error := Unit
  call _ args s :=
    match args with
    | [.ref o] =>
      (.ok (.ref s.heap.1), { s with
        heap := (s.heap.1 + 1, fun i => if i = s.heap.1 then s.heap.2 o else s.heap.2 i) })
    | _ => (.error (), s)
  member object key s :=
    match object, key with
    | .ref o, .number n => if o < s.heap.1 then .ok (s.heap.2 o n) else .error ()
    | .ref o, .string _ => .ok (.ref o)
    | _, _ => .error ()
  setMember _ _ _ s := (.error (), s)
  binary _ _ _ s := (.error (), s)
  unary _ _ s := (.error (), s)
  table _ s := (.error (), s)
  pack _ s := (.error (), s)
  stuck := ()

theorem quietConversions_copyingWorld : copyingWorld.QuietConversions where
  member_heap {object key s s'} h := by
    simp only [copyingWorld, h]
  vars_kept {f x y s s'} _ h := by
    simp only [copyingWorld] at h
    split at h <;> cases h
    rfl
  members_kept {f x y s s'} _ h {object key v} hv := by
    simp only [copyingWorld] at h
    split at h <;> cases h
    cases object with
    | ref o =>
      cases key with
      | number n =>
        simp only [copyingWorld] at hv ⊢
        split at hv <;> cases hv
        next hlt => simp [Nat.lt_succ_of_lt hlt, Nat.ne_of_lt hlt]
      | _ => exact hv
    | _ => exact hv

/-- A pool with the arrays of sets of truth values. -/
def arrayOfSets : TypePool :=
  ((TypePool.fresh.instanceOf .set "Set" [.boolean]).2.array ⟨7⟩).2

/-- `[a, [b]] = v` -/
def nestedAssignment : Source.Expr :=
  let info : Source.NodeInfo := ⟨.dummy, .unknown⟩
  .binary info .assign (.array info [.ident info "a", .array info [.ident info "b"]])
    (.ident ⟨.dummy, ⟨8⟩⟩ "v")

/-- The inner level is converted. -/
def nestedPattern : Pattern :=
  .level false [(.position 0, .leaf "a"), (.position 1, .level true [(.position 0, .leaf "b")])]

/-- `v` holds a set everywhere, which holds a truth value. -/
def beforeNested : copyingWorld.State :=
  ⟨⟨fun name => if name = "v" then .ref (1 : Nat) else .ref (0 : Nat),
    (3, fun o _ => if o = 1 then .ref (2 : Nat) else .bool true)⟩, []⟩

/-- `v` is bound and its parts are assigned from there. -/
def nestedCode : List Stmt := (value arrayOfSets nestedAssignment 0).2.stmts

/-- The set is assigned to `a`; it is converted once, and `b` holds what is first in it. -/
theorem destructuring_assigns_nested :
    ∃ s', runValue nestedCode (.temp 0) (fun _ => .nil) beforeNested =
        (.ok (.ref (1 : Nat)), s') ∧
      s'.calls = [(.ref (0 : Nat), [.ref (2 : Nat)])] ∧
      nestedPattern.Holds s' (.ref (1 : Nat)) s'.calls := by
  have hresolve : resolve arrayOfSets (.array ⟨.dummy, .unknown⟩ [.ident ⟨.dummy, .unknown⟩ "a",
      .array ⟨.dummy, .unknown⟩ [.ident ⟨.dummy, .unknown⟩ "b"]])
        (.single (Source.Expr.ident ⟨.dummy, ⟨8⟩⟩ "v").ty) = some nestedPattern := rfl
  have hvariable : value arrayOfSets (.ident ⟨.dummy, ⟨8⟩⟩ "v") 0 = (.ok (.ident "v"), .none) :=
    rfl
  obtain ⟨k, e, rest, hvalue, -, hstmts, hnames, hrun⟩ :=
    @destructuring_assigns arrayOfSets ⟨.dummy, .unknown⟩ .assign _ _ _ _ _ _ rfl hresolve
      (by decide) hvariable
  have hresult : (.ok (.temp 0) : Except Stop Expr) = .ok (.temp k) := congrArg Prod.fst hvalue
  cases hresult
  have hcode : e.stmts = nestedCode := (congrArg (·.2.stmts) hvalue).symm
  rw [hcode] at hrun
  have hfinal : runValue nestedCode (.temp 0) (fun _ => .nil) beforeNested =
      (.ok (.ref (1 : Nat)), (runValue nestedCode (.temp 0) (fun _ => .nil) beforeNested).2) := rfl
  obtain ⟨s₁, cs, hs₁, hchanges, hholds⟩ :=
    (hrun copyingWorld fun _ => .nil).2 quietConversions_copyingWorld _ _ _ hfinal
  cases hs₁
  refine ⟨_, hfinal, rfl, ?_⟩
  rw [hchanges.calls]
  exact hholds

end Lower

end ScriptLowering
