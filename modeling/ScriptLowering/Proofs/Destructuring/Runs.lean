import ScriptLowering.Proofs.Destructuring.Resolved
import ScriptLowering.Proofs.Indexing.Patterns
import ScriptLowering.Proofs.Preservation.Closed
import ScriptLowering.Proofs.Preservation.Expressions

/-!
# Runs of destructuring code

A pattern that resolves is lowered, and its code does what the pattern assigns.
Each level has a temporary of its own, allocated after those of the levels around
it, so the code leaves these as they are.

    x.RunsAs n id m names: from n on, x has code that does m to temporary id,
      leaves the temporaries below n and assigns the variables names
    resolve pool e ty = some p → destructure e runs as p.assign                (destructure_runs)
-/

namespace ScriptLowering.Lower

open Run (Agree)
open Target (Expr Stmt Temps eval exec execAll)

variable {w : World} {pool : TypePool}

/-! ## Algorithm -/

/-- The variables that the statements assign, in order. -/
def assignedNames (ss : List Stmt) : List String :=
  ss.filterMap fun
    | .assign (.ident name) _ => some name
    | _ => none

/-- From `n` on, the action has code that does `m` to the value of the temporary and
leaves the temporaries below `n`. -/
def RunsAs (x : Lower Unit) (n id : Nat) (m : ∀ w : World, w.Val → w.Run Unit)
    (names : List String) : Prop :=
  ∃ e, x n = (.ok (), e) ∧ assignedNames e.stmts = names ∧
    ∀ (w : World) (τ : Temps w),
      Agree (fun τ' _ => ∀ i < n, τ' i = τ i) (execAll e.stmts τ) (m w (τ id))

/-! ## Lemmas -/

@[simp] theorem assignedNames_append (ss tt : List Stmt) :
    assignedNames (ss ++ tt) = assignedNames ss ++ assignedNames tt := List.filterMap_append

theorem eval_convert (τ : Temps w) (id : Nat) :
    eval τ (.call (helperMember .array "from") [.temp id]) = convert (τ id) := by
  simp only [helperMember, convert, eval, Target.evalList, Run.bind_assoc, Run.pure_bind]
  rfl

theorem eval_slot_position (τ : Temps w) (id i : Nat) :
    eval τ (.index (.temp id) (oneBased i)) =
      Run.readMember (τ id) (SubIndex.position i).key := rfl

theorem eval_slot_name (τ : Temps w) (id : Nat) (name : String) :
    eval τ (.property (.temp id) name) = Run.readMember (τ id) (SubIndex.name name).key := rfl

namespace RunsAs

variable {n id : Nat} {m m' : ∀ w : World, w.Val → w.Run Unit} {names names' : List String}

/-- Nothing is done. -/
theorem none : RunsAs (pure ()) n id (fun _ _ => pure ()) [] :=
  ⟨.none, rfl, rfl, fun _ _ => .pure fun _ _ => rfl⟩

/-- A variable is assigned what is read from the temporary. -/
theorem assigned {name : String} {v : Expr} {read : ∀ w : World, w.Val → w.Run w.Val}
    (hread : ∀ (w : World) (τ : Temps w), eval τ v = read w (τ id)) :
    RunsAs (emit (.assign (.ident name) v)) n id (fun w x => read w x >>= Run.writeVar name)
      [name] := by
  refine ⟨_, rfl, rfl, fun w τ => ?_⟩
  have hcode : execAll [.assign (.ident name) v] τ =
      (read w (τ id) >>= fun x => Run.writeVar name x >>= fun _ => pure τ) := by
    rw [Target.execAll_single, Target.exec_assign_ident, hread w τ]
  have hwrite (x : w.Val) : Agree (fun τ' _ => ∀ i < n, τ' i = τ i)
      (Run.writeVar name x >>= fun _ => pure τ) (Run.writeVar name x) :=
    fun _ => .ok fun _ _ => rfl
  exact hcode ▸ Agree.after hwrite

theorem seq {x y : Lower Unit} (hid : id < n) (hx : RunsAs x n id m names)
    (hy : ∀ n' ≥ n, RunsAs y n' id m' names') :
    RunsAs (x >>= fun _ => y) n id (fun w v => m w v >>= fun _ => m' w v) (names ++ names') := by
  obtain ⟨e₁, h₁, hnames₁, hrun₁⟩ := hx
  obtain ⟨e₂, h₂, hnames₂, hrun₂⟩ := hy (n + e₁.temps.length) (Nat.le_add_right ..)
  refine ⟨e₁ ++ e₂, bind_eq_ok.2 ⟨(), e₁, e₂, h₁, h₂, rfl⟩, by simp [hnames₁, hnames₂],
    fun w τ => ?_⟩
  rw [Effects.stmts_append, Target.execAll_append]
  refine (hrun₁ w τ).bind fun τ₁ _ hτ₁ => ?_
  rw [← hτ₁ id hid]
  refine (hrun₂ w τ₁).imp fun τ₂ _ hτ₂ i hi => ?_
  rw [hτ₂ i (Nat.lt_of_lt_of_le hi (Nat.le_add_right ..)), hτ₁ i hi]

/-- What is read is bound to a fresh temporary, and dealt with from there. -/
theorem bound {hint : String} {span : Span} {v : Expr} {f : Expr → Lower Unit}
    {read : ∀ w : World, w.Val → w.Run w.Val}
    (hread : ∀ (w : World) (τ : Temps w), eval τ v = read w (τ id))
    (hf : RunsAs (f (.temp n)) (n + 1) n m names) :
    RunsAs (pushTemp hint span v >>= f) n id (fun w x => read w x >>= m w) names := by
  obtain ⟨e, h, hnames, hrun⟩ := hf
  refine ⟨_, bind_eq_ok.2 ⟨.temp n, _, e, pushTemp_apply hint span v n, h, rfl⟩, hnames,
    fun w τ => ?_⟩
  have hcode : execAll (.declareTemp n v :: e.stmts) τ =
      (read w (τ id) >>= fun x => execAll e.stmts (τ.set n x)) := by
    rw [execAll, Target.exec_declareTemp, hread w τ, Run.bind_assoc]
    rfl
  have hfresh (x : w.Val) : Agree (fun τ' _ => ∀ i < n, τ' i = τ i)
      (execAll e.stmts (τ.set n x)) (m w x) := by
    have hx := hrun w (τ.set n x)
    rw [Temps.set_self] at hx
    refine hx.imp fun τ' _ hτ' i hi => ?_
    rw [hτ' i (Nat.lt_succ_of_lt hi), Temps.set_of_ne τ (Nat.ne_of_lt hi)]
  exact hcode ▸ Agree.after hfresh

/-- The use of a helper is noted. -/
theorem after_useHelper {h : Helper} {x : Lower Unit} (hx : RunsAs x n id m names) :
    RunsAs (useHelper h >>= fun _ => x) n id m names := by
  obtain ⟨e, hok, hnames, hrun⟩ := hx
  exact ⟨_, bind_eq_ok.2 ⟨(), _, e, rfl, hok, rfl⟩, hnames, hrun⟩

end RunsAs

/-! ### Parts and levels -/

section

variable {n id : Nat}

/-- A level is read from the temporary, or from one that the conversion is bound to. -/
theorem indexableSource_runs {span : Span} {ty : SubType} {f : Expr → Lower Unit}
    {m : ∀ w : World, w.Val → w.Run Unit} {names : List String} (hid : id < n)
    (hf : ∀ n' id', id' < n' → RunsAs (f (.temp id')) n' id' m names) :
    RunsAs (indexableSource pool span ty (.temp id) >>= f) n id
      (fun w x => indexed (!isIndexable pool ty) x >>= m w) names := by
  unfold indexableSource
  cases isIndexable pool ty with
  | true => exact hf n id hid
  | false =>
    simp only [Bool.false_eq_true, if_false, bind_assoc]
    exact .after_useHelper (.bound (fun w τ => eval_convert τ id) (hf _ n (Nat.lt_succ_self n)))

/-- A part is taken from its slot, which reads what the step reads. -/
theorem assignPart_runs {part : Source.Expr} {nested : Expr → SubType → Lower Unit}
    {resolved : SubType → Option Pattern} {slot : Expr} {ty : SubType} {index : SubIndex}
    {p : Pattern} (h : resolvePart pool part resolved ty index = some p)
    (hslot : ∀ (w : World) (τ : Temps w), eval τ slot = Run.readMember (τ id) index.key)
    (hnested : ∀ partTy, resolved partTy = some p → p.isElided = false ∧
      RunsAs (nested (.temp n) partTy) (n + 1) n (fun _ => p.assign) p.leaves) :
    RunsAs (assignPart pool part nested (asPlaceExpr (reference pool part)) slot ty index) n id
      (fun _ x => if p.isElided then pure () else Run.readMember x index.key >>= p.assign)
      p.leaves := by
  rcases resolvePart_cases h with ⟨hpart, partTy, hty, hp⟩ | ⟨info, rfl, rfl⟩ |
    ⟨hpart, name, hname, rfl⟩
  · obtain ⟨helided, hruns⟩ := hnested partTy hp
    have hcode : assignPart pool part nested (asPlaceExpr (reference pool part)) slot ty index =
        (pushTemp "value" part.span slot >>= fun source => nested source partTy) := by
      unfold assignPart
      rw [if_pos hpart, hty]
      rfl
    rw [hcode]
    simp only [helided, Bool.false_eq_true, if_false]
    exact .bound hslot hruns
  · exact .none
  · obtain ⟨r, hr, hplace⟩ := reference_variable pool hname
    have hcode : assignPart pool part nested (asPlaceExpr (reference pool part)) slot ty index =
        emit (.assign (.ident name) slot) := by
      have htarget : asPlaceExpr (reference pool part) = pure (.ident name) := by
        rw [asPlaceExpr, hr, map_pure, hplace]
        rfl
      unfold assignPart
      rw [if_neg (Bool.eq_false_iff.1 hpart), htarget]
      cases part with
      | undefined info => cases hname
      | _ => rfl
    rw [hcode]
    exact .assigned hslot

end

/-! ### Patterns -/

mutual

/-- The code of a pattern assigns the value of the temporary to it. -/
theorem destructure_runs : ∀ (e : Source.Expr) {ty : SubType} {p : Pattern},
    resolve pool e ty = some p → ∀ {n id : Nat}, id < n →
      RunsAs (destructure pool e (.temp id) ty) n id (fun _ => p.assign) p.leaves
  | .array info es, ty, p, h, n, id, hid => by
    obtain ⟨parts, hparts, rfl⟩ := Option.map_eq_some_iff.1 h
    exact indexableSource_runs hid fun n' id' hid' => assignElements_runs es hparts hid'
  | .object info ps, ty, p, h, n, id, hid => by
    obtain ⟨parts, hparts, rfl⟩ := Option.map_eq_some_iff.1 h
    exact assignProperties_runs ps hparts hid
termination_by structural e => e

theorem assignElements_runs : ∀ (es : List Source.Expr) {i : Nat} {ty : SubType}
    {parts : List (SubIndex × Pattern)}, resolveElements pool es i ty = some parts →
      ∀ {n id : Nat}, id < n →
        RunsAs (assignElements pool es i (.temp id) ty) n id (fun _ => Pattern.assignAll parts)
          (Pattern.leavesAll parts)
  | [], i, ty, parts, h, n, id, hid => by
    cases h
    exact .none
  | e :: rest, i, ty, parts, h, n, id, hid => by
    obtain ⟨p, hp, h⟩ := Option.bind_eq_some_iff.1 h
    obtain ⟨ps, hps, h⟩ := Option.bind_eq_some_iff.1 h
    cases h
    refine RunsAs.seq hid (assignPart_runs hp (fun _ τ => eval_slot_position τ id i) fun partTy hpart => ?_)
      fun n' hn => assignElements_runs rest hps (Nat.lt_of_lt_of_le hid hn)
    exact ⟨not_isElided_of_resolve hpart, destructure_runs e hpart (Nat.lt_succ_self n)⟩
termination_by structural es => es

theorem assignProperties_runs : ∀ (ps : List (String × Source.Expr)) {ty : SubType}
    {parts : List (SubIndex × Pattern)}, resolveProperties pool ps ty = some parts →
      ∀ {n id : Nat}, id < n →
        RunsAs (assignProperties pool ps (.temp id) ty) n id (fun _ => Pattern.assignAll parts)
          (Pattern.leavesAll parts)
  | [], ty, parts, h, n, id, hid => by
    cases h
    exact .none
  | (name, e) :: rest, ty, parts, h, n, id, hid => by
    obtain ⟨p, hp, h⟩ := Option.bind_eq_some_iff.1 h
    obtain ⟨ps, hps, h⟩ := Option.bind_eq_some_iff.1 h
    cases h
    refine RunsAs.seq hid (assignPart_runs hp (fun _ τ => eval_slot_name τ id name) fun partTy hpart => ?_)
      fun n' hn => assignProperties_runs rest hps (Nat.lt_of_lt_of_le hid hn)
    exact ⟨not_isElided_of_resolve hpart, destructure_runs e hpart (Nat.lt_succ_self n)⟩
termination_by structural ps => ps

end

end ScriptLowering.Lower
