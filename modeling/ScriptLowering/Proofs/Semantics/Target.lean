import ScriptLowering.Proofs.Semantics.World
import ScriptLowering.Proofs.Target.Leaves

/-!
# Runs of target code

Expressions are evaluated left to right and cannot change a temporary; what is
written to is addressed before the value that it gets.

    execAll (ss ++ tt) τ = execAll ss τ >>= execAll tt                    (execAll_append)
    τ and τ' agree on the temporaries in e → eval τ e = eval τ' e          (eval_congr)
    ss does not mention id → ss leaves the value of temporary id            (execAll_frame)
-/

namespace ScriptLowering.Target

variable {w : World}

/-- The values of the temporaries. -/
abbrev Temps (w : World) : Type := Nat → w.Val

/-- What an expression to write to stands for. -/
inductive Location (w : World) where
  | var (name : String)
  | temp (id : Nat)
  | member (object key : w.Val)

/-! ## Algorithm -/

def Temps.set (τ : Temps w) (id : Nat) (v : w.Val) : Temps w := fun i => if i = id then v else τ i

/-- An operator on a value and an operand that it may leave alone. -/
def operate (op : BinaryOp) (l : w.Val) (r : w.Run w.Val) : w.Run w.Val :=
  match op with
  | .and => if l.holds then r else pure l
  | .or => if l.holds then pure l else r
  | op => r >>= Run.binary op l

def operateUnary (op : UnaryOp) (v : w.Val) : w.Run w.Val :=
  match op with
  | .not => pure (.bool (!v.holds))
  | .neg => Run.negate v
  | .len => Run.act (w.unary .len v)

mutual

def eval (τ : Temps w) : Expr → w.Run w.Val
  | .placeholder | .nil => pure .nil
  | .ident name => Run.readVar name
  | .temp id => pure (τ id)
  | .bool b => pure (.bool b)
  | .number n => pure (.number n)
  | .string s => pure (.string s)
  | .binary op a b => eval τ a >>= fun x => operate op x (eval τ b)
  | .unary op a => eval τ a >>= operateUnary op
  | .paren a => eval τ a
  | .property a name => eval τ a >>= fun x => Run.readMember x (.string name)
  | .index a b => do
    let x ← eval τ a
    let k ← eval τ b
    Run.readMember x k
  | .call f args => do
    let g ← eval τ f
    let xs ← evalList τ args
    Run.callValue g xs
  | .method r name args => do
    let x ← eval τ r
    let g ← Run.readMember x (.string name)
    let xs ← evalList τ args
    Run.callValue g (x :: xs)
  | .table fs => evalFields τ fs >>= fun xs => Run.act (w.table xs)
  | .pack c => eval τ c >>= fun x => Run.act (w.pack x)
termination_by structural e => e

def evalList (τ : Temps w) : List Expr → w.Run (List w.Val)
  | [] => pure []
  | e :: es => do
    let x ← eval τ e
    let xs ← evalList τ es
    return x :: xs
termination_by structural es => es

def evalField (τ : Temps w) : Field → w.Run (Option String × w.Val)
  | .positional e => eval τ e >>= fun x => pure (none, x)
  | .named name e => eval τ e >>= fun x => pure (some name, x)
termination_by structural f => f

def evalFields (τ : Temps w) : List Field → w.Run (List (Option String × w.Val))
  | [] => pure []
  | f :: fs => do
    let x ← evalField τ f
    let xs ← evalFields τ fs
    return x :: xs
termination_by structural fs => fs

end

/-- The location that an expression stands for. -/
def locate (τ : Temps w) : Expr → w.Run (Location w)
  | .ident name => pure (.var name)
  | .temp id => pure (.temp id)
  | .property a name => eval τ a >>= fun x => pure (.member x (.string name))
  | .index a b => do
    let x ← eval τ a
    let k ← eval τ b
    return .member x k
  | _ => Run.raise w.stuck

def Location.read (τ : Temps w) : Location w → w.Run w.Val
  | var name => Run.readVar name
  | temp id => pure (τ id)
  | member object key => Run.readMember object key

def Location.write (τ : Temps w) (v : w.Val) : Location w → w.Run (Temps w)
  | var name => Run.writeVar name v >>= fun _ => pure τ
  | temp id => pure (τ.set id v)
  | member object key => Run.writeMember object key v >>= fun _ => pure τ

def Binding.bind (τ : Temps w) (v : w.Val) : Binding → w.Run (Temps w)
  | name x => Run.writeVar x v >>= fun _ => pure τ
  | temp id => pure (τ.set id v)
  | discard => pure τ

mutual

/-- Runs a statement.  No two temporaries have the same id, so a block need not
hide its own. -/
def exec : Stmt → Temps w → w.Run (Temps w)
  | .call e, τ => eval τ e >>= fun _ => pure τ
  | .assign t v, τ => do
    let l ← locate τ t
    let x ← eval τ v
    l.write τ x
  | .compound op t v, τ => do
    let l ← locate τ t
    let old ← l.read τ
    let x ← eval τ v
    let new ← Run.binary (.arithmetic op) old x
    l.write τ new
  | .declare b none, τ => b.bind τ .nil
  | .declare b (some v), τ => eval τ v >>= fun x => b.bind τ x
  | .ifThen c body, τ => eval τ c >>= fun x => if x.holds then execAll body τ else pure τ
termination_by structural s => s

def execAll : List Stmt → Temps w → w.Run (Temps w)
  | [], τ => pure τ
  | s :: ss, τ => exec s τ >>= fun τ' => execAll ss τ'
termination_by structural ss => ss

end

/-! ## Lemmas -/

@[simp] theorem Temps.set_self (τ : Temps w) (id : Nat) (v : w.Val) : τ.set id v id = v :=
  if_pos rfl

theorem Temps.set_of_ne (τ : Temps w) {id i : Nat} (h : i ≠ id) (v : w.Val) :
    τ.set id v i = τ i := if_neg h

/-- Both give the same values to these leaves. -/
def Temps.AgreeOn (τ τ' : Temps w) (ls : List Leaf) : Prop := ∀ i, .temp i ∈ ls → τ i = τ' i

theorem Temps.AgreeOn.left {τ τ' : Temps w} {ls ms : List Leaf} (h : τ.AgreeOn τ' (ls ++ ms)) :
    τ.AgreeOn τ' ls := fun i hi => h i (List.mem_append_left _ hi)

theorem Temps.AgreeOn.right {τ τ' : Temps w} {ls ms : List Leaf} (h : τ.AgreeOn τ' (ls ++ ms)) :
    τ.AgreeOn τ' ms := fun i hi => h i (List.mem_append_right _ hi)

mutual

theorem eval_congr {τ τ' : Temps w} :
    ∀ e : Expr, τ.AgreeOn τ' e.leaves → eval τ e = eval τ' e
  | .placeholder, _ | .nil, _ | .ident _, _ | .bool _, _ | .number _, _ | .string _, _ => rfl
  | .temp id, h => congrArg pure (h id (List.mem_singleton.2 rfl))
  | .binary op a b, h => by
    simp only [eval, eval_congr a h.left, eval_congr b h.right]
  | .index a b, h => by
    simp only [eval, eval_congr a h.left, eval_congr b h.right]
  | .unary _ a, h | .paren a, h | .property a _, h | .pack a, h => by
    simp only [eval, eval_congr a h]
  | .call f args, h => by
    simp only [eval, eval_congr f h.left, evalList_congr args h.right]
  | .method r _ args, h => by
    simp only [eval, eval_congr r h.left, evalList_congr args h.right]
  | .table fs, h => by simp only [eval, evalFields_congr fs h]
termination_by structural e => e

theorem evalList_congr {τ τ' : Temps w} :
    ∀ es : List Expr, τ.AgreeOn τ' (Expr.leavesList es) → evalList τ es = evalList τ' es
  | [], _ => rfl
  | e :: es, h => by simp only [evalList, eval_congr e h.left, evalList_congr es h.right]
termination_by structural es => es

theorem evalField_congr {τ τ' : Temps w} :
    ∀ f : Field, τ.AgreeOn τ' f.leaves → evalField τ f = evalField τ' f
  | .positional e, h | .named _ e, h => by simp only [evalField, eval_congr e h]
termination_by structural f => f

theorem evalFields_congr {τ τ' : Temps w} :
    ∀ fs : List Field, τ.AgreeOn τ' (Field.leavesList fs) → evalFields τ fs = evalFields τ' fs
  | [], _ => rfl
  | f :: fs, h => by simp only [evalFields, evalField_congr f h.left, evalFields_congr fs h.right]
termination_by structural fs => fs

end

theorem execAll_append (ss tt : List Stmt) (τ : Temps w) :
    execAll (ss ++ tt) τ = execAll ss τ >>= fun τ' => execAll tt τ' := by
  induction ss generalizing τ with
  | nil => rfl
  | cons s ss ih => simp only [List.cons_append, execAll, ih, bind_assoc]

theorem execAll_single (s : Stmt) (τ : Temps w) : execAll [s] τ = exec s τ := by
  simp only [execAll, bind_pure]

theorem exec_declareTemp (id : Nat) (e : Expr) (τ : Temps w) :
    exec (.declareTemp id e) τ = eval τ e >>= fun v => pure (τ.set id v) := rfl

theorem exec_assign_ident (name : String) (v : Expr) (τ : Temps w) :
    exec (.assign (.ident name) v) τ =
      eval τ v >>= fun a => Run.writeVar name a >>= fun _ => pure τ := rfl

theorem exec_compound_ident (op : ArithmeticOp) (name : String) (v : Expr) (τ : Temps w) :
    exec (.compound op (.ident name) v) τ = (do
      let old ← Run.readVar name
      let x ← eval τ v
      let new ← Run.binary (.arithmetic op) old x
      Run.writeVar name new
      return τ) := rfl

/-- Reading a location changes nothing. -/
theorem Location.read_state (l : Location w) (τ : Temps w) (s : w.State) :
    (l.read τ s).2 = s := by
  cases l <;> rfl

/-! ### Frames -/

/-- A location that is not the temporary. -/
theorem Location.write_frame {l : Location w} {τ τ' : Temps w} {v : w.Val} {s s' : w.State} {i : Nat}
    (hl : l ≠ .temp i) (h : l.write τ v s = (.ok τ', s')) : τ' i = τ i := by
  cases l with
  | var name => cases h; rfl
  | temp id =>
    cases h
    exact τ.set_of_ne (fun hi => hl (congrArg Location.temp hi.symm)) v
  | member object key =>
    obtain ⟨_, _, -, h⟩ := Run.bind_eq_ok.1 h
    cases h
    rfl

theorem Binding.bind_frame {b : Binding} {τ τ' : Temps w} {v : w.Val} {s s' : w.State} {i : Nat}
    (hb : .temp i ∉ b.leaves) (h : b.bind τ v s = (.ok τ', s')) : τ' i = τ i := by
  cases b with
  | name x => cases h; rfl
  | temp id =>
    cases h
    exact τ.set_of_ne (fun hi => hb (by simp [leaves, hi])) v
  | discard => cases h; rfl

/-- The location of an expression is a temporary that it mentions, or none. -/
theorem locate_ne_temp {t : Expr} {τ : Temps w} {l : Location w} {s s' : w.State} {i : Nat}
    (ht : .temp i ∉ t.leaves) (h : locate τ t s = (.ok l, s')) : l ≠ .temp i := by
  cases t with
  | ident name => cases h; nofun
  | temp id =>
    cases h
    rintro ⟨⟩
    exact ht (by simp [Expr.leaves])
  | property a name =>
    obtain ⟨_, _, -, h⟩ := Run.bind_eq_ok.1 h
    cases h
    nofun
  | index a b =>
    obtain ⟨_, _, -, h⟩ := Run.bind_eq_ok.1 h
    obtain ⟨_, _, -, h⟩ := Run.bind_eq_ok.1 h
    cases h
    nofun
  | _ => cases h

mutual

theorem exec_frame {i : Nat} : ∀ (st : Stmt) {τ τ' : Temps w} {s s' : w.State},
    .temp i ∉ st.leaves → exec st τ s = (.ok τ', s') → τ' i = τ i
  | .call e, τ, τ', s, s', hi, h => by
    obtain ⟨_, _, -, h⟩ := Run.bind_eq_ok.1 h
    cases h
    rfl
  | .assign t v, τ, τ', s, s', hi, h => by
    obtain ⟨l, _, hl, h⟩ := Run.bind_eq_ok.1 h
    obtain ⟨_, _, -, h⟩ := Run.bind_eq_ok.1 h
    exact Location.write_frame (locate_ne_temp (fun hm => hi (List.mem_append_left _ hm)) hl) h
  | .compound op t v, τ, τ', s, s', hi, h => by
    obtain ⟨l, _, hl, h⟩ := Run.bind_eq_ok.1 h
    obtain ⟨_, _, -, h⟩ := Run.bind_eq_ok.1 h
    obtain ⟨_, _, -, h⟩ := Run.bind_eq_ok.1 h
    obtain ⟨_, _, -, h⟩ := Run.bind_eq_ok.1 h
    exact Location.write_frame (locate_ne_temp (fun hm => hi (List.mem_append_left _ hm)) hl) h
  | .declare b none, τ, τ', s, s', hi, h => Binding.bind_frame hi h
  | .declare b (some v), τ, τ', s, s', hi, h => by
    obtain ⟨_, _, -, h⟩ := Run.bind_eq_ok.1 h
    exact Binding.bind_frame (fun hm => hi (List.mem_append_right _ hm)) h
  | .ifThen c body, τ, τ', s, s', hi, h => by
    obtain ⟨x, _, -, h⟩ := Run.bind_eq_ok.1 h
    split at h
    · exact execAll_frame body (fun hm => hi (List.mem_append_right _ hm)) h
    · cases h
      rfl
termination_by structural st => st

/-- Statements leave the temporaries alone that they do not mention. -/
theorem execAll_frame {i : Nat} : ∀ (ss : List Stmt) {τ τ' : Temps w} {s s' : w.State},
    .temp i ∉ Stmt.leavesAll ss → execAll ss τ s = (.ok τ', s') → τ' i = τ i
  | [], τ, τ', s, s', _, h => by
    cases h
    rfl
  | st :: ss, τ, τ', s, s', hi, h => by
    obtain ⟨τ₁, _, h₁, h₂⟩ := Run.bind_eq_ok.1 h
    rw [execAll_frame ss (fun hm => hi (List.mem_append_right _ hm)) h₂,
      exec_frame st (fun hm => hi (List.mem_append_left _ hm)) h₁]
termination_by structural ss => ss

end

end ScriptLowering.Target
