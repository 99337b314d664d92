import ScriptLowering.Interner
import ScriptLowering.Lowering.Call.Rule
import ScriptLowering.Proofs.Stores.Run
import ScriptLowering.Proofs.Walk.Lowerer
import ScriptLowering.Source.File

/-!
# Names of a walk

A file is walked with the interner of its names.  A name stands in the file as
its text, so a name that the interner cannot read is a text that it does not
hold.  Lowering has names of its own: most are entered before it begins, those of
the bit operators where it meets one.

    t.intern u = ok (n, t'), t'.takes s → t.takes s                        (takes_of_intern)
    f resolved → its names are entered, and the file is ready then           (Resolved.ready)
-/

namespace ScriptLowering

open Source (ArithmeticOp)

/-- A file and the interner of its names. -/
structure NamedFile extends Source.File where
  names : Interner

namespace Interner

/-- The shard that a text belongs to. -/
def home (t : Interner) (s : String) : Shard := t.shards.get (t.shardFor s)

/-- Whether the text is interned. -/
def knows (t : Interner) (s : String) : Bool := ((t.home s).places.lookup s).isSome

/-- Whether the text has a name or can be given one. -/
def takes (t : Interner) (s : String) : Bool := (t.intern s).isOk

/-- Enters texts in order. -/
def enterAll (t : Interner) (ss : List String) : Except Panic Interner :=
  match runAll intern t ss with
  | .ok (_, t) => .ok t
  | .error _ => .error .text

end Interner

/-- The names that a lowerer enters before it begins. -/
def loweringNames : List String :=
  ["self", "TS", "string", "math", "fmod", "bit32", "tostring", "tonumber", "unpack", "constructor",
    "__index", "instanceof", "from", "array", "string", "map", "set", "Object", "runtime", "then",
    "andThen", "for", "getFor", "Promise", "SymbolConstructor", "ObjectConstructor"] ++
  mathClasses ++ ["exp", "result", "value", "original", "object", "index"]

/-- The library member that a bit operator becomes. -/
def bitMember? : ArithmeticOp → Option String
  | .bitAnd => some "band"
  | .bitOr => some "bor"
  | .bitXor => some "bxor"
  | .shl => some "lshift"
  | .shr => some "arshift"
  | .ushr => some "rshift"
  | .add | .sub | .mul | .div | .mod | .pow => none

/-- The members that bit operators become, with that of the negation. -/
def bitMembers : List String := ["band", "bor", "bxor", "lshift", "arshift", "rshift", "bnot"]

namespace NamedFile

/-- The interner reads the names of called members and has room for those of lowering. -/
structure Resolved (f : NamedFile) : Prop where
  members ⦃e : ExprId⦄ ⦃n : Source.Node⦄ (hn : f.arena.node? e = some n) {object : ExprId}
    {member : String} (hk : n.kind = .property object member) : f.names.knows member
  room : ∃ ns t, runAll Interner.intern f.names (loweringNames ++ bitMembers) = .ok (ns, t)

/-- The same once the lowerer has entered its names. -/
structure Ready (f : NamedFile) : Prop where
  members ⦃e : ExprId⦄ ⦃n : Source.Node⦄ (hn : f.arena.node? e = some n) {object : ExprId}
    {member : String} (hk : n.kind = .property object member) : f.names.knows member
  operators : ∀ m ∈ bitMembers, f.names.takes m

end NamedFile

namespace Walk

/-! ## Algorithm -/

section

variable (f : NamedFile)

/-- Looks up the text of a name. -/
def readName (s : String) : Walk Unit := if f.names.knows s then pure () else panic .name

/-- Makes sure that there is room for a name of lowering; the interner is kept as it is. -/
def enterName (s : String) : Walk Unit := if f.names.takes s then pure () else panic .text

end

end Walk

/-! ## Lemmas -/

namespace Interner

variable {t t' : Interner} {s u : String} {n : TextName}

theorem takes_of_eq_ok {r : TextName × Interner} (h : t.intern s = .ok r) : t.takes s := by
  rw [takes, h]
  rfl

/-- A text is refused only if it is new and its shard is full. -/
theorem takes_iff : t.takes s ↔ t.knows s ∨ (t.home s).texts.size < shardCapacity := by
  unfold takes intern
  simp only
  split
  next h =>
    have hknows : t.knows s := congrArg Option.isSome h
    exact iff_of_true rfl (.inl hknows)
  next h =>
    have hnew : ¬t.knows s := ne_true_of_eq_false (congrArg Option.isSome h)
    split
    next hroom => exact iff_of_true rfl (.inr hroom)
    next hfull => exact iff_of_false Bool.false_ne_true fun h => h.elim hnew hfull

/-- Interning leaves the shard of a text as it is, or adds one more text to it. -/
theorem home_intern (h : t.intern u = .ok (n, t')) (s : String) :
    t'.home s = t.home s ∨ (t.home s).texts.size < shardCapacity ∧
      ∃ place, (t'.home s).places = (u, place) :: (t.home s).places := by
  rcases intern_eq_ok h with ⟨_, -, -, rfl⟩ | ⟨hnew, hroom, -, rfl⟩
  · exact .inl rfl
  · have added {i j : Fin shardCount} (d : Shard) :
        (t.shards.set i d)[j] = if i = j then d else t.shards[j] := by
      rw [Fin.getElem_fin, Vector.getElem_set]
      exact ite_congr (by rw [Fin.ext_iff]) (fun _ => rfl) fun _ => rfl
    have hhome := added (i := t.shardFor u) (j := t.shardFor s) (t.home u |>.add u hnew hroom)
    by_cases hsame : t.shardFor u = t.shardFor s
    · have heq : t.home u = t.home s := congrArg (t.shards[·]) hsame
      rw [if_pos hsame] at hhome
      refine .inr ⟨heq ▸ hroom, (t.home u).texts.size, (congrArg Shard.places hhome).trans ?_⟩
      rw [← heq]
      rfl
    · rw [if_neg hsame] at hhome
      exact .inl hhome

theorem knows_intern (h : t.intern u = .ok (n, t')) (hs : t.knows s) : t'.knows s := by
  unfold knows at hs ⊢
  obtain heq | ⟨-, place, heq⟩ := home_intern h s <;> rw [heq]
  · exact hs
  · rw [List.lookup_cons]
    split
    · rfl
    · exact hs

/-- A text that can be entered after another could be entered before it. -/
theorem takes_of_intern (h : t.intern u = .ok (n, t')) (hs : t'.takes s) : t.takes s := by
  rw [takes_iff] at hs ⊢
  obtain heq | ⟨hroom, -⟩ := home_intern h s
  · rwa [knows, heq] at hs
  · exact .inr hroom

variable {us : List String} {ns : List TextName}

theorem knows_runAll (h : runAll intern t us = .ok (ns, t')) (hs : t.knows s) : t'.knows s :=
  runAll_keeps (P := fun t _ => t.knows s) (fun hs h => knows_intern h hs) [] hs h

/-- Each text of a run could be entered at its begin. -/
theorem takes_of_runAll (h : runAll intern t us = .ok (ns, t')) (hs : s ∈ us) : t.takes s := by
  induction us generalizing t ns with
  | nil => cases hs
  | cons u us ih =>
    obtain ⟨n, t₁, ns₁, hn, hns, -⟩ := runAll_cons_eq_ok h
    cases hs with
    | head => exact takes_of_eq_ok hn
    | tail _ hs => exact takes_of_intern hn (ih hns hs)

end Interner

namespace NamedFile

variable {f : NamedFile}

/-- With room for all its names, a lowerer enters those it begins with, and is ready. -/
theorem Resolved.ready (h : f.Resolved) :
    ∃ names, f.names.enterAll loweringNames = .ok names ∧ Ready { f with names } := by
  obtain ⟨ns, t, hrun⟩ := h.room
  obtain ⟨ns₁, names, ns₂, hfirst, hrest, -⟩ := runAll_append_eq_ok hrun
  refine ⟨names, ?_, fun e n hn object member hk => ?_, fun m hm => ?_⟩
  · rw [Interner.enterAll, hfirst]
  · exact Interner.knows_runAll hfirst (h.members hn hk)
  · exact Interner.takes_of_runAll hrest hm

end NamedFile

namespace Walk

variable {f : NamedFile}

theorem readName_eq {s : String} (h : f.names.knows s) : readName f s = pure () := if_pos h

theorem enterName_eq {s : String} (h : f.names.takes s) : enterName f s = pure () := if_pos h

theorem mem_bitMembers {op : ArithmeticOp} {m : String} (h : bitMember? op = some m) :
    m ∈ bitMembers := by
  cases op <;> cases h <;> decide

end Walk

end ScriptLowering
