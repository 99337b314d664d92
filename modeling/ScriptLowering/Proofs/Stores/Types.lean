import ScriptLowering.Proofs.Types.Unions

/-!
# Runs of the type pool

Each call interns data whose parts the pool holds already, one after the other,
and answers an id that it then holds.  So the calls of a run only ever mention
ids of the pool, and what a pool is after a run follows from what one addition
does to it.

    p.Interns log q → q reads each id of the log as the data beside it         (Interns.read)
    p.Interns log q → what q holds p held, or the log has it                    (Interns.cases)
    the ids of the call held by p → p.Interns (c.interned p) (c.answer p).2     (interns_answer)
-/

namespace ScriptLowering

/-- What a type pool can be called for. -/
inductive PoolCall where
  | intern (d : TypeData)
  | array (element : TypeId)
  | tuple (elements : List TypeId)
  | instanceOf (kind : InstanceKind) (name : String) (args : List TypeId)
  | object (name : Option String) (properties : List (String × TypeId))
  | function (signatures : List Signature)
  | tupleReturn (elements : List TypeId)
  | union (members : List TypeId)

/-- A run of calls, as far as it came. -/
structure PoolRun where
  pool : TypePool
  /-- The ids that the next call may mention: the primitive ones and the answers so far. -/
  known : List TypeId
  /-- All data interned so far, with the ids that it got. -/
  interned : List (TypeData × TypeId)

/-! ## Algorithm -/

def Primitive.id : Primitive → TypeId
  | .any => .any
  | .unknown => .unknown
  | .never => .never
  | .undefined => .undefined
  | .boolean => .boolean
  | .number => .number
  | .string => .string

namespace PoolCall

/-- The ids that the call mentions. -/
def arguments : PoolCall → List TypeId
  | intern d => d.parts
  | array t => [t]
  | tuple ts | instanceOf _ _ ts | tupleReturn ts | union ts => ts
  | object _ properties => properties.map (·.2)
  | function _ => []

def answer (p : TypePool) : PoolCall → TypeId × TypePool
  | intern d => p.intern d
  | array t => p.array t
  | tuple ts => p.tuple ts
  | instanceOf kind name ts => p.instanceOf kind name ts
  | object name properties => p.object name properties
  | function signatures => p.function signatures
  | tupleReturn ts => p.tupleReturn ts
  | union ts => p.union ts

/-- The data that the pool interns for the call, with the ids that it gets. -/
def interned (p : TypePool) : PoolCall → List (TypeData × TypeId)
  | intern d => [(d, (p.intern d).1)]
  | array t => [(.array t, (p.array t).1)]
  | tuple ts => [(.tuple ts, (p.tuple ts).1)]
  | instanceOf kind name ts => [(.instanceOf kind name ts, (p.instanceOf kind name ts).1)]
  | object name properties => [(.object name properties, (p.object name properties).1)]
  | function signatures => [(.function signatures, (p.function signatures).1)]
  | tupleReturn ts =>
    [(.tuple ts, (p.tuple ts).1), (.tupleReturn (p.tuple ts).1, (p.tupleReturn ts).1)]
  | union ts =>
    if 2 ≤ (p.flatten ts).length then [(.union (p.flatten ts), (p.union ts).1)] else []

end PoolCall

namespace PoolRun

/-- Before the first call the pool holds the primitive types. -/
def start : PoolRun where
  pool := .fresh
  known := Primitive.all.map Primitive.id
  interned := Primitive.all.map fun q => (.primitive q, q.id)

def call (r : PoolRun) (c : PoolCall) : PoolRun where
  pool := (c.answer r.pool).2
  known := (c.answer r.pool).1 :: r.known
  interned := r.interned ++ c.interned r.pool

def after (r : PoolRun) (calls : List PoolCall) : PoolRun := calls.foldl call r

/-- Each call mentions only ids that are known by then. -/
def Supplied (r : PoolRun) : List PoolCall → Prop
  | [] => True
  | c :: calls => (∀ t ∈ c.arguments, t ∈ r.known) ∧ (r.call c).Supplied calls

instance : (r : PoolRun) → (calls : List PoolCall) → Decidable (r.Supplied calls)
  | _, [] => .isTrue trivial
  | r, c :: calls =>
    have := instDecidableSupplied (r.call c) calls
    inferInstanceAs (Decidable ((∀ t ∈ c.arguments, t ∈ r.known) ∧ (r.call c).Supplied calls))

end PoolRun

/-! ## Lemmas -/

namespace TypePool

/-- The first pool becomes the second as the data of the log is interned in its order. -/
inductive Interns : TypePool → List (TypeData × TypeId) → TypePool → Prop
  | nil {p : TypePool} : Interns p [] p
  | cons {p q : TypePool} {d : TypeData} {log : List (TypeData × TypeId)}
      (hd : ∀ u ∈ d.parts, p.Holds u) (h : Interns (p.intern d).2 log q) :
      Interns p ((d, (p.intern d).1) :: log) q

variable {p q : TypePool} {t : TypeId} {d : TypeData} {log : List (TypeData × TypeId)}

namespace Interns

theorem append {o : TypePool} {log' : List (TypeData × TypeId)} (h : p.Interns log q)
    (h' : q.Interns log' o) : p.Interns (log ++ log') o := by
  induction h with
  | nil => exact h'
  | cons hd _ ih => exact .cons hd (ih h')

theorem wellFormed (h : p.Interns log q) (hp : p.WellFormed) : q.WellFormed := by
  induction h with
  | nil => exact hp
  | cons hd _ ih => exact ih (wellFormed_intern hp hd)

/-- New entries are added behind those that are there. -/
theorem entries (h : p.Interns log q) : p.entries.toList <+: q.entries.toList := by
  induction h with
  | nil => exact List.prefix_rfl
  | @cons p q d log _ _ ih =>
    refine List.IsPrefix.trans ?_ ih
    rcases intern_cases p d with ⟨u, -, heq⟩ | ⟨hnew, heq⟩
    · exact heq ▸ List.prefix_rfl
    · rw [heq]
      exact ⟨[.ofData d], Array.toList_push.symm⟩

theorem data?_of_some (h : p.Interns log q) (ht : p.data? t = some d) : q.data? t = some d := by
  induction h with
  | nil => exact ht
  | cons _ _ ih => exact ih (data?_intern_of_some ht _)

theorem holds (h : p.Interns log q) (ht : p.Holds t) : q.Holds t := by
  obtain ⟨d, hd⟩ := holds_iff.1 ht
  exact holds_iff.2 ⟨d, h.data?_of_some hd⟩

/-- The ids of the log stand for the data. -/
theorem read (h : p.Interns log q) : ∀ c ∈ log, q.data? c.2 = some c.1 := by
  induction h with
  | nil => exact nofun
  | cons _ h ih => exact List.forall_mem_cons.2 ⟨h.data?_of_some (data?_intern _ _), ih⟩

/-- All that is new comes from the log. -/
theorem cases (h : p.Interns log q) (ht : q.data? t = some d) :
    p.data? t = some d ∨ (d, t) ∈ log := by
  induction h with
  | nil => exact .inl ht
  | @cons p q e log _ _ ih =>
    rcases ih ht with ht | hlog
    · rcases data?_intern_cases ht with hp | ⟨-, rfl⟩
      · exact .inl hp
      · have heq : t = (p.intern d).1 := eq_of_data? ht (data?_intern p d)
        exact .inr (heq ▸ List.mem_cons_self)
    · exact .inr (List.mem_cons_of_mem _ hlog)

end Interns

/-! ### One call -/

theorem interns_intern (hd : ∀ u ∈ d.parts, p.Holds u) :
    p.Interns [(d, (p.intern d).1)] (p.intern d).2 ∧ (p.intern d).2.Holds (p.intern d).1 :=
  ⟨.cons hd .nil, data?_lt (data?_intern p d)⟩

theorem interns_tupleReturn {ts : List TypeId} (hts : ∀ t ∈ ts, p.Holds t) :
    p.Interns ((PoolCall.tupleReturn ts).interned p) (p.tupleReturn ts).2 ∧
      (p.tupleReturn ts).2.Holds (p.tupleReturn ts).1 := by
  have hinner : ∀ u ∈ (TypeData.tupleReturn (p.tuple ts).1).parts, (p.tuple ts).2.Holds u :=
    List.forall_mem_singleton.2 (data?_lt (data?_intern p (.tuple ts)))
  exact ⟨.cons hts (interns_intern hinner).1, (interns_intern hinner).2⟩

theorem interns_union (hp : p.WellFormed) {ts : List TypeId} (hts : ∀ t ∈ ts, p.Holds t) :
    p.Interns ((PoolCall.union ts).interned p) (p.union ts).2 ∧
      (p.union ts).2.Holds (p.union ts).1 := by
  have hflat : ∀ m ∈ p.flatten ts, p.Holds m := by
    intro m hm
    obtain ⟨t, ht, hmt⟩ := mem_flatten.1 hm
    exact holds_unionMembers hp (hts t ht) m hmt
  rcases union_shapes p ts with ⟨hfl, hu⟩ | ⟨t, hfl, hu⟩ | ⟨hlen, hu⟩
  · rw [PoolCall.interned, hfl, hu]
    have hnever : TypeId.never.index < TypeId.primitiveCount := by decide
    exact ⟨.nil, Nat.lt_of_lt_of_le hnever hp.primitives⟩
  · rw [PoolCall.interned, hfl, hu]
    exact ⟨.nil, hflat t (hfl ▸ List.mem_cons_self)⟩
  · rw [PoolCall.interned, if_pos hlen, hu]
    exact interns_intern hflat

/-- A call interns data whose parts the pool holds, and answers with an id that it then holds. -/
theorem interns_answer (hp : p.WellFormed) {c : PoolCall} (hc : ∀ t ∈ c.arguments, p.Holds t) :
    p.Interns (c.interned p) (c.answer p).2 ∧ (c.answer p).2.Holds (c.answer p).1 := by
  cases c with
  | intern d => exact interns_intern hc
  | array t => exact interns_intern hc
  | tuple ts => exact interns_intern hc
  | instanceOf kind name ts => exact interns_intern hc
  | object name properties => exact interns_intern hc
  | function signatures => exact interns_intern hc
  | tupleReturn ts => exact interns_tupleReturn hc
  | union ts => exact interns_union hp hc

/-! ### Multi-value returns -/

/-- Taking off wrappers comes to an end. -/
theorem wellFounded_returnInner (hp : p.WellFormed) :
    WellFounded fun u t => p.returnInner? t = some u :=
  Subrelation.wf (fun h => lt_of_returnInner hp h) (measure TypeId.index).wf

theorem returnInner?_returned (hp : p.WellFormed) (t : TypeId) :
    p.returnInner? (p.returned t) = none := by
  induction t using (wellFounded_returnInner hp).induction with
  | _ t ih =>
    cases hr : p.returnInner? t with
    | none => rwa [returned_of_no_returnInner hr]
    | some u =>
      rw [returned_of_returnInner hp hr]
      exact ih u hr

/-- A wrapper is answered as what it wraps. -/
theorem subType_position_eq (hp : p.WellFormed) (t : TypeId) (i : Nat) :
    p.subType (.single t) (.position i) =
      match p.returnInner? t with
      | some u => p.subType (.single u) (.position i)
      | none => p.positionType t i := by
  cases hr : p.returnInner? t with
  | none => rw [subType, returned_of_no_returnInner hr]
  | some u => exact congrArg (p.positionType · i) (returned_of_returnInner hp hr)

end TypePool

/-! ### Runs -/

namespace PoolRun

variable {r : PoolRun} {c : PoolCall} {calls before later : List PoolCall} {t : TypeId}
  {d : TypeData}

/-- What the pool holds was interned on the way, and it holds all known ids. -/
structure Kept (r : PoolRun) : Prop where
  interns : TypePool.empty.Interns r.interned r.pool
  wellFormed : r.pool.WellFormed
  holds : ∀ t ∈ r.known, r.pool.Holds t

/-- The primitive types are interned first. -/
theorem kept_start : start.Kept where
  interns := .cons nofun <| .cons nofun <| .cons nofun <| .cons nofun <| .cons nofun <|
    .cons nofun <| .cons nofun .nil
  wellFormed := TypePool.wellFormed_fresh
  holds := by decide

theorem Kept.interns_call (hr : r.Kept) (hc : ∀ t ∈ c.arguments, t ∈ r.known) :
    r.pool.Interns (c.interned r.pool) (r.call c).pool ∧
      (r.call c).pool.Holds (c.answer r.pool).1 :=
  TypePool.interns_answer hr.wellFormed fun t ht => hr.holds t (hc t ht)

theorem Kept.call (hr : r.Kept) (hc : ∀ t ∈ c.arguments, t ∈ r.known) : (r.call c).Kept := by
  obtain ⟨hlog, hanswer⟩ := hr.interns_call hc
  exact ⟨hr.interns.append hlog, hlog.wellFormed hr.wellFormed,
    List.forall_mem_cons.2 ⟨hanswer, fun t ht => hlog.holds (hr.holds t ht)⟩⟩

theorem Kept.after (hr : r.Kept) (h : r.Supplied calls) :
    (r.after calls).Kept ∧ ∃ log, r.pool.Interns log (r.after calls).pool := by
  induction calls generalizing r with
  | nil => exact ⟨hr, [], .nil⟩
  | cons c calls ih =>
    obtain ⟨hkept, log, hlog⟩ := ih (hr.call h.1) h.2
    exact ⟨hkept, _, (hr.interns_call h.1).1.append hlog⟩

theorem Kept.mem_interned (hr : r.Kept) (h : r.pool.data? t = some d) : (d, t) ∈ r.interned :=
  (hr.interns.cases h).resolve_left nofun

theorem data?_id (q : Primitive) : start.pool.data? q.id = some (.primitive q) := by
  cases q <;> rfl

theorem supplied_append :
    r.Supplied (before ++ later) ↔ r.Supplied before ∧ (r.after before).Supplied later := by
  induction before generalizing r with
  | nil => exact (true_and _ ▸ Iff.rfl)
  | cons c before ih => exact (and_congr_right fun _ => ih).trans and_assoc.symm

theorem after_append : r.after (before ++ later) = (r.after before).after later :=
  List.foldl_append

/-! ## Main results -/

/-- After any calls with known ids, two data that were interned have the same id exactly if they
are equal; an id is read as the data that it was given for, with the flags of that data; all
known ids are ids of the pool; all entries are where they were at any time before; the primitive
types have their fixed ids; and an entry mentions smaller ids only.  So taking multi-value
returns off a type comes to an end, and extracting a sub-type takes them all off. -/
theorem types_faithful {calls : List PoolCall} (h : start.Supplied calls) :
    let r := start.after calls
    (∀ c ∈ r.interned, ∀ d ∈ r.interned, c.2 = d.2 ↔ c.1 = d.1) ∧
    (∀ c ∈ r.interned, r.pool.data? c.2 = some c.1 ∧ r.pool.flags c.2 = c.1.flags) ∧
    (∀ t ∈ r.known, r.pool.Holds t) ∧
    (∀ before later, calls = before ++ later →
      (start.after before).pool.entries.toList <+: r.pool.entries.toList) ∧
    (∀ q : Primitive, r.pool.data? q.id = some (.primitive q) ∧
      r.pool.intern (.primitive q) = (q.id, r.pool)) ∧
    (∀ t d, r.pool.data? t = some d → (d, t) ∈ r.interned ∧ ∀ u ∈ d.parts, u.index < t.index) ∧
    (WellFounded fun u t => r.pool.returnInner? t = some u) ∧
    ∀ t i, r.pool.returnInner? (r.pool.returned t) = none ∧
      r.pool.subType (.single t) (.position i) =
        match r.pool.returnInner? t with
        | some u => r.pool.subType (.single u) (.position i)
        | none => r.pool.positionType t i := by
  intro r
  obtain ⟨hr, log, hlog⟩ : r.Kept ∧ ∃ log, start.pool.Interns log r.pool := kept_start.after h
  have hread := hr.interns.read
  refine ⟨fun c hc d hd => ⟨fun heq => ?_, fun heq => ?_⟩,
    fun c hc => ⟨hread c hc, TypePool.flags_of_data? (hread c hc)⟩, hr.holds,
    fun before later hcalls => ?_, fun q => ?_,
    fun t d ht => ⟨hr.mem_interned ht, hr.wellFormed.parts ht⟩,
    TypePool.wellFounded_returnInner hr.wellFormed,
    fun t i => ⟨TypePool.returnInner?_returned hr.wellFormed t,
      TypePool.subType_position_eq hr.wellFormed t i⟩⟩
  · exact Option.some.inj ((hread c hc).symm.trans (heq ▸ hread d hd))
  · exact TypePool.eq_of_data? (hread c hc) (heq ▸ hread d hd)
  · obtain ⟨hbefore, hlater⟩ := supplied_append.1 (hcalls ▸ h)
    obtain ⟨-, log, hlog⟩ := (kept_start.after hbefore).1.after hlater
    rw [← after_append, ← hcalls] at hlog
    exact hlog.entries
  · have hq : r.pool.data? q.id = some (.primitive q) := hlog.data?_of_some (data?_id q)
    exact ⟨hq, TypePool.intern_of_data? hq⟩

/-- A multi-value return in another one, a union of it with itself and others, and a tuple that
is asked for twice. -/
theorem types_faithful_nested :
    let calls : List PoolCall := [.tupleReturn [.number, .string], .intern (.tupleReturn ⟨8⟩),
      .union [⟨9⟩, .string], .union [⟨10⟩, .never, ⟨9⟩], .tuple [.number, .string], .array ⟨11⟩]
    let r := start.after calls
    start.Supplied calls ∧ r.pool.size = 13 ∧ r.interned.length = 14 ∧
      (∀ c ∈ r.interned, ∀ d ∈ r.interned, c.2 = d.2 ↔ c.1 = d.1) ∧
      (start.after (calls.take 2)).pool.entries.toList <+: r.pool.entries.toList ∧
      r.pool.intern (.primitive .number) = (.number, r.pool) ∧
      r.pool.subType (.single ⟨9⟩) (.position 1) = r.pool.subType (.single ⟨8⟩) (.position 1) := by
  intro calls r
  have h : start.Supplied calls := by decide +kernel
  obtain ⟨hsame, -, -, hentries, hprimitive, -, -, hunwrap⟩ := types_faithful h
  have hinner : r.pool.returnInner? ⟨9⟩ = some ⟨8⟩ := by decide +kernel
  refine ⟨h, by decide +kernel, by decide +kernel, hsame, hentries _ (calls.drop 2) rfl,
    (hprimitive .number).2, ?_⟩
  rw [(hunwrap ⟨9⟩ 1).2, hinner]

end PoolRun

end ScriptLowering
