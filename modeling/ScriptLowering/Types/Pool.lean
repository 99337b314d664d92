import ScriptLowering.Index
import ScriptLowering.Types.Data

/-!
# Type pool

The pool stores each type once: equal data has one id, and no entry changes
after it was made.  An entry keeps the flags beside the data, and the pool the
id of each data beside the entries.  A fresh pool holds the primitive types at
their fixed ids.

    (p.intern d).2.data? (p.intern d).1 = some d                      (data?_intern)
    p.data? t = some d → (p.intern e).2.data? t = some d              (data?_intern_of_some)
    p.data? t = some d → p.intern d = (t, p)                          (intern_of_data?)
-/

namespace ScriptLowering

/-- A type and its flags, which are read off the data once. -/
structure TypeEntry where
  data : TypeData
  flags : List TypeFlag
  flagged : flags = data.flags
  deriving DecidableEq

structure TypePool where
  entries : Array TypeEntry
  /-- Newest first. -/
  ids : List (TypeData × TypeId)
  inverse : Indexes ids fun t => entries[t.index]?.map TypeEntry.data
  deriving DecidableEq

def TypeEntry.ofData (d : TypeData) : TypeEntry := ⟨d, d.flags, rfl⟩

namespace TypePool

def empty : TypePool := ⟨#[], [], .nil⟩

/-- A new entry at the end is found there, and the others where they were. -/
theorem inverse_push (p : TypePool) {d : TypeData} (hnew : p.ids.lookup d = none) :
    Indexes ((d, ⟨p.entries.size⟩) :: p.ids) fun t =>
      (p.entries.push (.ofData d))[t.index]?.map TypeEntry.data := by
  refine p.inverse.cons hnew (by simp) (by simp [TypeEntry.ofData]) fun t ht => ?_
  have hne : t.index ≠ p.entries.size := fun h => ht (congrArg TypeId.mk h)
  rw [Array.getElem?_push, if_neg hne]

/-- Data that is new gets the next id. -/
def add (p : TypePool) (d : TypeData) (hnew : p.ids.lookup d = none) : TypePool where
  entries := p.entries.push (.ofData d)
  ids := (d, ⟨p.entries.size⟩) :: p.ids
  inverse := p.inverse_push hnew

/-! ## Algorithm -/

def size (p : TypePool) : Nat := p.entries.size

def isEmpty (p : TypePool) : Bool := p.entries.isEmpty

def data? (p : TypePool) (t : TypeId) : Option TypeData := p.entries[t.index]?.map TypeEntry.data

/-- The flags of the type; an id outside the pool has none. -/
def flags (p : TypePool) (t : TypeId) : List TypeFlag :=
  match p.entries[t.index]? with
  | some e => e.flags
  | none => []

/-- The id of the data, which is added when the pool does not hold it yet. -/
def intern (p : TypePool) (d : TypeData) : TypeId × TypePool :=
  match hd : p.ids.lookup d with
  | some t => (t, p)
  | none => (⟨p.size⟩, p.add d hd)

/-- The pool that holds the primitive types. -/
def fresh : TypePool :=
  Primitive.all.foldl (fun p q => (p.intern (.primitive q)).2) empty

/-- The members of a union; any other type is its own only member. -/
def unionMembers (p : TypePool) (t : TypeId) : List TypeId :=
  match p.data? t with
  | some (.union members) => members
  | _ => [t]

def array (p : TypePool) (element : TypeId) : TypeId × TypePool := p.intern (.array element)

def tuple (p : TypePool) (elements : List TypeId) : TypeId × TypePool := p.intern (.tuple elements)

def instanceOf (p : TypePool) (kind : InstanceKind) (name : String) (args : List TypeId) :
    TypeId × TypePool :=
  p.intern (.instanceOf kind name args)

def object (p : TypePool) (name : Option String) (properties : List (String × TypeId)) :
    TypeId × TypePool :=
  p.intern (.object name properties)

def function (p : TypePool) (signatures : List Signature) : TypeId × TypePool :=
  p.intern (.function signatures)

/-- A multi-value return of the elements: their tuple comes first, then the wrapper. -/
def tupleReturn (p : TypePool) (elements : List TypeId) : TypeId × TypePool :=
  let (inner, p) := p.tuple elements
  p.intern (.tupleReturn inner)

/-- The members with unions among them opened, each kept at its first place. -/
def flatten (p : TypePool) (members : List TypeId) : List TypeId :=
  (members.flatMap p.unionMembers).eraseDups

/-- The union of the members; of one it is that member, of none the type never. -/
def union (p : TypePool) (members : List TypeId) : TypeId × TypePool :=
  match p.flatten members with
  | [] => (.never, p)
  | [t] => (t, p)
  | ts => p.intern (.union ts)

/-! ## Lemmas -/

theorem data?_eq_some_iff {p : TypePool} {t : TypeId} {d : TypeData} :
    p.data? t = some d ↔ ∃ h : t.index < p.size, p.entries[t.index].data = d := by
  rw [data?, Option.map_eq_some_iff]
  constructor
  · rintro ⟨e, he, rfl⟩
    obtain ⟨h, rfl⟩ := Array.getElem?_eq_some_iff.1 he
    exact ⟨h, rfl⟩
  · rintro ⟨h, rfl⟩
    exact ⟨_, Array.getElem?_eq_getElem h, rfl⟩

theorem data?_lt {p : TypePool} {t : TypeId} {d : TypeData} (h : p.data? t = some d) :
    t.index < p.size := (data?_eq_some_iff.1 h).1

theorem exists_entry {p : TypePool} {t : TypeId} {d : TypeData} (h : p.data? t = some d) :
    ∃ e ∈ p.entries.toList, e.data = d := by
  obtain ⟨e, he, hd⟩ := Option.map_eq_some_iff.1 h
  exact ⟨e, Array.mem_toList_iff.2 (Array.mem_of_getElem? he), hd⟩

/-- Data has one id. -/
theorem eq_of_data? {p : TypePool} {t u : TypeId} {d : TypeData} (ht : p.data? t = some d)
    (hu : p.data? u = some d) : t = u := p.inverse.unique ht hu

theorem flags_of_data? {p : TypePool} {t : TypeId} {d : TypeData} (h : p.data? t = some d) :
    p.flags t = d.flags := by
  obtain ⟨e, he, rfl⟩ := Option.map_eq_some_iff.1 h
  rw [flags, he]
  exact e.flagged

/-- What interning does: it finds the data or adds it. -/
theorem intern_cases (p : TypePool) (d : TypeData) :
    (∃ t, p.data? t = some d ∧ p.intern d = (t, p)) ∨
      ∃ hnew : p.ids.lookup d = none, p.intern d = (⟨p.size⟩, p.add d hnew) := by
  unfold intern
  split
  next t ht => exact .inl ⟨t, (p.inverse d t).1 ht, rfl⟩
  next hnew => exact .inr ⟨hnew, rfl⟩

/-- Data that the pool holds is found where it is. -/
theorem intern_of_data? {p : TypePool} {t : TypeId} {d : TypeData} (h : p.data? t = some d) :
    p.intern d = (t, p) := by
  rcases intern_cases p d with ⟨u, hu, heq⟩ | ⟨hnew, -⟩
  · rw [heq, eq_of_data? hu h]
  · exact absurd h (p.inverse.lookup_eq_none_iff.1 hnew t)

/-- What the pool holds after an addition is the addition, at the end, or was held before. -/
theorem data?_add {p : TypePool} {d : TypeData} (hnew : p.ids.lookup d = none) (t : TypeId) :
    (p.add d hnew).data? t = if t.index = p.size then some d else p.data? t := by
  rw [data?, add, Array.getElem?_push, apply_ite (Option.map TypeEntry.data)]
  rfl

/-- Interning finds an id that reads back as the data. -/
theorem data?_intern (p : TypePool) (d : TypeData) :
    (p.intern d).2.data? (p.intern d).1 = some d := by
  rcases intern_cases p d with ⟨t, ht, h⟩ | ⟨hnew, h⟩ <;> rw [h]
  · exact ht
  · rw [data?_add, if_pos rfl]

/-- Interning keeps every entry in its place. -/
theorem data?_intern_of_some {p : TypePool} {t : TypeId} {e : TypeData} (h : p.data? t = some e)
    (d : TypeData) : (p.intern d).2.data? t = some e := by
  rcases intern_cases p d with ⟨u, -, heq⟩ | ⟨hnew, heq⟩ <;> rw [heq]
  · exact h
  · rw [data?_add, if_neg (Nat.ne_of_lt (data?_lt h)), h]

theorem size_le_intern (p : TypePool) (d : TypeData) : p.size ≤ (p.intern d).2.size := by
  rcases intern_cases p d with ⟨u, -, heq⟩ | ⟨hnew, heq⟩
  · simp [heq]
  · simp [heq, size, add]

end TypePool

end ScriptLowering
