import ScriptLowering.Index

/-!
# Text interner

Texts are kept in sixteen shards; a name packs the shard and the place of a text
there into one word.  A function of the text says which shard it belongs to; the
empty text belongs to the first, where it always has the first place.  Beside
its texts a shard keeps the place of each, and it takes a limited number of them.

    place < shardCapacity → (ofParts shard place).shard = shard            (shard_ofParts)
    t.intern s = .ok (n, t') → t'.lookup n = some s                        (lookup_intern)
    t.lookup m = some u → t'.lookup m = some u                             (lookup_intern_of_some)
-/

namespace ScriptLowering

/-- The number of shards. -/
abbrev shardCount : Nat := 16

/-- The number of texts that a shard can hold. -/
def shardCapacity : Nat := 268435456

/-- The name of an interned text: the shard in the high four bits, the place in the others. -/
structure TextName where
  word : UInt32
  deriving DecidableEq

/-- A shard that can take no more texts. -/
structure ShardFull where
  shard : Nat
  count : Nat
  deriving DecidableEq

/-- The texts of a shard, each once, and the places where they stand. -/
structure Shard where
  /-- Newest first. -/
  places : List (String × Nat)
  texts : Array String
  inverse : Indexes places (texts[·]?)
  room : texts.size ≤ shardCapacity

structure Interner where
  /-- The shard of a text that is not empty. -/
  shardOf : String → Fin shardCount
  shards : Vector Shard shardCount

namespace TextName

/-- The name of the empty text. -/
def empty : TextName := ⟨0⟩

/-- The bits of the place. -/
def placeMask : UInt32 := 0x0fffffff

def ofParts (shard : Fin shardCount) (place : Nat) : TextName :=
  ⟨UInt32.ofNat shard <<< 28 ||| UInt32.ofNat place⟩

theorem toNat_word_shift (n : TextName) : (n.word >>> 28).toNat = n.word.toNat / shardCapacity := by
  simp [Nat.shiftRight_eq_div_pow, shardCapacity]

def shard (n : TextName) : Fin shardCount :=
  ⟨(n.word >>> 28).toNat, by
    rw [toNat_word_shift]
    exact Nat.div_lt_of_lt_mul n.word.toNat_lt⟩

def place (n : TextName) : Nat := (n.word &&& placeMask).toNat

end TextName

def ShardFull.message (e : ShardFull) : String :=
  "interner shard " ++ toString e.shard ++ " is full (" ++ toString e.count ++ " strings)"

namespace Shard

def empty : Shard where
  places := []
  texts := #[]
  inverse := .nil
  room := Nat.zero_le _

/-- A new text at the end is found there, and the others where they were. -/
theorem inverse_push (d : Shard) {s : String} (hnew : d.places.lookup s = none) :
    Indexes ((s, d.texts.size) :: d.places) ((d.texts.push s)[·]?) := by
  refine d.inverse.cons hnew (by simp) (by simp) fun i hi => ?_
  rw [Array.getElem?_push, if_neg hi]

/-- A text that is new gets the next place. -/
def add (d : Shard) (s : String) (hnew : d.places.lookup s = none)
    (hroom : d.texts.size < shardCapacity) : Shard where
  places := (s, d.texts.size) :: d.places
  texts := d.texts.push s
  inverse := inverse_push d hnew
  room := by
    rw [Array.size_push]
    exact hroom

/-- A shard with the empty text only. -/
def seeded : Shard := empty.add "" rfl (by decide)

end Shard

namespace Interner

/-! ## Algorithm -/

/-- An interner that holds the empty text only. -/
def ofShards (shardOf : String → Fin shardCount) : Interner :=
  ⟨shardOf, (Vector.replicate shardCount .empty).set 0 .seeded⟩

/-- Shards chosen by the hash of a text. -/
def fresh : Interner := ofShards fun s => Fin.ofNat shardCount s.hash.toNat

/-- The shard of any text. -/
def shardFor (t : Interner) (s : String) : Fin shardCount := if s = "" then 0 else t.shardOf s

/-- The name of a text, which is added when it is new. -/
def intern (t : Interner) (s : String) : Except ShardFull (TextName × Interner) :=
  let i := t.shardFor s
  let d := t.shards[i]
  match hs : d.places.lookup s with
  | some place => .ok (.ofParts i place, t)
  | none =>
    if hroom : d.texts.size < shardCapacity then
      .ok (.ofParts i d.texts.size, { t with shards := t.shards.set i (d.add s hs hroom) })
    else .error ⟨i, d.texts.size⟩

def lookup (t : Interner) (n : TextName) : Option String := t.shards[n.shard].texts[n.place]?

/-- The number of texts, the empty one included. -/
def size (t : Interner) : Nat := t.shards.toList.foldl (fun n d => n + d.texts.size) 0

/-- An interner always holds the empty text. -/
def isEmpty (_ : Interner) : Bool := false

end Interner

/-! ## Lemmas -/

namespace TextName

/-- A name is the number of its shard and place in the base of the capacity. -/
theorem toNat_word_ofParts (shard : Fin shardCount) {place : Nat} (h : place < shardCapacity) :
    (ofParts shard place).word.toNat = shard * shardCapacity + place := by
  have hshard : shard.val < 16 := shard.isLt
  have hplace : place < 2 ^ 28 := h
  have hhigh : shard.val <<< 28 % 2 ^ 32 = shard.val <<< 28 := by
    rw [Nat.shiftLeft_eq]
    omega
  simp only [ofParts, UInt32.toNat_or, UInt32.toNat_shiftLeft, UInt32.toNat_ofNat']
  rw [Nat.mod_eq_of_lt (by omega : shard.val < 2 ^ 32), Nat.mod_eq_of_lt (by omega : place < 2 ^ 32)]
  change (shard.val <<< 28 % 2 ^ 32) ||| place = _
  rw [hhigh, ← Nat.shiftLeft_add_eq_or_of_lt hplace, Nat.shiftLeft_eq]
  rfl

theorem place_eq (n : TextName) : n.place = n.word.toNat % shardCapacity := by
  have hmask : placeMask.toNat = 2 ^ 28 - 1 := rfl
  rw [place, UInt32.toNat_and, hmask, Nat.and_two_pow_sub_one_eq_mod]
  rfl

theorem shard_ofParts (shard : Fin shardCount) {place : Nat} (h : place < shardCapacity) :
    (ofParts shard place).shard = shard := by
  apply Fin.ext
  change ((ofParts shard place).word >>> 28).toNat = shard
  rw [toNat_word_shift, toNat_word_ofParts shard h, Nat.mul_comm, Nat.mul_add_div (by decide),
    Nat.div_eq_of_lt h, Nat.add_zero]

theorem place_ofParts (shard : Fin shardCount) {place : Nat} (h : place < shardCapacity) :
    (ofParts shard place).place = place := by
  rw [place_eq, toNat_word_ofParts shard h, Nat.mul_add_mod_of_lt h]

/-- The parts of a name make it up. -/
theorem ofParts_parts (n : TextName) : ofParts n.shard n.place = n := by
  have hplace : n.place < shardCapacity := by
    rw [place_eq]
    exact Nat.mod_lt _ (by decide)
  have hshard : n.shard.val = n.word.toNat / shardCapacity := toNat_word_shift n
  have hword : (ofParts n.shard n.place).word.toNat = n.word.toNat := by
    rw [toNat_word_ofParts n.shard hplace, hshard, place_eq, Nat.div_add_mod']
  exact congrArg mk (UInt32.toNat_inj.1 hword)

end TextName

namespace Shard

@[simp] theorem texts_add (d : Shard) (s : String) (hnew : d.places.lookup s = none)
    (hroom : d.texts.size < shardCapacity) : (d.add s hnew hroom).texts = d.texts.push s := rfl

theorem lt_capacity {d : Shard} {s : String} {i : Nat} (h : d.texts[i]? = some s) :
    i < shardCapacity :=
  Nat.lt_of_lt_of_le (Array.getElem?_eq_some_iff.1 h).1 d.room

theorem lookup_eq_none_iff {d : Shard} {s : String} :
    d.places.lookup s = none ↔ s ∉ d.texts.toList := by
  rw [d.inverse.lookup_eq_none_iff, Array.mem_toList_iff, Array.mem_iff_getElem?, not_exists]

end Shard

namespace Interner

theorem lookup_ofParts (t : Interner) (i : Fin shardCount) {place : Nat}
    (h : place < shardCapacity) : t.lookup (.ofParts i place) = t.shards[i].texts[place]? := by
  simp only [lookup, TextName.shard_ofParts i h, TextName.place_ofParts i h]

/-- A call finds the text in its shard or adds it there. -/
theorem intern_eq_ok {t t' : Interner} {s : String} {n : TextName} (h : t.intern s = .ok (n, t')) :
    (∃ place, t.shards[t.shardFor s].texts[place]? = some s ∧ n = .ofParts (t.shardFor s) place ∧
      t' = t) ∨
    ∃ (hnew : t.shards[t.shardFor s].places.lookup s = none)
      (hroom : t.shards[t.shardFor s].texts.size < shardCapacity),
      n = .ofParts (t.shardFor s) t.shards[t.shardFor s].texts.size ∧
      t' = { t with
        shards := t.shards.set (t.shardFor s) (t.shards[t.shardFor s].add s hnew hroom) } := by
  unfold intern at h
  simp only at h
  split at h
  next place hp =>
    cases h
    exact .inl ⟨place, (Shard.inverse _ _ _).1 hp, rfl, rfl⟩
  next hnew =>
    split at h <;> cases h
    next hroom => exact .inr ⟨hnew, hroom, rfl, rfl⟩

theorem lookup_intern {t t' : Interner} {s : String} {n : TextName}
    (h : t.intern s = .ok (n, t')) : t'.lookup n = some s := by
  rcases intern_eq_ok h with ⟨place, hp, rfl, rfl⟩ | ⟨hnew, hroom, rfl, rfl⟩
  · rw [lookup_ofParts _ _ (Shard.lt_capacity hp), hp]
  · rw [lookup_ofParts _ _ hroom]
    simp

theorem lookup_intern_of_some {t t' : Interner} {s u : String} {n m : TextName}
    (h : t.intern s = .ok (n, t')) (hm : t.lookup m = some u) : t'.lookup m = some u := by
  rcases intern_eq_ok h with ⟨place, hp, rfl, rfl⟩ | ⟨hnew, hroom, rfl, rfl⟩
  · exact hm
  · simp only [lookup, Fin.getElem_fin] at *
    by_cases he : (t.shardFor s).val = m.shard.val
    · have hlt := (Array.getElem?_eq_some_iff.1 hm).1
      simp only [← he, Vector.getElem_set_self, Shard.texts_add] at *
      rw [Array.getElem?_push_lt hlt, ← hm, Array.getElem?_eq_getElem hlt]
    · rw [Vector.getElem_set_ne _ _ he]
      exact hm

end Interner

end ScriptLowering
