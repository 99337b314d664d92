import ScriptLowering.Interner
import ScriptLowering.Proofs.Lists.Distinct
import ScriptLowering.Proofs.Stores.Run

/-!
# Runs of the text interner

After any calls a shard holds the texts that belong to it, each once and in the
order in which they first came, the empty text before all others.  So a name
never changes its text, a text never its name, and only a shard that is to hold
more different texts than it can take stops a run.

    t.Holds ss, t.intern s = .ok (n, t') → t'.Holds (ss ++ [s])             (Holds.intern)
    t.Holds ss, the texts of ss ++ us fit → a run on us has answers          (Holds.runAll_isOk)
    t.Holds ss → t.size = 1 + the number of different texts in ss but ""      (Holds.size_eq)
-/

namespace ScriptLowering.Interner

/-! ## Algorithm -/

/-- The different texts of a shard among the empty one and those given. -/
def distinct (shardFor : String → Fin shardCount) (ss : List String) (i : Fin shardCount) :
    List String :=
  (("" :: ss).filter (shardFor · = i)).eraseDups

/-- No shard is asked to hold more than it can. -/
def Fits (shardFor : String → Fin shardCount) (ss : List String) : Prop :=
  ∀ i, (distinct shardFor ss i).length ≤ shardCapacity

instance (shardFor : String → Fin shardCount) (ss : List String) : Decidable (Fits shardFor ss) :=
  inferInstanceAs (Decidable (∀ i, (distinct shardFor ss i).length ≤ shardCapacity))

/-- The interner holds the empty text, those given, and nothing else. -/
def Holds (t : Interner) (ss : List String) : Prop :=
  ∀ i : Fin shardCount, t.shards[i].texts.toList = distinct t.shardFor ss i

/-! ## Lemmas -/

variable {t t' : Interner} {s : String} {ss us : List String} {n m : TextName} {ns : List TextName}

/-! ### The texts of a shard -/

section

variable {shardFor : String → Fin shardCount} {i : Fin shardCount}

theorem mem_distinct :
    s ∈ distinct shardFor ss i ↔ (s = "" ∨ s ∈ ss) ∧ shardFor s = i := by
  simp [distinct]

theorem distinct_append_singleton :
    distinct shardFor (ss ++ [s]) i = distinct shardFor ss i ++
      if shardFor s = i ∧ s ∉ distinct shardFor ss i then [s] else [] := by
  by_cases hi : shardFor s = i
  · have hmem : s ∈ ("" :: ss).filter (shardFor · = i) ↔ s ∈ distinct shardFor ss i :=
      List.mem_eraseDups.symm
    rw [distinct, ← List.cons_append, List.filter_append, List.filter_singleton, decide_eq_true hi,
      cond_true, eraseDups_append_singleton, ← distinct]
    by_cases hs : s ∈ distinct shardFor ss i <;> simp [hmem, hs, hi]
  · rw [distinct, ← List.cons_append, List.filter_append, List.filter_singleton,
      decide_eq_false hi, cond_false, List.append_nil, ← distinct]
    simp [hi]

theorem length_distinct_le (ss us : List String) :
    (distinct shardFor ss i).length ≤ (distinct shardFor (ss ++ us) i).length := by
  simp only [distinct, ← List.cons_append, List.filter_append, List.eraseDups_append,
    List.length_append]
  exact Nat.le_add_right ..

end

/-! ### What an interner holds -/

theorem holds_ofShards (shardOf : String → Fin shardCount) : (ofShards shardOf).Holds [] := by
  intro i
  by_cases hi : i = 0
  · subst hi
    rfl
  · have hne : (0 : Fin shardCount) ≠ i := fun h => hi h.symm
    have hval : (0 : Nat) ≠ i.val := fun h => hne (Fin.ext h)
    have hshard : (ofShards shardOf).shards[i] = .empty := by
      simp [ofShards, Vector.getElem_set_ne, hval]
    simp [hshard, Shard.empty, distinct, shardFor, hne]

theorem shardFor_intern (h : t.intern s = .ok (n, t')) : t'.shardFor = t.shardFor := by
  rcases intern_eq_ok h with ⟨_, -, -, rfl⟩ | ⟨_, _, -, rfl⟩ <;> rfl

/-- A call adds its text to what is held. -/
theorem Holds.intern (ht : t.Holds ss) (h : t.intern s = .ok (n, t')) : t'.Holds (ss ++ [s]) := by
  intro i
  rw [shardFor_intern h, distinct_append_singleton]
  rcases intern_eq_ok h with ⟨place, hp, -, rfl⟩ | ⟨hnew, hroom, -, rfl⟩
  · have hmem : s ∈ distinct t'.shardFor ss (t'.shardFor s) := by
      rw [← ht, Array.mem_toList_iff]
      exact Array.mem_of_getElem? hp
    rw [ht, if_neg (by rintro ⟨rfl, hs⟩; exact hs hmem), List.append_nil]
  · by_cases hi : t.shardFor s = i
    · subst hi
      have hnot : s ∉ distinct t.shardFor ss (t.shardFor s) := by
        rw [← ht]
        exact Shard.lookup_eq_none_iff.1 hnew
      rw [if_pos ⟨rfl, hnot⟩, ← ht]
      simp
    · have hval : (t.shardFor s).val ≠ i.val := fun h => hi (Fin.ext h)
      rw [if_neg (fun h => hi h.1), List.append_nil, ← ht]
      simp [Vector.getElem_set_ne, hval]

/-- Only a shard that would hold too many texts refuses one. -/
theorem Holds.intern_isOk (ht : t.Holds ss)
    (hroom : (distinct t.shardFor (ss ++ [s]) (t.shardFor s)).length ≤ shardCapacity) :
    ∃ n t', t.intern s = .ok (n, t') := by
  unfold Interner.intern
  simp only
  split
  next => exact ⟨_, _, rfl⟩
  next hnew =>
    have hnot : s ∉ distinct t.shardFor ss (t.shardFor s) := by
      rw [← ht]
      exact Shard.lookup_eq_none_iff.1 hnew
    rw [distinct_append_singleton, if_pos ⟨rfl, hnot⟩, ← ht] at hroom
    have hlt : t.shards[t.shardFor s].texts.size < shardCapacity :=
      Nat.lt_of_succ_le (by simpa using hroom)
    exact ⟨_, _, dif_pos hlt⟩

/-- A name stands for one text, and a text has one name. -/
theorem Holds.name_unique (ht : t.Holds ss) (hn : t.lookup n = some s) (hm : t.lookup m = some s) :
    n = m := by
  have hhome {k : TextName} (hk : t.lookup k = some s) : t.shardFor s = k.shard := by
    have hmem : s ∈ distinct t.shardFor ss k.shard := by
      rw [← ht, Array.mem_toList_iff]
      exact Array.mem_of_getElem? hk
    exact (mem_distinct.1 hmem).2
  have hshard : n.shard = m.shard := (hhome hn).symm.trans (hhome hm)
  simp only [lookup, hshard] at hn
  have hplace : n.place = m.place := Indexes.unique (Shard.inverse _) hn hm
  rw [← n.ofParts_parts, ← m.ofParts_parts, hshard, hplace]

theorem Holds.lookup_empty (ht : t.Holds ss) : t.lookup .empty = some "" := by
  have hzero : t.shardFor "" = 0 := rfl
  have hlist := ht 0
  rw [distinct, List.filter_cons_of_pos (by simp [hzero]), List.eraseDups_cons] at hlist
  have hfirst : t.shards[(0 : Fin shardCount)].texts[0]? = some "" := by
    rw [← Array.getElem?_toList, hlist]
    rfl
  exact hfirst

/-- The empty text and each other text are counted once. -/
theorem Holds.size_eq (ht : t.Holds ss) : t.size = 1 + (ss.filter (· ≠ "")).eraseDups.length := by
  have hshards : t.shards.toList.map (·.texts.size) =
      (List.finRange shardCount).map fun i =>
        (("" :: ss).eraseDups.filter (t.shardFor · = i)).length := by
    refine List.ext_getElem (by simp) fun j hj _ => ?_
    have hlen : j < shardCount := by simpa using hj
    have := congrArg List.length (ht ⟨j, hlen⟩)
    rw [distinct, eraseDups_filter] at this
    simpa using this
  have hsum : t.size = (t.shards.toList.map (·.texts.size)).sum := by
    rw [List.sum_eq_foldl, List.foldl_map, size]
  rw [hsum, hshards, sum_length_filter, List.eraseDups_cons, List.length_cons, Nat.add_comm]
  simp only [ne_eq, decide_not]
  rfl

/-! ### Runs -/

/-- A run adds its texts to what is held. -/
theorem Holds.of_runAll (ht : t.Holds ss) (h : runAll Interner.intern t us = .ok (ns, t')) :
    t'.Holds (ss ++ us) :=
  runAll_keeps (fun ht h => ht.intern h) ss ht h

/-- All names returned are read back at the end. -/
theorem lookup_runAll (h : runAll Interner.intern t ss = .ok (ns, t')) :
    List.Forall₂ (fun s n => t'.lookup n = some s) ss ns :=
  runAll_answers (R := fun t s n => t.lookup n = some s) lookup_intern
    (fun hread h => lookup_intern_of_some h hread) h

/-- Texts that fit are all interned. -/
theorem Holds.runAll_isOk (ht : t.Holds ss) (hfits : Fits t.shardFor (ss ++ us)) :
    ∃ ns t', runAll Interner.intern t us = .ok (ns, t') := by
  induction us generalizing t ss with
  | nil => exact ⟨[], t, rfl⟩
  | cons u us ih =>
    rw [List.append_cons] at hfits
    obtain ⟨n, t₁, hn⟩ := ht.intern_isOk (s := u)
      (Nat.le_trans (length_distinct_le _ us) (hfits (t.shardFor u)))
    obtain ⟨ns, t', hns⟩ := ih (ht.intern hn) (by rwa [shardFor_intern hn])
    exact ⟨n :: ns, t', runAll_cons hn hns⟩

/-! ## Main results -/

/-- Texts that fit are all given names: two calls answer the same name exactly if their texts are
equal, and the name of the empty text exactly to it.  At any time of the run each name returned so
far is read back as the text that it was returned for, and the size counts the empty text and the
different other texts so far. -/
theorem names_faithful (shardOf : String → Fin shardCount) {ss : List String}
    (hfits : Fits (ofShards shardOf).shardFor ss) :
    ∃ ns t, runAll intern (ofShards shardOf) ss = .ok (ns, t) ∧ ns.length = ss.length ∧
      (∀ c ∈ ss.zip ns, ∀ d ∈ ss.zip ns, c.2 = d.2 ↔ c.1 = d.1) ∧
      (∀ c ∈ ss.zip ns, c.2 = .empty ↔ c.1 = "") ∧
      ∀ before after, ss = before ++ after →
        ∃ ns₁ t₁, runAll intern (ofShards shardOf) before = .ok (ns₁, t₁) ∧ ns₁ <+: ns ∧
          (∀ c ∈ before.zip ns₁, t₁.lookup c.2 = some c.1) ∧
          t₁.size = 1 + (before.filter (· ≠ "")).eraseDups.length := by
  have hstart := holds_ofShards shardOf
  obtain ⟨ns, t, hns⟩ := hstart.runAll_isOk hfits
  have ht := hstart.of_runAll hns
  obtain ⟨hlen, hread⟩ := List.forall₂_iff_zip.1 (lookup_runAll hns)
  refine ⟨ns, t, hns, hlen.symm, fun c hc d hd => ⟨fun heq => ?_, fun heq => ?_⟩,
    fun c hc => ⟨fun heq => ?_, fun heq => ?_⟩, fun before after hss => ?_⟩
  · exact Option.some.inj ((hread hc).symm.trans (heq ▸ hread hd))
  · exact ht.name_unique (hread hc) (heq ▸ hread hd)
  · exact Option.some.inj ((hread hc).symm.trans (heq ▸ ht.lookup_empty))
  · exact ht.name_unique (hread hc) (heq ▸ ht.lookup_empty)
  · obtain ⟨ns₁, t₁, ns₂, hns₁, -, rfl⟩ := runAll_append_eq_ok (hss ▸ hns)
    obtain ⟨-, hread₁⟩ := List.forall₂_iff_zip.1 (lookup_runAll hns₁)
    exact ⟨ns₁, t₁, hns₁, List.prefix_append .., fun c hc => hread₁ hc,
      (hstart.of_runAll hns₁).size_eq⟩

/-- Two texts of one shard and one of another, one of them and the empty text called for again. -/
theorem names_faithful_repeated :
    let shardOf : String → Fin shardCount := fun s => if s = "map" then 15 else 0
    let before := ["x", "map", "", "x"]
    let ss := before ++ ["y", ""]
    Fits (ofShards shardOf).shardFor ss ∧
      ∃ ns t, runAll intern (ofShards shardOf) ss = .ok (ns, t) ∧ ns.length = 6 ∧
        (∀ c ∈ ss.zip ns, ∀ d ∈ ss.zip ns, c.2 = d.2 ↔ c.1 = d.1) ∧
        (∀ c ∈ ss.zip ns, c.2 = .empty ↔ c.1 = "") ∧
        ∃ ns₁ t₁, runAll intern (ofShards shardOf) before = .ok (ns₁, t₁) ∧ ns₁ <+: ns ∧
          (∀ c ∈ before.zip ns₁, t₁.lookup c.2 = some c.1) ∧ t₁.size = 3 := by
  intro shardOf before ss
  have hfits : Fits (ofShards shardOf).shardFor ss := by decide
  obtain ⟨ns, t, hns, hlen, hsame, hempty, hread⟩ := names_faithful shardOf hfits
  exact ⟨hfits, ns, t, hns, hlen, hsame, hempty, hread before ["y", ""] rfl⟩

end ScriptLowering.Interner
