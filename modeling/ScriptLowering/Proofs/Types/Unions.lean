import Mathlib.Data.List.Forall2
import ScriptLowering.Proofs.Lists.Distinct
import ScriptLowering.Proofs.Types.WellFormed

/-!
# Unions as joins

Flattening opens unions one level deep.  That is enough in a pool whose unions
were all joined from types that it held: the members of its unions are no unions
and what a union was joined from is all there is to know about it.

    Grows fresh p → p.FlatUnions                                        (Grows.flatUnions)
    p.Joined ts u → p.union ts = (u, p)                                 (Joined.union_eq)
    p.Joined ts u → p.unionMembers u = p.flatten ts, for ts ≠ []        (Joined.unionMembers_eq)
-/

namespace ScriptLowering

namespace TypePool

/-- The second pool came about from the first through the constructors of types: other data than
unions as it is, unions joined from types that the pool holds. -/
inductive Grows (p : TypePool) : TypePool → Prop
  | refl : Grows p p
  | intern {q : TypePool} {d : TypeData} (h : Grows p q) (hd : ∀ members, d ≠ .union members) :
      Grows p (q.intern d).2
  | union {q : TypePool} {ts : List TypeId} (h : Grows p q) (hts : ∀ t ∈ ts, q.Holds t) :
      Grows p (q.union ts).2

/-- Unions have several members, all different and none a union. -/
structure FlatUnions (p : TypePool) : Prop where
  several ⦃t : TypeId⦄ ⦃ms : List TypeId⦄ (h : p.data? t = some (.union ms)) : 2 ≤ ms.length
  nodup ⦃t : TypeId⦄ ⦃ms : List TypeId⦄ (h : p.data? t = some (.union ms)) : ms.Nodup
  flat ⦃t : TypeId⦄ ⦃ms : List TypeId⦄ (h : p.data? t = some (.union ms)) :
    ∀ m ∈ ms, p.Holds m ∧ p.has m .union = false

/-- On the way to this pool the union of the types was asked for, and the id was the answer. -/
def Joined (p : TypePool) (ts : List TypeId) (u : TypeId) : Prop :=
  ∃ o, Grows fresh o ∧ (∀ t ∈ ts, o.Holds t) ∧ (o.union ts).1 = u ∧ Grows (o.union ts).2 p

/-! ## Lemmas -/

variable {p q r : TypePool} {t u : TypeId} {ts : List TypeId}

theorem holds_iff : p.Holds t ↔ ∃ d, p.data? t = some d := by
  constructor
  · exact fun h => ⟨_, data?_eq_some_iff.2 ⟨h, rfl⟩⟩
  · rintro ⟨d, hd⟩
    exact data?_lt hd

/-- A union is never, its only member, or an entry of its own. -/
theorem union_shapes (p : TypePool) (ts : List TypeId) :
    (p.flatten ts = [] ∧ p.union ts = (.never, p)) ∨
      (∃ t, p.flatten ts = [t] ∧ p.union ts = (t, p)) ∨
        2 ≤ (p.flatten ts).length ∧ p.union ts = p.intern (.union (p.flatten ts)) := by
  unfold union
  match p.flatten ts with
  | [] => exact .inl ⟨rfl, rfl⟩
  | [t] => exact .inr (.inl ⟨t, rfl, rfl⟩)
  | t :: u :: rest => exact .inr (.inr ⟨by simp, rfl⟩)

theorem union_congr {us : List TypeId} (h : p.flatten ts = p.flatten us) :
    p.union ts = p.union us := by
  rw [union, h, union]

/-! ### Growth -/

theorem Grows.trans (hpq : Grows p q) (hqr : Grows q r) : Grows p r := by
  induction hqr with
  | refl => exact hpq
  | intern _ hd ih => exact ih.intern hd
  | union _ hts ih => exact ih.union hts

theorem Grows.data?_of_some (h : Grows p q) {d : TypeData} (ht : p.data? t = some d) :
    q.data? t = some d := by
  induction h with
  | refl => exact ht
  | intern _ _ ih => exact data?_intern_of_some ih _
  | @union q ts _ _ ih =>
    rcases union_shapes q ts with ⟨-, hq⟩ | ⟨v, -, hq⟩ | ⟨-, hq⟩ <;> rw [hq]
    · exact ih
    · exact ih
    · exact data?_intern_of_some ih _

theorem Grows.holds (h : Grows p q) (ht : p.Holds t) : q.Holds t := by
  obtain ⟨d, hd⟩ := holds_iff.1 ht
  exact holds_iff.2 ⟨d, h.data?_of_some hd⟩

theorem Grows.unionMembers_eq (h : Grows p q) (ht : p.Holds t) :
    q.unionMembers t = p.unionMembers t := by
  obtain ⟨d, hd⟩ := holds_iff.1 ht
  simp only [unionMembers, hd, h.data?_of_some hd]

theorem Grows.flatten_eq (h : Grows p q) (hts : ∀ t ∈ ts, p.Holds t) :
    q.flatten ts = p.flatten ts := by
  rw [flatten, flatten, List.flatMap_congr fun t ht => h.unionMembers_eq (hts t ht)]

/-! ### Flat unions -/

theorem flatUnions_fresh : fresh.FlatUnions := by
  have none : ∀ e ∈ fresh.entries.toList, e.data.has .union = false := by decide
  have no_union {t : TypeId} {ms : List TypeId} (h : fresh.data? t = some (.union ms)) : False := by
    obtain ⟨e, he, hd⟩ := exists_entry h
    cases hd ▸ none e he
  exact ⟨fun _ _ h => (no_union h).elim, fun _ _ h => (no_union h).elim,
    fun _ _ h => (no_union h).elim⟩

/-- An addition keeps unions flat if it is no union, or a flat one. -/
theorem flatUnions_intern (hp : p.FlatUnions) {d : TypeData}
    (hd : ∀ ms, d = .union ms →
      2 ≤ ms.length ∧ ms.Nodup ∧ ∀ m ∈ ms, p.Holds m ∧ p.has m .union = false) :
    (p.intern d).2.FlatUnions := by
  have shape {t : TypeId} {ms : List TypeId} (h : (p.intern d).2.data? t = some (.union ms)) :
      2 ≤ ms.length ∧ ms.Nodup ∧ ∀ m ∈ ms, p.Holds m ∧ p.has m .union = false := by
    rcases data?_intern_cases h with h | ⟨-, h⟩
    · exact ⟨hp.several h, hp.nodup h, hp.flat h⟩
    · exact hd ms h.symm
  refine ⟨fun _ _ h => (shape h).1, fun _ _ h => (shape h).2.1,
    fun _ _ h m hm => ?_⟩
  obtain ⟨hm, hmu⟩ := (shape h).2.2 m hm
  exact ⟨Nat.lt_of_lt_of_le hm (size_le_intern p d), (has_intern d hm .union).trans hmu⟩

theorem FlatUnions.unionMembers_ne_nil (hp : p.FlatUnions) (t : TypeId) :
    p.unionMembers t ≠ [] := by
  unfold unionMembers
  split
  next members hd =>
    have := hp.several hd
    exact List.ne_nil_of_length_pos (by omega)
  next => exact List.cons_ne_nil _ _

theorem FlatUnions.of_mem_unionMembers (hp : p.FlatUnions) (ht : p.Holds t) :
    ∀ m ∈ p.unionMembers t, p.Holds m ∧ p.has m .union = false := by
  intro m hm
  cases hu : p.has t .union with
  | false =>
    rw [unionMembers_of_not_union hu, List.mem_singleton] at hm
    exact hm ▸ ⟨ht, hu⟩
  | true =>
    obtain ⟨d, hd, hdu⟩ := has_iff.1 hu
    obtain ⟨members, rfl⟩ := TypeData.has_union_iff.1 hdu
    rw [unionMembers, hd] at hm
    exact hp.flat hd m hm

theorem FlatUnions.of_mem_flatten (hp : p.FlatUnions) (hts : ∀ t ∈ ts, p.Holds t) :
    ∀ m ∈ p.flatten ts, p.Holds m ∧ p.has m .union = false := by
  intro m hm
  obtain ⟨t, ht, hmt⟩ := mem_flatten.1 hm
  exact hp.of_mem_unionMembers (hts t ht) m hmt

theorem FlatUnions.flatten_ne_nil (hp : p.FlatUnions) (hne : ts ≠ []) : p.flatten ts ≠ [] := by
  obtain ⟨t, ht⟩ := List.exists_mem_of_ne_nil _ hne
  obtain ⟨m, hm⟩ := List.exists_mem_of_ne_nil _ (hp.unionMembers_ne_nil t)
  exact List.ne_nil_of_mem (mem_flatten.2 ⟨t, ht, hm⟩)

theorem flatUnions_union (hp : p.FlatUnions) (hts : ∀ t ∈ ts, p.Holds t) :
    (p.union ts).2.FlatUnions := by
  rcases union_shapes p ts with ⟨-, hu⟩ | ⟨t, -, hu⟩ | ⟨hlen, hu⟩ <;> rw [hu]
  · exact hp
  · exact hp
  · refine flatUnions_intern hp fun ms hms => ?_
    cases hms
    exact ⟨hlen, nodup_eraseDups _, hp.of_mem_flatten hts⟩

theorem Grows.flatUnions (h : Grows fresh p) : p.FlatUnions := by
  induction h with
  | refl => exact flatUnions_fresh
  | intern _ hd ih => exact flatUnions_intern ih fun ms hms => absurd hms (hd ms)
  | union _ hts ih => exact flatUnions_union ih hts

/-! ### Joined types -/

theorem Joined.holds (h : p.Joined ts u) : ∀ t ∈ ts, p.Holds t := by
  obtain ⟨o, -, hts, -, hgrow⟩ := h
  exact fun t ht => ((Grows.refl.union hts).trans hgrow).holds (hts t ht)

/-- Asking again gives the same answer and changes nothing. -/
theorem Joined.union_eq (h : p.Joined ts u) : p.union ts = (u, p) := by
  obtain ⟨o, ho, hts, rfl, hgrow⟩ := h
  have hflat : p.flatten ts = o.flatten ts := ((Grows.refl.union hts).trans hgrow).flatten_eq hts
  rcases union_shapes o ts with ⟨hfl, hu⟩ | ⟨t, hfl, hu⟩ | ⟨hlen, hu⟩
  · simp only [union, hflat, hfl]
  · simp only [union, hflat, hfl]
  · rw [hu] at hgrow ⊢
    rcases union_shapes p ts with ⟨hfl, -⟩ | ⟨t, hfl, -⟩ | ⟨-, hp'⟩
    · simp [← hflat, hfl] at hlen
    · simp [← hflat, hfl] at hlen
    · rw [hp', hflat]
      exact intern_of_data? (hgrow.data?_of_some (data?_intern o _))

/-- What a union was joined from, opened, is its members. -/
theorem Joined.unionMembers_eq (h : p.Joined ts u) (hp : p.FlatUnions) (hne : ts ≠ []) :
    p.unionMembers u = p.flatten ts := by
  have hunion := h.union_eq
  rcases union_cases (hp.flatten_ne_nil hne) with ⟨t, hfl, hu⟩ | hu
  · obtain rfl : u = t := congrArg Prod.fst (hunion.symm.trans hu)
    have hmem : u ∈ p.flatten ts := hfl ▸ List.mem_cons_self
    rw [hfl, unionMembers_of_not_union (hp.of_mem_flatten h.holds u hmem).2]
  · have := unionMembers_intern_union (p := p) (p.flatten ts)
    rwa [← hu, hunion] at this

/-- Opening the unions of lists opens the types of the lists. -/
theorem flatten_joined {tss : List (List TypeId)} {us : List TypeId} (hp : p.FlatUnions)
    (hne : ∀ ts ∈ tss, ts ≠ []) (h : List.Forall₂ p.Joined tss us) :
    p.flatten us = p.flatten tss.flatten := by
  have hmembers : us.flatMap p.unionMembers = tss.flatMap p.flatten := by
    induction h with
    | nil => rfl
    | @cons ts u tss us hu _ ih =>
      obtain ⟨hts, htss⟩ := List.forall_mem_cons.1 hne
      rw [List.flatMap_cons, List.flatMap_cons, ih htss, hu.unionMembers_eq hp hts]
  calc p.flatten us = (tss.flatMap p.flatten).eraseDups := by rw [flatten, hmembers]
    _ = (tss.flatMap fun ts => ts.flatMap p.unionMembers).eraseDups :=
      eraseDups_flatMap_eraseDups _ tss
    _ = p.flatten tss.flatten := by
      rw [flatten, ← List.flatMap_id, List.flatMap_assoc]
      rfl

theorem isDefinitely_joined (hp : p.FlatUnions) (hne : ts ≠ []) (hu : p.Joined ts u)
    (pred : TypeId → Bool) : p.isDefinitely u pred ↔ ∀ t ∈ ts, p.isDefinitely t pred := by
  rw [isDefinitely_iff, hu.unionMembers_eq hp hne]
  constructor
  · rintro ⟨-, h⟩ t ht
    exact (isDefinitely_iff ..).2
      ⟨hp.unionMembers_ne_nil t, fun m hm => h m (mem_flatten.2 ⟨t, ht, hm⟩)⟩
  · intro h
    refine ⟨hp.flatten_ne_nil hne, fun m hm => ?_⟩
    obtain ⟨t, ht, hmt⟩ := mem_flatten.1 hm
    exact ((isDefinitely_iff ..).1 (h t ht)).2 m hmt

theorem isPossibly_joined (hp : p.FlatUnions) (hne : ts ≠ []) (hu : p.Joined ts u)
    (pred : TypeId → Bool) : p.isPossibly u pred ↔ ∃ t ∈ ts, p.isPossibly t pred := by
  rw [isPossibly_iff, hu.unionMembers_eq hp hne]
  constructor
  · rintro ⟨m, hm, h⟩
    obtain ⟨t, ht, hmt⟩ := mem_flatten.1 hm
    exact ⟨t, ht, (isPossibly_iff ..).2 ⟨m, hmt, h⟩⟩
  · rintro ⟨t, ht, h⟩
    obtain ⟨m, hmt, h⟩ := (isPossibly_iff ..).1 h
    exact ⟨m, mem_flatten.2 ⟨t, ht, hmt⟩, h⟩

/-! ## Main results -/

/-- In a pool whose unions were joined from types that it held, a union has several members, all
different and none a union; joining joined types joins all that they were joined from; and a
union is definitely what all of its types definitely are, and possibly what one of them possibly
is. -/
theorem union_joins (hp : Grows fresh p) :
    (∀ u ms, p.data? u = some (.union ms) →
      2 ≤ ms.length ∧ ms.Nodup ∧ ∀ m ∈ ms, p.Holds m ∧ ∀ ns, p.data? m ≠ some (.union ns)) ∧
    (∀ tss us u v, tss ≠ [] → (∀ ts ∈ tss, ts ≠ []) → List.Forall₂ p.Joined tss us →
      p.Joined us u → p.Joined tss.flatten v → u = v) ∧
    (∀ ms u (pred : TypeId → Bool), ms ≠ [] → p.Joined ms u →
      (p.isDefinitely u pred ↔ ∀ m ∈ ms, p.isDefinitely m pred) ∧
      (p.isPossibly u pred ↔ ∃ m ∈ ms, p.isPossibly m pred)) := by
  have hflat := hp.flatUnions
  refine ⟨fun u ms hu => ⟨hflat.several hu, hflat.nodup hu, fun m hm => ?_⟩,
    fun tss us u v _ hne hjoined hu hv => ?_, fun ms u pred hne hu =>
      ⟨isDefinitely_joined hflat hne hu pred, isPossibly_joined hflat hne hu pred⟩⟩
  · obtain ⟨hm, hmu⟩ := hflat.flat hu m hm
    refine ⟨hm, fun ns hns => ?_⟩
    simp [has_eq, hns, TypeData.has] at hmu
  · have hsame : p.union us = p.union tss.flatten := union_congr (flatten_joined hflat hne hjoined)
    have : (u, p) = (v, p) := hu.union_eq.symm.trans (hsame.trans hv.union_eq)
    exact congrArg Prod.fst this

/-- Four types joined in pairs and then joined, and joined all at once. -/
theorem union_joins_pairs :
    let p := (fresh.union [.number, .string]).2
    let q := (p.union [.string, .undefined]).2
    let r := (q.union [⟨7⟩, ⟨8⟩]).2
    Grows fresh r ∧ ⟨9⟩ = (r.union [.number, .string, .string, .undefined]).1 ∧
      (r.isPossibly ⟨9⟩ (r.has · .undefined) ↔
        ∃ m ∈ [⟨7⟩, ⟨8⟩], r.isPossibly m (r.has · .undefined)) := by
  intro p q r
  have hp : Grows fresh p := Grows.refl.union (by decide)
  have hq : Grows fresh q := hp.union (by decide +kernel)
  have hqr : Grows q r := Grows.refl.union (by decide +kernel)
  have hpr : Grows p r := (Grows.refl.union (by decide +kernel)).trans hqr
  have hr : Grows fresh r := hp.trans hpr
  have hpairs : List.Forall₂ r.Joined [[.number, .string], [.string, .undefined]] [⟨7⟩, ⟨8⟩] :=
    .cons ⟨fresh, .refl, by decide, by decide +kernel, hpr⟩
      (.cons ⟨p, hp, by decide +kernel, by decide +kernel, hqr⟩ .nil)
  have hpair : r.Joined [⟨7⟩, ⟨8⟩] ⟨9⟩ := ⟨q, hq, by decide +kernel, by decide +kernel, .refl⟩
  have hsame : (r.union [.number, .string, .string, .undefined]).2 = r := by decide +kernel
  have hall : r.Joined [.number, .string, .string, .undefined]
      (r.union [.number, .string, .string, .undefined]).1 :=
    ⟨r, hr, by decide +kernel, rfl, by rw [hsame]; exact .refl⟩
  exact ⟨hr, (union_joins hr).2.1 _ _ _ _ (by decide) (by decide) hpairs hpair hall,
    ((union_joins hr).2.2 _ _ _ (by decide) hpair).2⟩

end TypePool

end ScriptLowering
