/-!
# Splitting text

The part of a text after the last character of a class.

    afterLast? p (l ++ c :: r) = some r,  for p c and no p in r        (afterLast?_append)
    afterLast? p cs = none ↔ no character of cs is in p                 (afterLast?_eq_none_iff)
    afterLast? p (l ++ c :: r) = the last part of r or r, for p c       (afterLast?_append_cons)
-/

namespace ScriptLowering.Text

def afterLast? (p : Char → Bool) : List Char → Option (List Char)
  | [] => none
  | c :: cs => (afterLast? p cs).or (if p c then some cs else none)

/-! ## Lemmas -/

theorem afterLast?_eq_none_iff {p : Char → Bool} {cs : List Char} :
    afterLast? p cs = none ↔ ∀ c ∈ cs, p c = false := by
  induction cs with
  | nil => simp [afterLast?]
  | cons c cs ih => simp [afterLast?, ih, and_comm]

/-- The text splits into what comes before, the character, and the part found. -/
theorem afterLast?_eq_some_iff {p : Char → Bool} {cs r : List Char} :
    afterLast? p cs = some r ↔ (∃ l c, cs = l ++ c :: r ∧ p c) ∧ ∀ c ∈ r, p c = false := by
  induction cs with
  | nil => simp [afterLast?]
  | cons c cs ih =>
    rw [afterLast?, Option.or_eq_some_iff, ih, afterLast?_eq_none_iff]
    constructor
    · rintro (⟨⟨l, d, rfl, hd⟩, hr⟩ | ⟨hn, h⟩)
      · exact ⟨⟨c :: l, d, rfl, hd⟩, hr⟩
      · split at h
        next hc =>
          cases h
          exact ⟨⟨[], c, rfl, hc⟩, hn⟩
        next => cases h
    · rintro ⟨⟨l, d, hl, hd⟩, hr⟩
      cases l with
      | nil =>
        cases hl
        exact .inr ⟨hr, by simp [hd]⟩
      | cons e l =>
        cases hl
        exact .inl ⟨⟨l, d, rfl, hd⟩, hr⟩

theorem afterLast?_append {p : Char → Bool} (l : List Char) {c : Char} {r : List Char}
    (hc : p c) (hr : ∀ d ∈ r, p d = false) : afterLast? p (l ++ c :: r) = some r :=
  afterLast?_eq_some_iff.2 ⟨⟨l, c, rfl, hc⟩, hr⟩

/-- Past a character of the class, the last part is that of the rest, or all of the rest. -/
theorem afterLast?_append_cons {p : Char → Bool} (l : List Char) {c : Char} (r : List Char)
    (hc : p c) : afterLast? p (l ++ c :: r) = some ((afterLast? p r).getD r) := by
  cases h : afterLast? p r with
  | none => exact afterLast?_append l hc (afterLast?_eq_none_iff.1 h)
  | some t =>
    obtain ⟨⟨l', d, rfl, hd⟩, ht⟩ := afterLast?_eq_some_iff.1 h
    exact afterLast?_eq_some_iff.2 ⟨⟨l ++ c :: l', d, by simp, hd⟩, ht⟩

/-- The last part, or the whole text, is the one end free of the class that is all of the text
or follows a character of the class. -/
theorem getD_afterLast?_eq_iff {p : Char → Bool} {cs r : List Char} :
    (afterLast? p cs).getD cs = r ↔
      (cs = r ∨ ∃ l c, p c ∧ cs = l ++ c :: r) ∧ ∀ c ∈ r, p c = false := by
  constructor
  · rintro rfl
    cases h : afterLast? p cs with
    | none => exact ⟨.inl rfl, afterLast?_eq_none_iff.1 h⟩
    | some r =>
      obtain ⟨⟨l, c, hl, hc⟩, hr⟩ := afterLast?_eq_some_iff.1 h
      exact ⟨.inr ⟨l, c, hc, hl⟩, hr⟩
  · rintro ⟨rfl | ⟨l, c, hc, rfl⟩, hr⟩
    · rw [afterLast?_eq_none_iff.2 hr, Option.getD_none]
    · rw [afterLast?_append l hc hr, Option.getD_some]

end ScriptLowering.Text
