import ScriptLowering.Check.FileName

/-!
# Accepted file names

The check cuts the stem at the first dot of the base name and the extension at
the last one.  Both cuts together accept one grammar: a stem, a dot, and a tail
that is an extension or ends in one.

    baseName path = base ↔ IsBaseName base path                       (baseName_eq_iff)
    stem (s ++ '.' :: r) = s, for s without a dot                     (stem_append)
    the extension of s ++ '.' :: r is the last part of r              (extensionOf_append)
    fileNameProblem? name = none ↔ IsModuleName name
                                           (fileNameProblem?_eq_none_iff_isModuleName)
-/

namespace ScriptLowering

namespace Source

/-- A base is free of separators and is the whole path or what follows one. -/
structure IsBaseName (base path : List Char) : Prop where
  no_separator : ∀ c ∈ base, c ≠ '/' ∧ c ≠ '\\'
  ends : path = base ∨ ∃ dir sep, (sep = '/' ∨ sep = '\\') ∧ path = dir ++ sep :: base

theorem baseName_eq_iff {path base : List Char} : baseName path = base ↔ IsBaseName base path := by
  have hsep (c : Char) : isSeparator c = true ↔ c = '/' ∨ c = '\\' := by simp [isSeparator]
  rw [baseName, Text.getD_afterLast?_eq_iff]
  simp only [hsep, ← Bool.not_eq_true, not_or]
  constructor
  · rintro ⟨h, hb⟩
    exact ⟨hb, h⟩
  · rintro ⟨hb, h⟩
    exact ⟨h, hb⟩

theorem File.toList_fileName (f : File) : f.fileName.toList = baseName f.path.toList :=
  String.toList_ofList

theorem File.isBaseName_fileName (f : File) : IsBaseName f.fileName.toList f.path.toList :=
  baseName_eq_iff.1 f.toList_fileName.symm

theorem File.fileName_of_isBaseName {f : File} {base : List Char}
    (h : IsBaseName base f.path.toList) : f.fileName.toList = base :=
  f.toList_fileName.trans (baseName_eq_iff.2 h)

end Source

namespace Check

/-! ### The grammar -/

/-- An ASCII letter or digit, `_` or `-`. -/
def StemChar (c : Char) : Prop :=
  ('A' ≤ c ∧ c ≤ 'Z') ∨ ('a' ≤ c ∧ c ≤ 'z') ∨ ('0' ≤ c ∧ c ≤ '9') ∨ c = '_' ∨ c = '-'

instance : DecidablePred StemChar := fun _ => inferInstanceAs (Decidable (_ ∨ _))

/-- A non-empty text of stem characters that is no reserved word of the target. -/
structure IsStem (s : List Char) : Prop where
  ne_nil : s ≠ []
  chars : ∀ c ∈ s, StemChar c
  not_reserved : String.ofList s ∉ reservedWords

/-- An extension, or any text that ends in a dot and an extension. -/
def IsTail (r : List Char) : Prop :=
  ∃ e ∈ ["ts".toList, "tsx".toList], r = e ∨ '.' :: e <:+ r

/-- A stem, a dot and a tail. -/
def IsModuleName (name : List Char) : Prop := ∃ s r, name = s ++ '.' :: r ∧ IsStem s ∧ IsTail r

theorem isNameChar_iff {c : Char} : isNameChar c ↔ StemChar c := by
  delta isNameChar Char.isAlphanum Char.isAlpha Char.isUpper Char.isLower Char.isDigit
  simp only [StemChar, Bool.or_eq_true, Bool.and_eq_true, decide_eq_true_eq, beq_iff_eq,
    ge_iff_le, Char.le_def, or_assoc]

theorem StemChar.ne_dot {c : Char} (h : StemChar c) : c ≠ '.' := by
  rintro rfl
  revert h
  decide

/-! ### The two cuts -/

theorem stem_append {s r : List Char} (h : ∀ c ∈ s, c ≠ '.') : stem (s ++ '.' :: r) = s := by
  rw [stem, List.takeWhile_append_of_pos (by simpa using h), List.takeWhile_cons_of_neg (by simp),
    List.append_nil]

theorem eq_stem_append {name : List Char} (h : '.' ∈ name) : ∃ r, name = stem name ++ '.' :: r := by
  induction name with
  | nil => cases h
  | cons c cs ih =>
    by_cases hc : c = '.'
    · exact ⟨cs, by simp [stem, hc]⟩
    · obtain ⟨r, hr⟩ := ih (by simpa [Ne.symm hc] using h)
      exact ⟨r, by simpa [stem, hc] using hr⟩

/-- A text without a dot has no extension. -/
theorem dot_mem_of_extensionOf {name : List Char} (h : extensionOf name ≠ []) : '.' ∈ name := by
  cases hl : Text.afterLast? (· == '.') name with
  | none => exact absurd (by rw [extensionOf, hl, Option.getD_none]) h
  | some e =>
    obtain ⟨⟨l, c, rfl, hc⟩, -⟩ := Text.afterLast?_eq_some_iff.1 hl
    simp_all

theorem extensionOf_append (s r : List Char) :
    extensionOf (s ++ '.' :: r) = (Text.afterLast? (· == '.') r).getD r := by
  rw [extensionOf, Text.afterLast?_append_cons s r rfl, Option.getD_some]

/-- The last part of the rest is an extension exactly if the rest is a tail. -/
theorem extensionOf_mem_iff (s r : List Char) :
    String.ofList (extensionOf (s ++ '.' :: r)) ∈ extensions ↔ IsTail r := by
  have cut (e : List Char) (he : '.' ∉ e) :
      extensionOf (s ++ '.' :: r) = e ↔ r = e ∨ '.' :: e <:+ r := by
    rw [extensionOf_append, Text.getD_afterLast?_eq_iff]
    have hdot : ∀ c ∈ e, (c == '.') = false := by
      intro c hc
      simpa using fun h : c = '.' => he (h ▸ hc)
    have hends : (∃ l c, (c == '.') = true ∧ r = l ++ c :: e) ↔ '.' :: e <:+ r := by
      simp [List.IsSuffix, eq_comm (a := r)]
    rw [hends, and_iff_left hdot]
  have ext : String.ofList (extensionOf (s ++ '.' :: r)) ∈ extensions ↔
      ∃ e ∈ ["ts".toList, "tsx".toList], extensionOf (s ++ '.' :: r) = e := by
    simp [extensions, ← String.toList_inj]
  refine ext.trans (exists_congr fun e => and_congr_right fun he => cut e ?_)
  revert e
  decide

/-! ### The check -/

theorem fileNameProblem?_eq_none_iff_isModuleName {name : List Char} :
    fileNameProblem? name = none ↔ IsModuleName name := by
  rw [fileNameProblem?_eq_none_iff]
  constructor
  · rintro ⟨hext, hne, hchars, hres⟩
    have hdot : extensionOf name ≠ [] := by
      intro h
      simp [h, extensions] at hext
    obtain ⟨r, hr⟩ := eq_stem_append (dot_mem_of_extensionOf hdot)
    refine ⟨stem name, r, hr, ⟨hne, fun c hc => isNameChar_iff.1 (hchars c hc), hres⟩, ?_⟩
    rwa [hr, extensionOf_mem_iff] at hext
  · rintro ⟨s, r, rfl, hs, hr⟩
    have hstem : stem (s ++ '.' :: r) = s := stem_append fun c hc => (hs.chars c hc).ne_dot
    rw [hstem]
    exact ⟨(extensionOf_mem_iff s r).2 hr, hs.ne_nil,
      fun c hc => isNameChar_iff.2 (hs.chars c hc), hs.not_reserved⟩

theorem checkFileName_of_none {f : Source.File} (h : fileNameProblem? f.fileName.toList = none) :
    checkFileName f = [] := by
  delta checkFileName
  rw [h]

theorem checkFileName_of_problem {f : Source.File} {problem : FileNameProblem}
    (h : fileNameProblem? f.fileName.toList = some problem) :
    ∃ message, checkFileName f = [.error .badFileName .dummy message] := by
  delta checkFileName
  rw [h]
  exact ⟨_, rfl⟩

theorem checkFileName_congr {f g : Source.File} (h : g.fileName = f.fileName) :
    checkFileName g = checkFileName f := by
  delta checkFileName
  rw [h]

/-- The check reports nothing about the names of the grammar and one error about any other; it
sees nothing of the file but its base name. -/
theorem checkFileName_isModuleName (f : Source.File) :
    ∃ base, Source.IsBaseName base f.path.toList ∧
      (checkFileName f = [] ↔ IsModuleName base) ∧
      (¬IsModuleName base →
        ∃ d, checkFileName f = [d] ∧ d.isError ∧ d.kind = .badFileName) ∧
      ∀ g : Source.File, Source.IsBaseName base g.path.toList →
        checkFileName g = checkFileName f := by
  have same (g : Source.File) (hg : Source.IsBaseName f.fileName.toList g.path.toList) :
      checkFileName g = checkFileName f :=
    checkFileName_congr (String.toList_inj.1 (Source.File.fileName_of_isBaseName hg))
  refine ⟨f.fileName.toList, f.isBaseName_fileName, ?_⟩
  rw [← fileNameProblem?_eq_none_iff_isModuleName]
  cases h : fileNameProblem? f.fileName.toList with
  | none => simpa [checkFileName_of_none h] using same
  | some problem =>
    obtain ⟨message, hd⟩ := checkFileName_of_problem h
    exact ⟨by simp [hd], fun _ => ⟨_, hd, rfl, rfl⟩, same⟩

end Check

end ScriptLowering
