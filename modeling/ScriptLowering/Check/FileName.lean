import ScriptLowering.Diagnostic.Basic
import ScriptLowering.Source.File

/-!
# File names

A file name needs a known extension, and before its first dot a stem of ASCII
letters, digits, `_` and `-` that is no reserved word of the target.
-/

namespace ScriptLowering.Check

/-- What is wrong with a file name; the first that applies is reported. -/
inductive FileNameProblem where
  | extension
  | emptyStem
  | badCharacter
  | reservedWord
  deriving DecidableEq

def FileNameProblem.message : FileNameProblem → String
  | extension => "expected a `.ts` or `.tsx` extension"
  | emptyStem => "the name before the extension is empty"
  | badCharacter => "only ASCII letters, digits, `_` and `-` are allowed"
  | reservedWord => "the name is a reserved word in the target language"

/-- The reserved words of the target. -/
def reservedWords : List String :=
  ["and", "break", "do", "else", "elseif", "end", "false", "for", "function", "if", "in", "local",
    "nil", "not", "or", "repeat", "return", "then", "true", "until", "while"]

def extensions : List String := ["ts", "tsx"]

def isNameChar (c : Char) : Bool := c.isAlphanum || c == '_' || c == '-'

/-- What comes before the first dot. -/
def stem (name : List Char) : List Char := name.takeWhile (· != '.')

/-- What comes after the last dot; nothing if there is no dot. -/
def extensionOf (name : List Char) : List Char := (Text.afterLast? (· == '.') name).getD []

def fileNameProblem? (name : List Char) : Option FileNameProblem :=
  if String.ofList (extensionOf name) ∉ extensions then some .extension
  else if stem name = [] then some .emptyStem
  else if !(stem name).all isNameChar then some .badCharacter
  else if String.ofList (stem name) ∈ reservedWords then some .reservedWord
  else none

/-- Reports a bad file name. -/
def checkFileName (f : Source.File) : List Diagnostic :=
  match fileNameProblem? f.fileName.toList with
  | none => []
  | some problem =>
    [.error .badFileName .dummy ("invalid file name `" ++ f.fileName ++ "`: " ++ problem.message)]

/-! ## Lemmas -/

theorem length_checkFileName_le (f : Source.File) : (checkFileName f).length ≤ 1 := by
  unfold checkFileName
  split <;> simp

theorem fileNameProblem?_eq_none_iff (name : List Char) :
    fileNameProblem? name = none ↔
      String.ofList (extensionOf name) ∈ extensions ∧ stem name ≠ [] ∧
        (∀ c ∈ stem name, isNameChar c) ∧ String.ofList (stem name) ∉ reservedWords := by
  unfold fileNameProblem?
  split
  · simp_all
  · split
    · simp_all
    · split
      next h =>
        obtain ⟨c, hc, hn⟩ : ∃ c ∈ stem name, isNameChar c = false := by simpa using h
        simp only [reduceCtorEq, false_iff, not_and]
        intro _ _ hall
        simp [hall c hc] at hn
      next => split <;> simp_all

end ScriptLowering.Check
