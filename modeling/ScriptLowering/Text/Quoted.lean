import ScriptLowering.Text.Hidden

/-!
# Quoted text

A text in double quotes.  Quotes, backslashes and the common controls are
escaped by a letter, every other hidden character by its code point.

    escape c = [c] → c is neither a quote nor a backslash        (escape_eq_self)
-/

namespace ScriptLowering.Text

/-- A digit from `0` to `9` and on from `a` to `f`. -/
def hexDigit (n : Nat) : Char := if n < 10 then Char.ofNat (48 + n) else Char.ofNat (87 + n)

/-- The hexadecimal digits of a number below `16 ^ fuel`, without leading zeros. -/
def hexDigits : Nat → Nat → List Char
  | 0, _ => []
  | fuel + 1, n => if n < 16 then [hexDigit n] else hexDigits fuel (n / 16) ++ [hexDigit (n % 16)]

/-- A character by its code point in braces. -/
def codePointEscape (c : Char) : List Char :=
  ['\\', 'u', '\x7b'] ++ hexDigits 6 c.toNat ++ ['\x7d']

/-- A character inside double quotes. -/
def escape (c : Char) : List Char :=
  if c = '\x00' then ['\\', '0']
  else if c = '\t' then ['\\', 't']
  else if c = '\r' then ['\\', 'r']
  else if c = '\n' then ['\\', 'n']
  else if c = '\\' then ['\\', '\\']
  else if c = '"' then ['\\', '"']
  else if isHidden c then codePointEscape c
  else [c]

/-- The text in double quotes. -/
def quote (s : String) : String := String.ofList ('"' :: s.toList.flatMap escape ++ ['"'])

/-! ## Lemmas -/

/-- What is not escaped stands for itself and is neither quote nor backslash. -/
theorem escape_eq_self {c : Char} (h : escape c = [c]) : c ≠ '"' ∧ c ≠ '\\' := by
  constructor <;> rintro rfl <;> exact absurd h (by decide)

end ScriptLowering.Text
