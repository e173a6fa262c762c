import ArithTree.Text.Printable

/-!
# Quoted text

A text is quoted between single quotes, or between double quotes if it holds a single quote and no
double quote. Inside, a backslash stands before the quote in use and before a backslash; line feed,
carriage return and tab have a letter; every other unprintable character is written as its code
point in lower-case hexadecimal digits, as many as its size asks for: two after `x`, four after `u`,
eight after `U`.
-/

namespace ArithTree

/-! ## Escapes -/

/-- The lowest `width` hexadecimal digits of `n`, in lower case. -/
def hexDigits : (width n : Nat) → List Char
  | 0, _ => []
  | width + 1, n => hexDigits width (n / 16) ++ [Nat.digitChar (n % 16)]

/-- The escape for a code point. -/
def escapeCode (n : Nat) : List Char :=
  if n < 0x100 then '\\' :: 'x' :: hexDigits 2 n
  else if n < 0x10000 then '\\' :: 'u' :: hexDigits 4 n
  else '\\' :: 'U' :: hexDigits 8 n

/-- How a character is written between two characters `mark`. -/
def escapeChar (mark c : Char) : List Char :=
  if c = mark ∨ c = '\\' then ['\\', c]
  else if c = '\n' then ['\\', 'n']
  else if c = '\r' then ['\\', 'r']
  else if c = '\t' then ['\\', 't']
  else if isPrintable c then [c]
  else escapeCode c.toNat

/-! ## Quotation -/

/-- The quotation mark that a text is put between. -/
def quoteMark (cs : List Char) : Char :=
  if '\'' ∈ cs ∧ '"' ∉ cs then '"' else '\''

/-- A text between quotation marks, with its marks, backslashes and unprintable characters
escaped. -/
def quote (s : String) : String :=
  let mark := quoteMark s.toList
  String.ofList (mark :: s.toList.flatMap (escapeChar mark) ++ [mark])

example : quote "it's" = "\"it's\"" := by decide +kernel

example : quote "a\\b'\"\n" = "'a\\\\b\\'\"\\n'" := by decide +kernel

example : quote "\x00\u200b😀" = "'\\x00\\u200b😀'" := by decide +kernel

end ArithTree
