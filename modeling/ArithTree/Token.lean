import ArithTree.Numeral
import ArithTree.Op
import ArithTree.Text.Blank

/-!
# Tokens

Every word of a text is one token; words are separated by blanks, and nothing else separates
tokens. `Token.ofWord` tells numerals, variables, operators and parentheses apart; a word that is
none of these is a token too, which no expression contains. So is a numeral with more digits than
are read.
-/

namespace ArithTree

/-! ## Kinds of words -/

/-- A word of an expression, or one that cannot stand in an expression. -/
inductive Token where
  | num (n : Numeral)
  | var (name : String)
  | op (o : Op)
  | opening
  | closing
  /-- A numeral of more than `maxDigits` digits. -/
  | tooLong (word : String)
  /-- A word that is of no other kind. -/
  | unknown (word : String)
deriving DecidableEq

/-- A variable's name is made of ASCII letters and digits. -/
def isName (word : List Char) : Bool := !word.isEmpty && word.all Char.isAlphanum

theorem isName_iff {word : List Char} :
    isName word = true ↔ word ≠ [] ∧ ∀ c ∈ word, c.isAlphanum = true := by
  simp [isName]

namespace Token

/-- The token of a word that is neither a numeral nor a variable. -/
def ofSymbol (word : List Char) : Token :=
  match word with
  | ['('] => .opening
  | [')'] => .closing
  | [c] =>
    match Op.ofSymbol? c with
    | some o => .op o
    | none => .unknown (String.ofList word)
  | _ => .unknown (String.ofList word)

/-- The token of a word. A word of digits alone is a numeral and no variable. -/
def ofWord (word : List Char) : Token :=
  match Decimal.read? word with
  | some n =>
    -- Leading zeros count, the sign does not.
    if (Decimal.unsigned word).length ≤ maxDigits then .num (.ofWord word n)
    else .tooLong (String.ofList word)
  | none => if isName word then .var (String.ofList word) else ofSymbol word

/-- The numeral that is too long to be read, if the token is one. -/
def tooLong? : Token → Option String
  | .tooLong word => some word
  | _ => none

end Token

/-! ## The tokens of a text -/

/-- The tokens of a text, one for each of its words. -/
def tokens (s : String) : List Token := (words s.toList).map Token.ofWord

/-- What reading a text for its tokens gives: the tokens before the first numeral that is too long,
and that numeral's word. -/
structure Scan where
  tokens : List Token
  tooLong : Option String
deriving DecidableEq

/-- Reads a text up to the first numeral that is too long. -/
def scan (s : String) : Scan :=
  ⟨(tokens s).takeWhile (·.tooLong?.isNone), (tokens s).findSome? (·.tooLong?)⟩

example : tokens "3 * x1 + ( 007 + $ )" =
    [.num ⟨3, none⟩, .op .mul, .var "x1", .op .add, .opening, .num ⟨7, some "007"⟩, .op .add,
      .unknown "$", .closing] := by
  decide +kernel

end ArithTree
