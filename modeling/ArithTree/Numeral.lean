import ArithTree.Decimal

/-!
# Numerals

A numeral is an integer and, if it was not written in the canonical way, the text it was written
with: `007` and `-0` keep their text, `7` does not need it. Two numerals are equal only if their
texts are equal too.
-/

namespace ArithTree

/-- An integer, with the text it was written with unless that is the canonical one. -/
structure Numeral where
  value : Int
  text : Option String
deriving DecidableEq

namespace Numeral

/-- The numeral of an integer that was computed and not written. -/
def ofInt (n : Int) : Numeral := ⟨n, none⟩

/-- The numeral that `word`, which is read as `n`, stands for. -/
def ofWord (word : List Char) (n : Int) : Numeral :=
  ⟨n, if word = Decimal.digits n then none else some (String.ofList word)⟩

/-- A numeral is printed as it was written, otherwise in the canonical way. An empty text counts
as none. -/
def print? (n : Numeral) : Option String :=
  match n.text with
  | some s => if s.isEmpty then Decimal.write? n.value else some s
  | none => Decimal.write? n.value

@[simp] theorem value_ofInt (n : Int) : (ofInt n).value = n := rfl

@[simp] theorem text_ofInt (n : Int) : (ofInt n).text = none := rfl

@[simp] theorem value_ofWord (word : List Char) (n : Int) : (ofWord word n).value = n := rfl

/-- The text is left out for the canonical word alone. -/
theorem text_ofWord_eq_none_iff {word : List Char} {n : Int} :
    (ofWord word n).text = none ↔ word = Decimal.digits n := by
  unfold ofWord
  split <;> simp_all

end Numeral

end ArithTree
