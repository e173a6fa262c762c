import ArithTree.Arithmetic
import ArithTree.Proofs.Reading.Words
import Mathlib.Algebra.Ring.Nat

/-!
# Integers that can be written

An integer can be written if its magnitude is below `Decimal.bound`. So can all numerals that are
read from a text, for they are read only up to as many digits, and all integers that arithmetic on
constants computes, for they are compact. Therefore every token is printed as its word
(`Token.print?_ofWord`).
-/

namespace ArithTree

namespace Decimal

/-- The least magnitude that is too long to be written. -/
def bound : Nat := 10 ^ maxDigits

theorem two_lt_bound : 2 < bound := by decide +kernel

theorem one_lt_bound : 1 < bound := Nat.lt_of_succ_lt two_lt_bound

theorem length_digits_le_iff {n : Int} :
    (unsigned (digits n)).length ≤ maxDigits ↔ n.natAbs < bound := by
  rw [unsigned_digits, bound, Nat.length_toDigits_le_iff (by decide) (by decide)]

theorem write?_eq_some_iff {n : Int} {text : String} :
    write? n = some text ↔ n.natAbs < bound ∧ text = String.ofList (digits n) := by
  rw [← length_digits_le_iff, write?]
  split
  · next short => simp [short, eq_comm]
  · next long => simp [long]

theorem write?_isSome_iff {n : Int} : (write? n).isSome = true ↔ n.natAbs < bound := by
  simp [Option.isSome_iff_exists, write?_eq_some_iff]

theorem value_lt {ds : List Char} (h : ∀ c ∈ ds, c.isDigit = true) : value ds < 10 ^ ds.length := by
  induction ds with
  | nil => simp [value]
  | cons c ds ih =>
    rw [List.forall_mem_cons] at h
    have digit : c.toNat - '0'.toNat ≤ 9 := by
      have := (Char.isDigit_iff_toNat.1 h.1).2
      have : '9'.toNat - '0'.toNat = 9 := by decide
      omega
    have rest := ih h.2
    -- The first digit counts as many times as a digit more makes room for.
    have first := Nat.mul_le_mul_left (10 ^ ds.length) digit
    unfold value at *
    rw [Nat.ofDigitChars_cons, Nat.ofDigitChars_eq_ofDigitChars_zero, Nat.mul_zero, Nat.zero_add,
      List.length_cons, Nat.pow_succ]
    omega

theorem natAbs_lt_of_read? {word : List Char} {n : Int} (h : read? word = some n) :
    n.natAbs < 10 ^ (unsigned word).length := by
  unfold read? at h
  unfold unsigned
  split at h
  · next ds =>
    split at h
    · next digits =>
      cases h
      rw [Int.natAbs_neg]
      exact value_lt (isDigits_iff.1 digits).2
    · cases h
  · split at h
    · next digits =>
      cases h
      exact value_lt (isDigits_iff.1 digits).2
    · cases h

end Decimal

open Decimal

/-- Compact integers can be written. -/
theorem natAbs_lt_of_compact {n : Int} (h : Compact n) : n.natAbs < bound := by
  have le : Nat.pow 2 maxBits ≤ bound := by decide +kernel
  exact Nat.lt_of_lt_of_le (compact_iff.1 h) le

theorem natAbs_pow_lt {base : Int} {exponent bits : Nat} (pos : bits ≠ 0)
    (h : base.natAbs < 2 ∨ exponent * bitLength base ≤ bits) :
    (Int.pow base exponent).natAbs < Nat.pow 2 bits := by
  have one : 1 < 2 ^ bits := Nat.one_lt_pow pos (by decide)
  rw [show Int.pow base exponent = base ^ exponent from rfl, Int.natAbs_pow, Nat.pow_eq]
  rcases h with small | few
  · have := Nat.pow_le_pow_left (Nat.le_of_lt_succ small) exponent
    rw [Nat.one_pow] at this
    omega
  · cases exponent with
    | zero => exact one
    | succ e =>
      have size := bitLength_le_iff.1 (Nat.le_refl (bitLength base))
      calc base.natAbs ^ (e + 1) < (2 ^ bitLength base) ^ (e + 1) :=
            Nat.pow_lt_pow_left size (Nat.succ_ne_zero e)
        _ = 2 ^ ((e + 1) * bitLength base) := by rw [← Nat.pow_mul, Nat.mul_comm]
        _ ≤ 2 ^ bits := Nat.pow_le_pow_right (by decide) few

/-- A power that is sure to be compact is compact. -/
theorem compact_power {base : Int} {exponent : Nat} (h : PowerCompact base exponent) :
    Compact (power base exponent) := by
  rw [compact_iff, power_eq]
  exact natAbs_pow_lt (by decide) h

/-- A numeral is printed as the word that it is read from. -/
theorem Numeral.print?_ofWord {word : List Char} {n : Int} (nonempty : word ≠ [])
    (short : n.natAbs < bound) : (ofWord word n).print? = some (String.ofList word) := by
  unfold ofWord print?
  by_cases canonical : word = digits n
  · simpa [canonical] using write?_eq_some_iff.2 ⟨short, rfl⟩
  · simp [canonical, nonempty]

/-- A numeral that is read can be written. -/
theorem natAbs_lt_of_token {word : List Char} {n : Numeral} (h : Token.ofWord word = .num n) :
    n.value.natAbs < bound := by
  cases Token.standsFor_of_ofWord_eq h with
  | num read short =>
    exact Nat.lt_of_lt_of_le (natAbs_lt_of_read? read) (Nat.pow_le_pow_right (by decide) short)

namespace Token

/-- The word that a token is printed as, unless it is a numeral that cannot be written. -/
def print? : Token → Option String
  | .num n => n.print?
  | .var name => some name
  | .op o => some o.symbol.toString
  | .opening => some "("
  | .closing => some ")"
  | .tooLong word | .unknown word => some word

/-- The token of a word is printed as that word, however it was spelled. -/
theorem print?_ofWord {w : List Char} (hw : w ≠ []) :
    (ofWord w).print? = some (String.ofList w) := by
  have stands := standsFor_ofWord w
  generalize token : ofWord w = t at stands
  cases stands with
  | num => exact Numeral.print?_ofWord hw (natAbs_lt_of_token token)
  | op o => cases o <;> rfl
  | _ => rfl

end Token

end ArithTree
