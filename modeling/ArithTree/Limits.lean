/-!
# Limits on integers and on passes

Integers are unbounded, but only those of at most `maxDigits` decimal digits are read or written.
Arithmetic on constants therefore keeps to integers that are `Compact`: those of at most `maxBits`
bits. As `2 ^ maxBits ≤ 10 ^ maxDigits`, each of them can be written.
-/

namespace ArithTree

/-- The greatest number of decimal digits that are read or written. -/
def maxDigits : Nat := 4300

/-- The greatest number of bits of a computed constant: the greatest `b` with
`2 ^ b ≤ 10 ^ maxDigits`. -/
def maxBits : Nat := 14284

/-- The number of passes after which a simplification gives up, unless told otherwise. -/
def maxPasses : Nat := 1000

/-- The number of binary digits of the magnitude of `n`; zero has none. -/
def bitLength (n : Int) : Nat :=
  if n = 0 then 0 else n.natAbs.log2 + 1

/-- An integer of at most `maxBits` bits; only such constants are computed. -/
def Compact (n : Int) : Prop := bitLength n ≤ maxBits

instance (n : Int) : Decidable (Compact n) := Nat.decLe _ _

/-- A magnitude has at most `b` bits if it is below `2 ^ b`. -/
theorem bitLength_le_iff {n : Int} {b : Nat} : bitLength n ≤ b ↔ n.natAbs < Nat.pow 2 b := by
  unfold bitLength
  split
  · next h => simp only [h, Int.natAbs_zero, Nat.zero_le, true_iff]; exact Nat.two_pow_pos b
  · next h => rw [Nat.succ_le_iff, Nat.log2_lt (by omega), Nat.pow_eq]

/-- An integer is compact if its magnitude is below `2 ^ maxBits`. -/
theorem compact_iff {n : Int} : Compact n ↔ n.natAbs < Nat.pow 2 maxBits :=
  bitLength_le_iff

/-- No integer of smaller magnitude has more bits. -/
theorem Compact.mono {m n : Int} (compact : Compact n) (le : m.natAbs ≤ n.natAbs) : Compact m :=
  compact_iff.2 (Nat.lt_of_le_of_lt le (compact_iff.1 compact))

end ArithTree
