import ArithTree.Limits

/-!
# Decimal integers

An integer is written as an optional minus sign and its decimal digits, without leading zeros
(`Decimal.digits`). Any other digit string is read as well (`Decimal.read?`), so one integer has
many spellings; `digits` gives the shortest. Only the writer has a limit here, in `Decimal.write?`.

Main statement: what `digits` writes, `read?` reads back (`read?_digits`).
-/

namespace ArithTree.Decimal

/-- The text of `n`: a minus sign if it is negative, then the digits of its magnitude. -/
def digits (n : Int) : List Char :=
  if n < 0 then '-' :: Nat.toDigits 10 n.natAbs else Nat.toDigits 10 n.natAbs

/-- A numeral's text without its sign. -/
def unsigned : List Char → List Char
  | '-' :: ds => ds
  | ds => ds

/-- At least one character, and all of them decimal digits. -/
def isDigits (ds : List Char) : Bool := !ds.isEmpty && ds.all Char.isDigit

/-- The number that decimal digits stand for, the most significant first. -/
def value (ds : List Char) : Nat := Nat.ofDigitChars 10 ds 0

/-- The integer that an optional minus sign and decimal digits stand for. -/
def read? : List Char → Option Int
  | '-' :: ds => if isDigits ds then some (-Int.ofNat (value ds)) else none
  | ds => if isDigits ds then some (Int.ofNat (value ds)) else none

/-- The text of `n`, unless it has more than `maxDigits` digits. -/
def write? (n : Int) : Option String :=
  let text := digits n
  if (unsigned text).length ≤ maxDigits then some (String.ofList text) else none

/-! ## Reading what was written -/

theorem isDigits_iff {ds : List Char} :
    isDigits ds = true ↔ ds ≠ [] ∧ ∀ c ∈ ds, c.isDigit = true := by
  simp [isDigits]

theorem isDigits_toDigits (n : Nat) : isDigits (Nat.toDigits 10 n) = true :=
  isDigits_iff.2
    ⟨Nat.toDigits_ne_nil, fun _ hc => Nat.isDigit_of_mem_toDigits (by omega) (by omega) hc⟩

theorem value_toDigits (n : Nat) : value (Nat.toDigits 10 n) = n :=
  Nat.ofDigitChars_ten_toDigits

theorem eq_minus_or_unsigned (word : List Char) :
    word = '-' :: unsigned word ∨ unsigned word = word := by
  unfold unsigned
  split
  · exact .inl rfl
  · exact .inr rfl

/-- Digits do not start with a sign. -/
theorem unsigned_of_isDigits {ds : List Char} (h : isDigits ds = true) : unsigned ds = ds := by
  unfold unsigned
  split
  · exact absurd ((isDigits_iff.1 h).2 '-' List.mem_cons_self) (by decide)
  · rfl

/-- Only negative integers are written with a sign. -/
theorem unsigned_toDigits (n : Nat) : unsigned (Nat.toDigits 10 n) = Nat.toDigits 10 n :=
  unsigned_of_isDigits (isDigits_toDigits n)

/-- The limit of the writer is on the digits of the magnitude. -/
theorem unsigned_digits (n : Int) : unsigned (digits n) = Nat.toDigits 10 n.natAbs := by
  unfold digits
  split
  · rfl
  · exact unsigned_toDigits _

/-- A digit string is read as its value. -/
theorem read?_of_isDigits {ds : List Char} (h : isDigits ds = true) :
    read? ds = some (Int.ofNat (value ds)) := by
  unfold read?
  split
  · exact absurd ((isDigits_iff.1 h).2 '-' List.mem_cons_self) (by decide)
  · rw [if_pos h]

/-- A digit string after a minus sign is read as the negative of its value. -/
theorem read?_minus_cons {ds : List Char} (h : isDigits ds = true) :
    read? ('-' :: ds) = some (-Int.ofNat (value ds)) := by
  rw [read?, if_pos h]

/-- What is written for an integer is read back as that integer. -/
theorem read?_digits (n : Int) : read? (digits n) = some n := by
  unfold digits
  split
  · next h =>
    rw [read?_minus_cons (isDigits_toDigits _), value_toDigits]
    exact congrArg some (show -(n.natAbs : Int) = n by omega)
  · next h =>
    rw [read?_of_isDigits (isDigits_toDigits _), value_toDigits]
    exact congrArg some (show (n.natAbs : Int) = n by omega)

end ArithTree.Decimal
