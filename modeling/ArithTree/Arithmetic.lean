import ArithTree.Limits
import ArithTree.Op

/-!
# Exact arithmetic on integers

The operators' values on integers. A quotient that is not an integer is a fraction in lowest terms
with a positive denominator. Quotients by zero and powers with negative exponents have no value
(`Op.Defined`). `Op.exact` takes a proof that there is one, so it is never asked for a value that
does not exist; `Op.value` is for arguments of which nothing is known.
-/

namespace ArithTree

/-- The value of an operator on integers. -/
inductive Value where
  | whole (n : Int)
  | fraction (num den : Int)
deriving DecidableEq

/-- The exact quotient of two integers. A fraction is reduced by the greatest common divisor, taken
with the sign of the divisor. -/
def quotient (a b : Int) (_ : b ≠ 0) : Value :=
  if a % b = 0 then .whole (a / b)
  else
    let common : Int := if b < 0 then -Int.ofNat (Int.gcd a b) else Int.ofNat (Int.gcd a b)
    .fraction (a / common) (b / common)

/-- A power with a natural exponent. A base of magnitude 0 or 1 is not multiplied out, since its
exponent may be huge. -/
def power (base : Int) (exponent : Nat) : Int :=
  if base.natAbs < 2 then
    if exponent = 0 then 1 else if exponent % 2 = 0 then base * base else base
  else Int.pow base exponent

/-- Is a power sure to be compact? A base of `n` bits to the power `e` has at most `e * n` bits. -/
def PowerCompact (base : Int) (exponent : Nat) : Prop :=
  base.natAbs < 2 ∨ exponent * bitLength base ≤ maxBits

instance (base : Int) (exponent : Nat) : Decidable (PowerCompact base exponent) :=
  @instDecidableOr _ _ (Nat.decLt _ _) (Nat.decLe _ _)

/-- Why an operator has no value on two integers. -/
inductive ArithmeticError where
  | divisionByZero
  | negativeExponent
deriving DecidableEq

/-- The value of an operator on two integers. -/
def Op.value (op : Op) (a b : Int) : Except ArithmeticError Value :=
  match op with
  | .add => .ok (.whole (a + b))
  | .sub => .ok (.whole (a - b))
  | .mul => .ok (.whole (a * b))
  | .div => if h : b = 0 then .error .divisionByZero else .ok (quotient a b h)
  | .pow => if b < 0 then .error .negativeExponent else .ok (.whole (power a b.toNat))

/-- An operator has a value, on any integer and this one. -/
def Op.Defined : Op → Int → Prop
  | .add, _ | .sub, _ | .mul, _ => True
  | .div, b => b ≠ 0
  | .pow, b => 0 ≤ b

/-- The value of an operator on two integers on which it has one. -/
def Op.exact (op : Op) (a b : Int) (h : op.Defined b) : Value :=
  match op, h with
  | .add, _ => .whole (a + b)
  | .sub, _ => .whole (a - b)
  | .mul, _ => .whole (a * b)
  | .div, h => quotient a b h
  | .pow, _ => .whole (power a b.toNat)

/-- An operator that has a value is not asked for it in vain. -/
theorem Op.value_eq {op : Op} {b : Int} (h : op.Defined b) (a : Int) :
    op.value a b = .ok (op.exact a b h) := by
  cases op with
  | add | sub | mul => rfl
  | div => exact dif_neg h
  | pow => exact if_neg (Int.not_lt.2 h)

/-- The shortcut for small bases does not change the power. -/
theorem power_eq (base : Int) (exponent : Nat) : power base exponent = Int.pow base exponent := by
  unfold power
  split
  · next h =>
    have small : base = 0 ∨ base = 1 ∨ base = -1 := by omega
    induction exponent with
    | zero => exact (Int.pow_zero base).symm
    | succ e ih =>
      rw [show Int.pow base (e + 1) = Int.pow base e * base from Int.pow_succ base e, ← ih]
      rcases small with rfl | rfl | rfl <;> grind
  · rfl

example : quotient 12 4 (by decide) = .whole 3 ∧ quotient 3 9 (by decide) = .fraction 1 3 ∧
    quotient 4 (-6) (by decide) = .fraction (-2) 3 := by
  decide

end ArithTree
