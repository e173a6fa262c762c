import ArithTree.Arithmetic
import Mathlib.Tactic.Linarith

/-!
# Quotients in lowest terms

The exact quotient of two integers is the integer that the division leaves without a remainder, and
else the one fraction in lowest terms with a denominator above one that has the same value
(`quotient_cases`). A fraction in lowest terms is its own quotient (`quotient_of_coprime`).
-/

namespace ArithTree

theorem quotient_cases (a b : Int) (h : b ≠ 0) :
    (∃ q, quotient a b h = .whole q ∧ a = q * b) ∨
      ∃ p q, quotient a b h = .fraction p q ∧ 2 ≤ q ∧ Int.gcd p q = 1 ∧ p * b = a * q := by
  unfold quotient
  by_cases rem : a % b = 0
  · exact .inl ⟨a / b, by rw [if_pos rem], (Int.ediv_mul_cancel (Int.dvd_of_emod_eq_zero rem)).symm⟩
  · right
    rw [if_neg rem]
    -- The common divisor has the sign of the denominator, whose quotient by it is thus positive.
    obtain ⟨g, hg, size, sign⟩ : ∃ g : Int,
        (if b < 0 then -Int.ofNat (Int.gcd a b) else Int.ofNat (Int.gcd a b)) = g ∧
          g.natAbs = Int.gcd a b ∧ 0 < b * g := by
      have pos : (0 : Int) < Int.gcd a b := Int.natCast_pos.2 (Int.gcd_pos_of_ne_zero_right a h)
      refine ⟨_, rfl, by split <;> simp, ?_⟩
      split
      · next neg => exact Int.mul_pos_of_neg_of_neg neg (by simpa using pos)
      · next nonneg => exact Int.mul_pos (by omega) pos
    have ga : g ∣ a := Int.natAbs_dvd.1 (size ▸ Int.gcd_dvd_left a b)
    have gb : g ∣ b := Int.natAbs_dvd.1 (size ▸ Int.gcd_dvd_right a b)
    have ha := Int.ediv_mul_cancel ga
    have hb := Int.ediv_mul_cancel gb
    have coprime : Int.gcd (a / g) (b / g) = 1 := by
      rw [Int.gcd_ediv ga gb, size]
      exact Nat.div_self (Int.gcd_pos_of_ne_zero_right a h)
    have positive : 0 < b / g := by
      have : 0 < (b / g) * (g * g) := by
        rw [← Int.mul_assoc, hb]
        exact sign
      nlinarith [mul_self_nonneg g]
    have notOne : b / g ≠ 1 := by
      intro one
      rw [one, Int.one_mul] at hb
      exact rem (Int.emod_eq_zero_of_dvd (hb ▸ ga))
    refine ⟨a / g, b / g, by rw [hg], by omega, coprime, ?_⟩
    calc a / g * b = a / g * (b / g * g) := by rw [hb]
      _ = a / g * g * (b / g) := by rw [Int.mul_comm (b / g) g, Int.mul_assoc]
      _ = a * (b / g) := by rw [ha]

theorem eq_mul_of_quotient_eq_whole {a b q : Int} {h : b ≠ 0} (hq : quotient a b h = .whole q) :
    a = q * b := by
  rcases quotient_cases a b h with ⟨q', hq', eq⟩ | ⟨p', q', hq', _⟩
  · rw [hq, Value.whole.injEq] at hq'
    rw [hq', eq]
  · simp [hq] at hq'

theorem lowest_of_quotient_eq_fraction {a b p q : Int} {h : b ≠ 0}
    (hq : quotient a b h = .fraction p q) : 2 ≤ q ∧ Int.gcd p q = 1 ∧ p * b = a * q := by
  rcases quotient_cases a b h with ⟨q', hq', _⟩ | ⟨p', q', hq', lowest⟩
  · simp [hq] at hq'
  · rw [hq, Value.fraction.injEq] at hq'
    rw [hq'.1, hq'.2]
    exact lowest

theorem natAbs_le_of_quotient_eq_whole {a b q : Int} {h : b ≠ 0}
    (hq : quotient a b h = .whole q) : q.natAbs ≤ a.natAbs := by
  unfold quotient at hq
  split at hq
  · cases hq
    exact Int.natAbs_ediv_le_natAbs a b
  · cases hq

theorem natAbs_le_of_quotient_eq_fraction {a b p q : Int} {h : b ≠ 0}
    (hq : quotient a b h = .fraction p q) : p.natAbs ≤ a.natAbs ∧ q.natAbs ≤ b.natAbs := by
  unfold quotient at hq
  split at hq
  · cases hq
  · cases hq
    exact ⟨Int.natAbs_ediv_le_natAbs a _, Int.natAbs_ediv_le_natAbs b _⟩

/-- A fraction in lowest terms is left as it is. -/
theorem quotient_of_coprime {p q : Int} (hq : 2 ≤ q) (coprime : Int.gcd p q = 1) :
    quotient p q (by omega) = .fraction p q := by
  have rem : ¬ p % q = 0 := by
    intro rem
    have : q ∣ (Int.gcd p q : Int) := Int.dvd_coe_gcd (Int.dvd_of_emod_eq_zero rem) (Int.dvd_refl q)
    rw [coprime] at this
    have := Int.le_of_dvd (by decide) this
    omega
  rw [quotient, if_neg rem, if_neg (by omega), coprime]
  simp

end ArithTree
