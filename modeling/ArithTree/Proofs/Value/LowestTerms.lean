import ArithTree.Proofs.Value.Preserved
import Mathlib.Data.Rat.Lemmas

/-!
# Quotients of integers

A rational number is written in one way: as an integer if it is one, and otherwise as the quotient
of its numerator and its denominator, which have no common divisor (`ofRat`). A quotient of integers
becomes what is written for its value, unless the divisor is zero (`rewrites_div_num`), and nothing
is done to what is written for a rational number (`pass_ofRat`).

Main statement: `quotients_in_lowest_terms`. Two quotients become the same expression if and only if
they are equal as rational numbers, for those are written differently if they differ.
-/

namespace ArithTree.Expr

/-! ## Writing a rational number -/

/-- What is written for a rational number. -/
def ofRat (x : ℚ) : Expr :=
  if x.den = 1 then ofInt x.num else .node .div [ofInt x.num, ofInt x.den]

theorem ofRat_intCast (q : Int) : ofRat q = ofInt q := by
  rw [ofRat, Rat.den_intCast, if_pos rfl, Rat.num_intCast]

/-- A fraction in lowest terms is written as it is. -/
theorem ofRat_div {p q : Int} (above : 2 ≤ q) (coprime : Int.gcd p q = 1) :
    ofRat (p / q) = .node .div [ofInt p, ofInt q] := by
  have num := Rat.num_div_eq_of_coprime (by omega) coprime
  have den := Rat.den_div_eq_of_coprime (by omega) coprime
  rw [ofRat, if_neg (by omega), num, den]

theorem exists_ofRat_eq_ofInt {a b : Int} (nonzero : b ≠ 0) (divides : b ∣ a) :
    ∃ q, ofRat (a / b) = ofInt q ∧ q * b = a := by
  obtain ⟨q, rfl⟩ := divides
  refine ⟨q, ?_, Int.mul_comm q b⟩
  rw [Int.cast_mul, mul_div_cancel_left₀ _ (Int.cast_ne_zero.2 nonzero), ofRat_intCast]

theorem exists_ofRat_eq_fraction {a b : Int} (nonzero : b ≠ 0) (indivisible : ¬ b ∣ a) :
    ∃ p q, ofRat (a / b) = .node .div [ofInt p, ofInt q] ∧ 2 ≤ q ∧ Int.gcd p q = 1 ∧
      p * b = a * q := by
  obtain ⟨x, hx⟩ : ∃ x : ℚ, x = a / b := ⟨_, rfl⟩
  have notOne : x.den ≠ 1 := by rwa [hx, ne_eq, Rat.den_div_intCast_eq_one_iff _ _ nonzero]
  have pos := x.den_pos
  have equal : (x.num / x.den : ℚ) = a / b := x.num_div_den.trans hx
  rw [div_eq_div_iff (Nat.cast_ne_zero.2 x.den_ne_zero) (Int.cast_ne_zero.2 nonzero)] at equal
  refine ⟨x.num, x.den, ?_, by omega, x.reduced, by exact_mod_cast equal⟩
  rw [← hx, ofRat, if_neg notOne]

/-- What is written for a rational number has that value. -/
theorem eval_ofRat (env : String → ℚ) (x : ℚ) : eval env (ofRat x) = some x := by
  unfold ofRat
  split
  · next whole => rw [eval_ofInt, (Rat.den_eq_one_iff x).1 whole]
  · have nonzero : (Numeral.ofInt x.den).value ≠ 0 := Int.natCast_ne_zero.2 x.den_ne_zero
    refine (eval_div_num env _ nonzero).trans (congrArg some ?_)
    exact Rat.num_div_den x

theorem ofRat_injective : Function.Injective ofRat := by
  intro x y same
  have env : String → ℚ := fun _ => 0
  have := congrArg (eval env) same
  rwa [eval_ofRat, eval_ofRat, Option.some_inj] at this

/-! ## Simplifying a quotient -/

/-- A quotient of integers becomes what is written for its value. -/
theorem rewrites_div_num (a : Numeral) {b : Numeral} (nonzero : b.value ≠ 0) :
    Rewrites .div [.num a, .num b] (ofRat (a.value / b.value)) := by
  obtain ⟨x, rewrites⟩ : ∃ x, Rewrites .div [.num a, .num b] (ofRat x) := by
    cases value : quotient a.value b.value nonzero with
    | whole q => exact ⟨q, ofRat_intCast q ▸ .whole nonzero value⟩
    | fraction p q =>
      obtain ⟨above, coprime, _⟩ := lowest_of_quotient_eq_fraction value
      exact ⟨p / q, ofRat_div above coprime ▸ .fraction nonzero value⟩
  -- The rule keeps the value, so it can be no other number that is written.
  have env : String → ℚ := fun _ => 0
  have value := rewrites.refines env _ (eval_div_num env a nonzero)
  rw [eval_ofRat, Option.some_inj] at value
  exact value ▸ rewrites

theorem rewrites_num_den (x : ℚ) : Rewrites .div [ofInt x.num, ofInt x.den] (ofRat x) := by
  have nonzero : (Numeral.ofInt x.den).value ≠ 0 := Int.natCast_ne_zero.2 x.den_ne_zero
  have rewrites := rewrites_div_num (.ofInt x.num) nonzero
  rwa [Numeral.value_ofInt, Numeral.value_ofInt, Int.cast_natCast, Rat.num_div_den] at rewrites

theorem Rewrites.pass_ofRat {op : Op} {args : List Expr} {x : ℚ} (h : Rewrites op args (ofRat x)) :
    pass (.node op args) = .ok (ofRat x) := by
  unfold ofRat at h ⊢
  split at h
  · next whole =>
    rw [if_pos whole]
    exact h.pass_num
  · next fraction =>
    rw [if_neg fraction]
    exact h.pass_node (.cons (Expr.pass_num _) (.cons (Expr.pass_num _) .nil))

/-- Nothing is done to what is written for a rational number. -/
theorem pass_ofRat (x : ℚ) : pass (ofRat x) = .ok (ofRat x) := by
  by_cases whole : x.den = 1
  · rw [ofRat, if_pos whole]
    exact pass_num _
  · calc pass (ofRat x) = pass (.node .div [ofInt x.num, ofInt x.den]) := by rw [ofRat, if_neg whole]
      _ = .ok (ofRat x) := (rewrites_num_den x).pass_ofRat

/-- A quotient of integers, however they are spelled, becomes an integer if the divisor divides the
other one, and else the fraction in lowest terms that has the same value. This is not simplified
further, and it is the same for two quotients if and only if they are equal. -/
theorem quotients_in_lowest_terms :
    (∀ a b : Numeral, b.value ≠ 0 → ∃ r,
      applyRule .div [.num a, .num b] = .ok r ∧
      (b.value ∣ a.value → ∃ q, r = ofInt q ∧ q * b.value = a.value) ∧
      (¬ b.value ∣ a.value → ∃ p q, r = .node .div [ofInt p, ofInt q] ∧ 2 ≤ q ∧
        Int.gcd p q = 1 ∧ p * b.value = a.value * q ∧ applyRule .div [ofInt p, ofInt q] = .ok r) ∧
      pass r = .ok r ∧ simplified (.node .div [.num a, .num b]) = .ok r) ∧
    ∀ a b c d : Numeral, b.value ≠ 0 → d.value ≠ 0 →
      (applyRule .div [.num a, .num b] = applyRule .div [.num c, .num d] ↔
        a.value * d.value = c.value * b.value) := by
  constructor
  · intro a b nonzero
    have rewrites := rewrites_div_num a nonzero
    refine ⟨_, rewrites.applied, exists_ofRat_eq_ofInt nonzero, ?_, pass_ofRat _, ?_⟩
    · intro indivisible
      obtain ⟨p, q, lowest, above, coprime, equal⟩ := exists_ofRat_eq_fraction nonzero indivisible
      have nonzero' : (Numeral.ofInt q).value ≠ 0 := show q ≠ 0 by omega
      have again := (rewrites_div_num (.ofInt p) nonzero').applied
      rw [Numeral.value_ofInt, Numeral.value_ofInt, ofRat_div above coprime, ← lowest] at again
      exact ⟨p, q, lowest, above, coprime, equal, again⟩
    · rw [simplified_eq_passTimes, show maxPasses = 999 + 1 from rfl,
        passTimes_succ rewrites.pass_ofRat, passTimes_of_fixed (pass_ofRat _)]
  · intro a b c d hb hd
    rw [(rewrites_div_num a hb).applied, (rewrites_div_num c hd).applied, Except.ok.injEq,
      ofRat_injective.eq_iff, div_eq_div_iff (Int.cast_ne_zero.2 hb) (Int.cast_ne_zero.2 hd)]
    norm_cast

/-- `04 / -6` and `-10 / 15` become the same fraction, and `0 / -6` an integer. -/
theorem quotients_in_lowest_terms_of_signs :
    let a : Numeral := ⟨4, some "04"⟩
    let b : Numeral := .ofInt (-6)
    let c : Numeral := .ofInt (-10)
    let d : Numeral := .ofInt 15
    let zero : Numeral := .ofInt 0
    b.value ≠ 0 ∧ d.value ≠ 0 ∧ ¬ b.value ∣ a.value ∧ a.value * d.value = c.value * b.value ∧
      b.value ∣ zero.value ∧
      (∃ r, applyRule .div [.num a, .num b] = .ok r ∧ applyRule .div [.num c, .num d] = .ok r ∧
        (∃ p q, r = .node .div [ofInt p, ofInt q] ∧ 2 ≤ q ∧ Int.gcd p q = 1 ∧
          p * b.value = a.value * q) ∧ pass r = .ok r) ∧
      ∃ q, applyRule .div [.num zero, .num b] = .ok (ofInt q) ∧ q * b.value = zero.value := by
  intro a b c d zero
  have hb : b.value ≠ 0 := by decide
  have hd : d.value ≠ 0 := by decide
  have indivisible : ¬ b.value ∣ a.value := by decide
  have equal : a.value * d.value = c.value * b.value := by decide
  have divides : b.value ∣ zero.value := by decide
  obtain ⟨simplify, same⟩ := quotients_in_lowest_terms
  obtain ⟨r, applied, _, fraction, passed, _⟩ := simplify a b hb
  obtain ⟨p, q, lowest, above, coprime, value, _⟩ := fraction indivisible
  obtain ⟨_, applied', whole, _⟩ := simplify zero b hb
  obtain ⟨n, rfl, hn⟩ := whole divides
  exact ⟨hb, hd, indivisible, equal, divides,
    ⟨r, applied, ((same a b c d hb hd).2 equal).symm.trans applied,
      ⟨p, q, lowest, above, coprime, value⟩, passed⟩, n, applied', hn⟩

end ArithTree.Expr
