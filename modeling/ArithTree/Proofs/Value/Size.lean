import ArithTree.Proofs.Value.Interpretation
import Mathlib.Algebra.BigOperators.Group.Finset.Defs
import Mathlib.Algebra.Order.Monoid.TypeTags
import Mathlib.Algebra.Order.Ring.Nat

/-!
# Sizes

A size measures expressions by natural numbers: integers by their magnitudes, or by one if they are
zero, all variables by the same number, sums by sums and products by products. A power of a variable
has to be measured by a power, as it stands for a product.

Folding two constants makes no greater one than their sizes allow, so splicing nested chains and
collecting like terms does not raise a size (`Sizes.sum_collected_le`,
`Sizes.product_collected_le`).
-/

namespace ArithTree

open ArithTree.Expr

/-- `val` is a size, in which variables are measured by `v`. -/
structure Sizes (val : Expr → Nat) (v : Nat) : Prop where
  num : ∀ n : Numeral, val (.num n) = max 1 n.value.natAbs
  var : ∀ x, val (.var x) = v
  sum : ∀ args, val (.node .add args) = (args.map val).sum
  product : ∀ args, val (.node .mul args) = (args.map val).prod
  power : ∀ (x : String) (k : Numeral), 1 < k.value →
    val (.node .pow [.var x, .num k]) = v ^ k.value.toNat

namespace Sizes

variable {val : Expr → Nat} {v : Nat} (sizes : Sizes val v)

include sizes

theorem measures_sum : Chain.sum.Measures (fun e => Multiplicative.ofAdd (val e))
    (fun n => Multiplicative.ofAdd (max 1 n.natAbs)) (fun _ => Multiplicative.ofAdd v) where
  repeats := .inl rfl
  numeral n := by rw [sizes.num]
  counted e x n h := by
    rw [← ofAdd_nsmul]
    rcases Chain.occurrences?_eq_some h with ⟨rfl, rfl⟩ | ⟨k, rfl, many, rfl | ⟨_, rfl⟩⟩
    · simp [sizes.var]
    · have : max 1 k.value.natAbs = k.value.toNat := by omega
      simp [sizes.product, sizes.var, sizes.num, this, Nat.mul_comm]
    · have : max 1 k.value.natAbs = k.value.toNat := by omega
      simp [sizes.product, sizes.var, sizes.num, this]
  chain args := by
    show Multiplicative.ofAdd (val (.node .add args)) = _
    rw [sizes.sum, ofAdd_list_prod, List.map_map]
    rfl

theorem measures_product :
    Chain.product.Measures val (fun n => max 1 n.natAbs) (fun _ => v) where
  repeats := .inr rfl
  numeral n := sizes.num n
  counted e x n h := by
    rcases Chain.occurrences?_eq_some h with ⟨rfl, rfl⟩ | ⟨k, rfl, many, rfl | ⟨impossible, _⟩⟩
    · simp [sizes.var]
    · exact sizes.power x k many
    · cases impossible
  chain args := sizes.product args

/-- Collecting the terms of a sum does not raise its size. -/
theorem sum_collected_le (args : List Expr) :
    val (.node .add (Chain.sum.collected (chainTermsAll .add args))) ≤ val (.node .add args) := by
  refine Multiplicative.ofAdd_le.1 (sizes.measures_sum.collected_le ?_ args)
  intro a b n h
  rw [Chain.fold?_sum] at h
  split at h
  · cases h
    show max 1 (a + b).natAbs ≤ max 1 a.natAbs + max 1 b.natAbs
    omega
  · cases h

/-- Collecting the factors of a product does not raise its size. -/
theorem product_collected_le (args : List Expr) :
    val (.node .mul (Chain.product.collected (chainTermsAll .mul args))) ≤
      val (.node .mul args) := by
  refine sizes.measures_product.collected_le ?_ args
  intro a b n h
  rw [Chain.fold?_product] at h
  split at h
  · cases h
    have one : 1 * 1 ≤ max 1 a.natAbs * max 1 b.natAbs :=
      Nat.mul_le_mul (Nat.le_max_left _ _) (Nat.le_max_left _ _)
    have product : a.natAbs * b.natAbs ≤ max 1 a.natAbs * max 1 b.natAbs :=
      Nat.mul_le_mul (Nat.le_max_right _ _) (Nat.le_max_right _ _)
    rw [← Int.natAbs_mul] at product
    exact max_le one product
  · cases h

end Sizes

end ArithTree
