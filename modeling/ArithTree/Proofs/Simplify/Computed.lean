import ArithTree.Proofs.Reading.Written
import ArithTree.Proofs.Simplify.Incremental
import ArithTree.Proofs.Simplify.Several

/-!
# Computed integers

Two rules compute integers that can be long. A power is computed if an estimate from the length of
its base says that it is compact. The constants of a chain are folded in runs of neighbours, each of
which ends where the next constant would make it too long (`Runs`).

Main statement: `computed_integers_compact`. What is computed is compact, unless it is the value of
a single numeral, and there is no greater number of bits than that of compact integers with which
all integers can be written.
-/

namespace ArithTree

open ArithTree.Expr

/-! ## Constants -/

/-- The constants `before` in runs of neighbours, each of which is folded into one of the constants
`after`: `total` is what several constants fold into. -/
structure Runs (total : List Int → Int) (runs : List (List Int)) (before after : List Int) :
    Prop where
  flatten : runs.flatten = before
  totals : runs.map total = after
  nonempty : ∀ run ∈ runs, run ≠ []
  longest : runs.IsChain fun run next => ∀ n ∈ next.head?, ¬ Compact (total (run ++ [n]))

/-- The constants `before` are folded into the constants `after`: each of these is one of the former
or compact, and together they come to the same. -/
structure FoldsTo (total : List Int → Int) (before after : List Int) : Prop where
  compact : ∀ n ∈ after, n ∈ before ∨ bitLength n ≤ maxBits
  total_eq : total after = total before
  inRuns : ∃ runs, Runs total runs before after

namespace Chain

/-- The constants of a chain are `total` together, and fold if they are compact together. -/
structure Totals (c : Chain) (total : List Int → Int) : Prop where
  singleton : ∀ n, total [n] = n
  append : ∀ ns n, c.fold? (total ns) n =
    if Compact (total (ns ++ [n])) then some (total (ns ++ [n])) else none
  flatten : ∀ runs : List (List Int), total (runs.map total) = total runs.flatten

theorem totals_sum : sum.Totals List.sum where
  singleton n := List.sum_singleton
  append ns n := by rw [fold?_sum, List.sum_append, List.sum_singleton]
  flatten runs := List.sum_flatten.symm

theorem totals_product : product.Totals List.prod where
  singleton n := List.prod_singleton
  append ns n := by rw [fold?_product, List.prod_append, List.prod_singleton]
  flatten runs := List.prod_flatten.symm

namespace Totals

variable {c : Chain} {total : List Int → Int} (h : c.Totals total)

include h

/-- Constants that are folded onto what a run folds into make this run longer, until they are
refused. -/
theorem exists_runs_foldOnto (run : List Int) (started : run ≠ []) (ns : List Int) :
    ∃ more rest, Runs total ((run ++ more) :: rest) (run ++ ns) (c.foldOnto (total run) ns) := by
  induction ns generalizing run with
  | nil => exact ⟨[], [], by simp, by simp [foldOnto], by simpa using started, .singleton _⟩
  | cons n ns ih =>
    rw [foldOnto, h.append]
    by_cases compact : Compact (total (run ++ [n]))
    · obtain ⟨more, rest, runs⟩ := ih (run ++ [n]) (by simp)
      rw [List.append_assoc, List.append_assoc] at runs
      rw [if_pos compact]
      exact ⟨n :: more, rest, runs⟩
    · obtain ⟨more, rest, flatten, totals, nonempty, longest⟩ := ih [n] (by simp)
      refine ⟨[], ([n] ++ more) :: rest, ?_, ?_, ?_, ?_⟩
      · rw [List.append_nil, List.flatten_cons, flatten]
        rfl
      · rw [if_neg compact, List.append_nil, List.map_cons, totals, h.singleton]
      · rw [List.append_nil]
        exact List.forall_mem_cons.2 ⟨started, nonempty⟩
      · rw [List.append_nil]
        exact .cons_cons (by simpa using compact) longest

theorem exists_runs (ns : List Int) : ∃ runs, Runs total runs ns (c.foldConstants ns) := by
  cases ns with
  | nil => exact ⟨[], rfl, rfl, by simp, .nil⟩
  | cons n ns =>
    obtain ⟨more, rest, runs⟩ := h.exists_runs_foldOnto [n] (by simp) ns
    rw [h.singleton] at runs
    exact ⟨_, runs⟩

theorem foldsTo_foldConstants (ns : List Int) : FoldsTo total ns (c.foldConstants ns) where
  compact n hn := mem_or_compact_of_mem_foldConstants hn
  total_eq := by
    obtain ⟨runs, flatten, totals, _⟩ := h.exists_runs ns
    rw [← totals, h.flatten, flatten]
  inRuns := h.exists_runs ns

end Totals

end Chain

/-! ## Powers -/

/-- A power that is computed has a natural exponent, and is sure to be compact. -/
theorem Expr.power_of_applyRule {base exponent n : Numeral}
    (h : applyRule .pow [.num base, .num exponent] = .ok (.num n)) :
    0 ≤ exponent.value ∧ n = .ofInt (base.value ^ exponent.value.toNat) ∧ Compact n.value := by
  cases rewrites_of_applyRule h with
  | evaluated nonneg compact =>
    exact ⟨nonneg, congrArg Numeral.ofInt (power_eq _ _), compact_power compact⟩

/-! ## Lengths -/

/-- All integers of at most so many bits can be written if these are not more than those of compact
integers. -/
theorem length_digits_le_of_bits_iff {bits : Nat} :
    (∀ n : Int, bitLength n ≤ bits → (Decimal.unsigned (Decimal.digits n)).length ≤ maxDigits) ↔
      bits ≤ maxBits := by
  constructor
  · intro short
    by_contra more
    -- The least integer that cannot be written has one bit more than the longest compact ones.
    have bound : bitLength (Decimal.bound : Int) ≤ maxBits + 1 :=
      bitLength_le_iff.2 (by decide +kernel)
    have writable := Decimal.length_digits_le_iff.1 (short _ (Nat.le_trans bound (by omega)))
    rw [Int.natAbs_natCast] at writable
    exact Nat.lt_irrefl _ writable
  · intro few n hn
    exact Decimal.length_digits_le_iff.2 (natAbs_lt_of_compact (Nat.le_trans hn few))

/-- What is computed is short enough to be written. A power of integers that is computed is compact,
and so is every constant of a sum or product that is not one of those from which it was folded.
These are folded in their order and come to the same together. -/
theorem computed_integers_compact :
    (∀ base exponent n : Numeral, applyRule .pow [.num base, .num exponent] = .ok (.num n) →
      0 ≤ exponent.value ∧ n = .ofInt (base.value ^ exponent.value.toNat) ∧
        bitLength n.value ≤ maxBits) ∧
    (∀ args : List Expr,
      FoldsTo List.sum (args.filterMap constant?)
        ((Chain.sum.collected args).filterMap constant?) ∧
      FoldsTo List.prod (args.filterMap constant?)
        ((Chain.product.collected args).filterMap constant?)) ∧
    ∀ bits : Nat,
      (∀ n : Int, bitLength n ≤ bits → (Decimal.unsigned (Decimal.digits n)).length ≤ maxDigits) ↔
        bits ≤ maxBits := by
  refine ⟨fun _ _ _ => power_of_applyRule, fun args => ?_, fun _ => length_digits_le_of_bits_iff⟩
  rw [Chain.constants_of_collected, Chain.constants_of_collected]
  exact ⟨Chain.totals_sum.foldsTo_foldConstants _, Chain.totals_product.foldsTo_foldConstants _⟩

/-- The estimate for `-3 ^ 7142` is exactly as many bits as a compact integer may have. The second
of three constants is not folded into the first one, for together they would have a bit more. -/
theorem computed_integers_compact_of_longest :
    let base : Numeral := .ofInt (-3)
    let exponent : Numeral := ⟨7142, some "07142"⟩
    let n : Numeral := .ofInt (power (-3) 7142)
    let half : Int := Int.ofNat (2 ^ 14283)
    let args := [ofInt half, .var "x", ofInt half, ofInt (-5)]
    applyRule .pow [.num base, .num exponent] = .ok (.num n) ∧ bitLength n.value ≤ maxBits ∧
      (Chain.sum.collected args).filterMap constant? = [half, half - 5] ∧
      [half, half - 5].sum = [half, half, -5].sum ∧ bitLength (half - 5) ≤ maxBits := by
  intro base exponent n half args
  have applied : applyRule .pow [.num base, .num exponent] = .ok (.num n) :=
    (Rewrites.evaluated (by decide) (by decide)).applied
  have constants : (Chain.sum.collected args).filterMap constant? = [half, half - 5] := by
    decide +kernel
  obtain ⟨powers, chains, _⟩ := computed_integers_compact
  obtain ⟨sum, _⟩ := chains args
  rw [constants] at sum
  have short := (sum.compact (half - 5) (by simp)).resolve_left (by decide +kernel)
  exact ⟨applied, (powers base exponent n applied).2.2, constants, sum.total_eq, short⟩

end ArithTree
