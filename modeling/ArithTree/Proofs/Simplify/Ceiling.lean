import ArithTree.Proofs.Simplify.Leaves
import ArithTree.Proofs.Simplify.Several
import ArithTree.Proofs.Value.Quotient
import ArithTree.Proofs.Value.Size
import Mathlib.Tactic.Ring

/-!
# How great integers can become

The ceiling of an expression is its value when all integers are replaced by their magnitudes, or by
one if they are zero, all variables by two, differences by sums and quotients by products. A term
for `n` occurrences of a variable has the ceiling `2 * n` or `2 ^ n`, so it may count them. Powers
of less than two are taken as powers of two, so that exponents are no greater than they are.

No integer in an expression is greater than its ceiling (`natAbs_le_ceiling`), and a pass does not
raise it (`exists_pass_ceiling`). Unlike the bulk, it bounds what constants fold into as well.
-/

namespace ArithTree

open ArithTree.Expr

/-! ## Operators -/

/-- The ceiling of an operator's application, given those of its arguments. -/
def Op.ceiling : Op → List Nat → Nat
  | .add, ms | .sub, ms => ms.sum
  | .pow, [base, exponent] => max 2 base ^ exponent
  | .mul, ms | .div, ms | .pow, ms => ms.prod

theorem Op.ceiling_singleton (op : Op) (n : Nat) : op.ceiling [n] = n := by
  cases op <;> simp [Op.ceiling]

theorem Op.ceiling_mono (op : Op) {ms ns : List Nat} (h : List.Forall₂ (· ≤ ·) ms ns) :
    op.ceiling ms ≤ op.ceiling ns := by
  cases op with
  | add | sub => exact h.sum_le_sum
  | mul | div => exact h.prod_le_prod'
  | pow =>
    match h with
    | .cons base (.cons exponent .nil) =>
      exact (Nat.pow_le_pow_left (max_le_max_left 2 base) _).trans
        (Nat.pow_le_pow_right (by omega) exponent)
    | .nil => exact Nat.le_refl _
    | .cons base .nil => simpa [Op.ceiling] using base
    | .cons base (.cons exponent (.cons more rest)) =>
      exact (List.Forall₂.cons base (.cons exponent (.cons more rest))).prod_le_prod'

/-- Unless an argument has the ceiling zero, none has a higher one than the application. -/
theorem Op.le_ceiling_of_mem (op : Op) {ms : List Nat} (pos : ∀ m ∈ ms, 1 ≤ m) {m : Nat}
    (hm : m ∈ ms) : m ≤ op.ceiling ms := by
  cases op with
  | add | sub => exact List.le_sum_of_mem hm
  | mul | div => exact List.single_le_prod pos m hm
  | pow =>
    match ms with
    | [base, exponent] =>
      have one : 1 ≤ exponent := pos exponent (by simp)
      rcases List.mem_pair.1 hm with rfl | rfl
      · calc m ≤ max 2 m := Nat.le_max_right 2 m
          _ ≤ max 2 m ^ exponent := Nat.le_self_pow (by omega) _
      · calc m ≤ 2 ^ m := Nat.lt_two_pow_self.le
          _ ≤ max 2 base ^ m := Nat.pow_le_pow_left (Nat.le_max_left 2 base) m
    | [] | [_] | _ :: _ :: _ :: _ => exact List.single_le_prod pos m hm

/-! ## Expressions -/

namespace Expr

mutual

/-- The value of an expression whose integers are replaced by their magnitudes, or by one if they
are zero, whose variables are replaced by two, whose differences are replaced by sums, and whose
quotients are replaced by products. -/
def ceiling : Expr → Nat
  | .num n => max 1 n.value.natAbs
  | .var _ => 2
  | .node op args => op.ceiling (ceilings args)

/-- The ceilings of all expressions of a list. -/
def ceilings : List Expr → List Nat
  | [] => []
  | e :: es => e.ceiling :: ceilings es

end

@[simp] theorem ceiling_num (n : Numeral) : (Expr.num n).ceiling = max 1 n.value.natAbs := by
  rw [ceiling]

@[simp] theorem ceiling_ofInt (n : Int) : (ofInt n).ceiling = max 1 n.natAbs := ceiling_num _

@[simp] theorem ceiling_var (x : String) : (Expr.var x).ceiling = 2 := by rw [ceiling]

theorem ceilings_eq_map (es : List Expr) : ceilings es = es.map ceiling := by
  induction es with
  | nil => rw [ceilings, List.map_nil]
  | cons e es ih => rw [ceilings, ih, List.map_cons]

theorem ceiling_node (op : Op) (args : List Expr) :
    (Expr.node op args).ceiling = op.ceiling (args.map ceiling) := by
  rw [ceiling, ceilings_eq_map]

theorem one_le_ceiling {e : Expr} (several : Several e) : 1 ≤ e.ceiling := by
  induction e using Expr.induction with
  | num n => simp
  | var x => simp
  | node op args ih =>
    obtain ⟨two, several⟩ := several_node.1 several
    have pos : ∀ m ∈ args.map ceiling, 1 ≤ m := by
      simp only [List.forall_mem_map]
      exact fun a ha => ih a ha (several a ha)
    obtain ⟨a, ha⟩ := List.exists_mem_of_length_pos (show 0 < args.length by omega)
    have first : a.ceiling ∈ args.map ceiling := List.mem_map_of_mem ha
    rw [ceiling_node]
    exact (pos _ first).trans (op.le_ceiling_of_mem pos first)

/-- The ceiling of an expression is not below that of an argument. -/
theorem ceiling_le_of_mem {op : Op} {args : List Expr} (several : ∀ a ∈ args, Several a) {a : Expr}
    (ha : a ∈ args) : a.ceiling ≤ (Expr.node op args).ceiling := by
  rw [ceiling_node]
  refine op.le_ceiling_of_mem ?_ (List.mem_map_of_mem ha)
  simp only [List.forall_mem_map]
  exact fun b hb => one_le_ceiling (several b hb)

/-- No integer in an expression is greater than its ceiling. -/
theorem natAbs_le_ceiling {e : Expr} (several : Several e) {n : Numeral} (hn : n ∈ e.numerals) :
    n.value.natAbs ≤ e.ceiling := by
  induction e using Expr.induction with
  | num m =>
    rw [numerals_num, List.mem_singleton] at hn
    rw [hn, ceiling_num]
    exact Nat.le_max_right _ _
  | var x => simp at hn
  | node op args ih =>
    obtain ⟨_, several⟩ := several_node.1 several
    obtain ⟨a, ha, hn⟩ := mem_numerals_node.1 hn
    exact (ih a ha (several a ha) hn).trans (ceiling_le_of_mem several ha)

theorem sizes_ceiling : Sizes ceiling 2 where
  num := ceiling_num
  var := ceiling_var
  sum args := ceiling_node .add args
  product args := ceiling_node .mul args
  power x k many := by
    have : max 1 k.value.natAbs = k.value.toNat := by omega
    simp [ceiling_node, Op.ceiling, this]

/-! ## Rules and passes -/

/-- A power of integers is no greater than that of their ceilings. -/
theorem max_natAbs_power_le (base : Int) {exponent : Int} (nonneg : 0 ≤ exponent) :
    max 1 (ArithTree.power base exponent.toNat).natAbs ≤
      max 2 (max 1 base.natAbs) ^ max 1 exponent.natAbs := by
  have value : (ArithTree.power base exponent.toNat).natAbs = base.natAbs ^ exponent.toNat := by
    rw [power_eq]
    exact Int.natAbs_pow base exponent.toNat
  rw [value]
  refine max_le (Nat.one_le_pow _ _ (by omega)) ?_
  calc base.natAbs ^ exponent.toNat
      ≤ max 2 (max 1 base.natAbs) ^ exponent.toNat := Nat.pow_le_pow_left (by omega) _
    _ ≤ max 2 (max 1 base.natAbs) ^ max 1 exponent.natAbs :=
      Nat.pow_le_pow_right (by omega) (by omega)

/-- No rule raises the ceiling. -/
theorem Rewrites.ceiling_le {op : Op} {args : List Expr} {e : Expr} (h : Rewrites op args e) :
    e.ceiling ≤ (Expr.node op args).ceiling := by
  cases h with
  | difference => simp [ceiling_node, Op.ceiling]
  | sum => exact sizes_ceiling.sum_collected_le args
  | product => exact sizes_ceiling.product_collected_le args
  | hoist after numer denom =>
    simp only [ceiling_node, Op.ceiling, List.map_append, List.map_cons, List.map_nil,
      List.prod_append, List.prod_cons, List.prod_nil]
    apply Nat.le_of_eq
    ring
  | leftQuotient | rightQuotient =>
    simp only [ceiling_node, Op.ceiling, List.map_cons, List.map_nil, List.prod_cons, List.prod_nil]
    apply Nat.le_of_eq
    ring
  | @whole a b q nonzero value =>
    have := natAbs_le_of_quotient_eq_whole value
    simp only [ceiling_node, Op.ceiling, List.map_cons, List.map_nil, List.prod_cons, List.prod_nil,
      ceiling_num, ceiling_ofInt, Nat.mul_one]
    calc max 1 q.natAbs ≤ max 1 a.value.natAbs := max_le_max_left 1 this
      _ ≤ max 1 a.value.natAbs * max 1 b.value.natAbs :=
        Nat.le_mul_of_pos_right _ (Nat.le_max_left 1 _)
  | fraction nonzero value =>
    obtain ⟨numer, denom⟩ := natAbs_le_of_quotient_eq_fraction value
    simp only [ceiling_node, Op.ceiling, List.map_cons, List.map_nil, List.prod_cons, List.prod_nil,
      ceiling_num, ceiling_ofInt, Nat.mul_one]
    exact Nat.mul_le_mul (max_le_max_left 1 numer) (max_le_max_left 1 denom)
  | @evaluated b e nonneg compact =>
    rw [ceiling_ofInt, ceiling_node]
    simpa [Op.ceiling] using max_natAbs_power_le b.value nonneg
  | quotient | power => exact Nat.le_refl _

/-- A pass does not raise the ceiling. -/
theorem exists_pass_ceiling {e : Expr} (wf : WellFormed e) :
    ∃ e', pass e = .ok e' ∧ e'.ceiling ≤ e.ceiling := by
  refine pass_related (R := fun e e' => e'.ceiling ≤ e.ceiling) ?num ?var ?evaluated ?node wf
  case num =>
    intro n
    exact Nat.le_refl _
  case var =>
    intro x
    exact Nat.le_refl _
  case evaluated =>
    intro op args n rewrites
    exact rewrites.ceiling_le
  case node =>
    intro op args op' args' results _ rewrites related
    have collapsed : (collapse op' results).ceiling = (Expr.node op' results).ceiling := by
      unfold collapse
      split
      · rw [ceiling_node, List.map_singleton, op'.ceiling_singleton]
      · rfl
    have inner : (Expr.node op' results).ceiling ≤ (Expr.node op' args').ceiling := by
      rw [ceiling_node, ceiling_node]
      apply op'.ceiling_mono
      rw [List.forall₂_map_left_iff, List.forall₂_map_right_iff]
      exact (related.imp fun _ _ h => h.2).flip
    rw [collapsed]
    exact inner.trans rewrites.ceiling_le

end Expr

end ArithTree
