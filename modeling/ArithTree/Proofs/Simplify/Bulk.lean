import ArithTree.Proofs.Reading.Written
import ArithTree.Proofs.Simplify.Leaves
import ArithTree.Proofs.Simplify.Several
import ArithTree.Proofs.Value.Quotient

/-!
# How long integers can become

The integers that a simplification computes are compact, or quotients of others, or the numbers of
occurrences of variables. Only the last can be too long to be written, but each occurrence that is
counted makes them longer by little: the sum of two numbers, divided by `Decimal.bound` and rounded,
is at most by one greater than the sum of the rounded quotients. So occurrences of variables are
counted as 1 and integers as what they are divided by the bound. This sum, the bulk of an
expression, is not raised by a pass (`exists_pass_bulk`).
-/

namespace ArithTree

open ArithTree.Expr

/-! ## Integers -/

/-- How many times the least integer that is too long goes into the magnitude of `n`. -/
def excess (n : Int) : Nat := n.natAbs / Decimal.bound

theorem excess_eq_zero_iff {n : Int} : excess n = 0 ↔ n.natAbs < Decimal.bound := by
  have := Decimal.one_lt_bound
  rw [excess, Nat.div_eq_zero_iff]
  omega

theorem excess_of_compact {n : Int} (h : Compact n) : excess n = 0 :=
  excess_eq_zero_iff.2 (natAbs_lt_of_compact h)

theorem excess_one : excess 1 = 0 := excess_eq_zero_iff.2 Decimal.one_lt_bound

theorem excess_mono {m n : Int} (h : m.natAbs ≤ n.natAbs) : excess m ≤ excess n :=
  Nat.div_le_div_right h

theorem excess_add_le (m n : Int) : excess (m + n) ≤ excess m + excess n + 1 := by
  have size : (m + n).natAbs ≤ m.natAbs + n.natAbs := Int.natAbs_add_le m n
  have pos : 0 < Decimal.bound := Nat.lt_trans Nat.zero_lt_one Decimal.one_lt_bound
  unfold excess
  refine Nat.le_trans (Nat.div_le_div_right size) ?_
  rw [Nat.add_div pos]
  split <;> omega

/-- What constants fold into does not exceed more than they do. -/
theorem Chain.sum_excess_foldConstants_le (c : Chain) (ns : List Int) :
    ((c.foldConstants ns).map excess).sum ≤ (ns.map excess).sum := by
  have foldOnto (first : Int) (ns : List Int) :
      ((c.foldOnto first ns).map excess).sum ≤ excess first + (ns.map excess).sum := by
    induction ns generalizing first with
    | nil => simp [Chain.foldOnto]
    | cons n ns ih =>
      rw [Chain.foldOnto, List.map_cons, List.sum_cons]
      split
      · next folded h =>
        have := ih folded
        have := excess_of_compact (Chain.compact_of_fold? h)
        omega
      · have := ih n
        rw [List.map_cons, List.sum_cons]
        omega
  cases ns with
  | nil => exact Nat.le_refl _
  | cons n ns => simpa [Chain.foldConstants] using foldOnto n ns

/-! ## Occurrences -/

/-- The bulk of the term for a counted variable. -/
def termBulk (t : String × Int) : Nat := excess t.2 + 1

theorem sum_termBulk_tally_le {ts : List (String × Int)} (h : ∀ t ∈ ts, 0 < t.2) :
    ((tally ts).map termBulk).sum ≤ (ts.map termBulk).sum := by
  -- The term that is saved by merging two makes up for rounding.
  refine sum_tally_le (f := fun n => excess n + 1) ?_ h
  intro m n _ _
  have := excess_add_le m n
  omega

/-! ## Expressions -/

namespace Expr

/-- The bulk of a numeral or a variable. -/
def leafBulk : Numeral ⊕ String → Nat
  | .inl n => excess n.value
  | .inr _ => 1

/-- The bulk of an expression. -/
def bulk (e : Expr) : Nat := (e.leaves.map leafBulk).sum

/-- The bulk of all expressions of a list. -/
def bulkAll (es : List Expr) : Nat := ((leavesAll es).map leafBulk).sum

@[simp] theorem bulk_num (n : Numeral) : (Expr.num n).bulk = excess n.value := by
  simp [bulk, leafBulk]

@[simp] theorem bulk_ofInt (n : Int) : (ofInt n).bulk = excess n := bulk_num _

@[simp] theorem bulk_var (x : String) : (Expr.var x).bulk = 1 := by simp [bulk, leafBulk]

@[simp] theorem bulk_node (op : Op) (args : List Expr) : (Expr.node op args).bulk = bulkAll args := by
  simp [bulk, bulkAll]

@[simp] theorem bulkAll_nil : bulkAll [] = 0 := by simp [bulkAll]

@[simp] theorem bulkAll_cons (e : Expr) (es : List Expr) :
    bulkAll (e :: es) = e.bulk + bulkAll es := by simp [bulkAll, bulk]

@[simp] theorem bulkAll_append (es fs : List Expr) : bulkAll (es ++ fs) = bulkAll es + bulkAll fs := by
  simp [bulkAll]

theorem bulkAll_eq_sum (es : List Expr) : bulkAll es = (es.map bulk).sum := by
  induction es with
  | nil => simp
  | cons e es ih => rw [bulkAll_cons, ih, List.map_cons, List.sum_cons]

theorem bulkAll_chainTermsAll (op : Op) (es : List Expr) :
    bulkAll (chainTermsAll op es) = bulkAll es := by
  rw [bulkAll, leavesAll_chainTermsAll, bulkAll]

theorem bulk_term (c : Chain) (t : String × Int) : (c.term t).bulk = termBulk t := by
  unfold Chain.term multiple termBulk
  split
  · next one => rw [one, excess_one, bulk_var]
  · split <;> simp [Nat.add_comm]

theorem bulk_tidy (c : Chain) (e : Expr) : (c.tidy e).bulk = e.bulk := by
  unfold Chain.tidy
  split
  · next n hn =>
    cases e with
    | num m =>
      cases hn
      rw [bulk_ofInt, bulk_num]
    | var | node => cases hn
  · next t _ ht =>
    rw [bulk_term, termBulk]
    rcases Chain.occurrences?_eq_some ht with ⟨rfl, one⟩ | ⟨k, hk, _, rfl | ⟨_, rfl⟩⟩
    · rw [one, excess_one, bulk_var]
    · simp [hk, Nat.add_comm]
    · simp [hk]
  · rfl

/-- Collecting like terms does not raise the bulk. -/
theorem bulkAll_collected_le (c : Chain) (args : List Expr) :
    bulkAll (c.collected args) ≤ bulkAll args := by
  rw [bulkAll_eq_sum, bulkAll_eq_sum, (c.map_collected_perm bulk args).sum_eq,
    (c.map_perm_of_kinds (bulk_tidy c) args).sum_eq]
  simp only [List.sum_append, bulk_ofInt, bulk_term]
  have folded := c.sum_excess_foldConstants_le (args.filterMap constant?)
  have counted := sum_termBulk_tally_le (@Chain.pos_of_mem_occurrences c args)
  exact Nat.add_le_add_right (Nat.add_le_add folded counted) _

/-! ## Rules and passes -/

/-- No rule raises the bulk. -/
theorem Rewrites.bulk_le {op : Op} {args : List Expr} {e : Expr} (h : Rewrites op args e) :
    e.bulk ≤ (Expr.node op args).bulk := by
  cases h with
  | difference =>
    have minus : excess (-1) ≤ excess 1 := excess_mono (Nat.le_refl 1)
    rw [excess_one] at minus
    simp only [bulk_node, bulkAll_cons, bulkAll_nil, bulk_ofInt]
    omega
  | sum | product =>
    rw [bulk_node, bulk_node]
    exact Nat.le_trans (bulkAll_collected_le _ _) (Nat.le_of_eq (bulkAll_chainTermsAll _ args))
  | hoist | rightQuotient | leftQuotient =>
    simp only [bulk_node, bulkAll_append, bulkAll_cons, bulkAll_nil]
    omega
  | whole nonzero value =>
    have := excess_mono (natAbs_le_of_quotient_eq_whole value)
    simp only [bulk_node, bulkAll_cons, bulkAll_nil, bulk_num, bulk_ofInt]
    omega
  | fraction nonzero value =>
    obtain ⟨numer, denom⟩ := natAbs_le_of_quotient_eq_fraction value
    have := excess_mono numer
    have := excess_mono denom
    simp only [bulk_node, bulkAll_cons, bulkAll_nil, bulk_num, bulk_ofInt]
    omega
  | evaluated _ compact =>
    rw [bulk_ofInt, excess_of_compact (compact_power compact)]
    exact Nat.zero_le _
  | quotient | power => exact Nat.le_refl _

theorem bulkAll_le_of_forall₂ {es es' : List Expr}
    (h : List.Forall₂ (fun e e' => e'.bulk ≤ e.bulk) es es') : bulkAll es' ≤ bulkAll es := by
  rw [bulkAll_eq_sum, bulkAll_eq_sum]
  exact List.Forall₂.sum_le_sum (List.forall₂_map_left_iff.2 (List.forall₂_map_right_iff.2 h.flip))

/-- A pass does not raise the bulk. -/
theorem exists_pass_bulk {e : Expr} (wf : WellFormed e) :
    ∃ e', pass e = .ok e' ∧ e'.bulk ≤ e.bulk := by
  refine pass_related (R := fun e e' => e'.bulk ≤ e.bulk) ?num ?var ?evaluated ?node wf
  case num =>
    intro n
    exact Nat.le_refl _
  case var =>
    intro x
    exact Nat.le_refl _
  case evaluated =>
    intro op args n rewrites
    exact rewrites.bulk_le
  case node =>
    intro op args op' args' results _ rewrites related
    have rule := rewrites.bulk_le
    have inner := bulkAll_le_of_forall₂ (related.imp fun _ _ h => h.2)
    rw [bulk, leaves_collapse]
    rw [bulk_node op'] at rule
    exact Nat.le_trans inner rule

end Expr

end ArithTree
