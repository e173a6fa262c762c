import ArithTree.Proofs.Simplify.Collected
import Mathlib.Algebra.Order.BigOperators.Group.List

/-!
# Interpretations of chains

A chain is measured in a commutative monoid if its operator is measured by the product, and a
variable that occurs many times by a power. Collecting like terms then changes no more than the
product of the constants (`Chain.Measures.exists_prod_collected`). If the monoid is ordered and
folding does not raise the measure, neither does collecting (`Chain.Measures.collected_le`).

A chain is interpreted if folding is measured by the product of two constants as well. Elements that
stand for expressions without a value are not told apart from others: whether an expression has a
value is then part of what is interpreted.

Main statement: splicing nested chains and collecting like terms does not change the interpretation
(`Chain.Interprets.collected`).
-/

namespace ArithTree

open ArithTree.Expr

/-- `val` measures the expressions in a commutative monoid: numerals by their values, what counts as
a variable by how often it does, and chains by the product of their terms. -/
structure Chain.Measures {M : Type} [CommMonoid M] (c : Chain) (val : Expr → M) (int : Int → M)
    (var : String → M) : Prop where
  repeats : c.repetition = .mul ∨ c.repetition = .pow
  numeral : ∀ n : Numeral, val (.num n) = int n.value
  counted : ∀ e v n, occurrences? c.repetition e = some (v, n) → val e = var v ^ n.toNat
  chain : ∀ args, val (.node c.op args) = (args.map val).prod

namespace Chain.Measures

variable {M : Type} [CommMonoid M] {c : Chain} {val : Expr → M} {int : Int → M} {var : String → M}

theorem prod_spliced (h : c.Measures val int var) (es : List Expr) :
    ((chainTermsAll c.op es).map val).prod = (es.map val).prod := by
  refine chainTermsAll_induction (motive := fun es ts => (ts.map val).prod = (es.map val).prod)
    ?nil ?single ?splice es
  case nil => rfl
  case single =>
    intro e es ts _ ih
    rw [List.map_cons, List.prod_cons, List.map_cons, List.prod_cons, ih]
  case splice =>
    intro args es ts ts' ihargs ihes
    rw [List.map_append, List.prod_append, ihargs, ihes, List.map_cons, List.prod_cons, h.chain]

theorem val_term (h : c.Measures val int var) {t : String × Int} (pos : 0 < t.2) :
    val (c.term t) = var t.1 ^ t.2.toNat :=
  h.counted _ _ _ (c.occurrences?_term h.repeats pos)

theorem val_tidy (h : c.Measures val int var) (e : Expr) : val (c.tidy e) = val e := by
  unfold Chain.tidy
  split
  · next n hn =>
    cases e with
    | num m =>
      cases hn
      rw [h.numeral, ofInt, h.numeral, Numeral.value_ofInt]
    | var | node => cases hn
  · next t _ ht => rw [h.val_term (Chain.pos_of_occurrences? ht), h.counted _ _ _ ht]
  · rfl

/-- Collecting terms changes nothing in their product but the constants. -/
theorem exists_prod_collected (h : c.Measures val int var) (args : List Expr) :
    ∃ rest, (args.map val).prod = ((args.filterMap constant?).map int).prod * rest ∧
      ((c.collected args).map val).prod = ((c.constants args).map int).prod * rest := by
  have terms {ts : List (String × Int)} (pos : ∀ t ∈ ts, 0 < t.2) :
      (ts.map fun t => val (c.term t)) = ts.map fun t => var t.1 ^ t.2.toNat :=
    List.map_congr_left fun t ht => h.val_term (pos t ht)
  have ints (n : Int) : val (ofInt n) = int n := h.numeral _
  refine ⟨((args.filterMap (occurrences? c.repetition)).map fun t => var t.1 ^ t.2.toNat).prod *
    ((c.others args).map val).prod, ?_, ?_⟩
  · rw [(c.map_perm_of_kinds h.val_tidy args).prod_eq, List.prod_append, List.prod_append,
      terms c.pos_of_mem_occurrences, mul_assoc]
    simp only [ints]
  · rw [(c.map_collected_perm val args).prod_eq, List.prod_append, List.prod_append,
      terms c.pos_of_mem_counts, Chain.counts, prod_tally var c.pos_of_mem_occurrences, mul_assoc]
    simp only [ints]

end Chain.Measures

/-! ## Ordered monoids -/

section Ordered

variable {M : Type} [CommMonoid M] [PartialOrder M] [IsOrderedMonoid M] {c : Chain}

theorem Chain.prod_foldConstants_le {x : Int → M}
    (hx : ∀ a b n, c.fold? a b = some n → x n ≤ x a * x b) (ns : List Int) :
    ((c.foldConstants ns).map x).prod ≤ (ns.map x).prod := by
  have onto (first : Int) (ns : List Int) :
      ((c.foldOnto first ns).map x).prod ≤ x first * (ns.map x).prod := by
    induction ns generalizing first with
    | nil => simp [Chain.foldOnto]
    | cons n ns ih =>
      rw [Chain.foldOnto, List.map_cons, List.prod_cons, ← mul_assoc]
      split
      · next folded h => exact (ih folded).trans (mul_le_mul_left (hx _ _ _ h) _)
      · rw [List.map_cons, List.prod_cons, mul_assoc]
        exact mul_le_mul_right (ih n) _
  cases ns with
  | nil => exact le_refl _
  | cons n ns => exact onto n ns

/-- Splicing a chain and collecting its terms does not raise a measure that folding does not
raise. -/
theorem Chain.Measures.collected_le {val : Expr → M} {int : Int → M} {var : String → M}
    (h : c.Measures val int var) (hx : ∀ a b n, c.fold? a b = some n → int n ≤ int a * int b)
    (args : List Expr) :
    val (.node c.op (c.collected (chainTermsAll c.op args))) ≤ val (.node c.op args) := by
  obtain ⟨rest, before, after⟩ := h.exists_prod_collected (chainTermsAll c.op args)
  rw [h.chain, h.chain, after, ← h.prod_spliced args, before]
  exact mul_le_mul_left (c.prod_foldConstants_le hx _) rest

end Ordered

/-- `val` interprets the expressions in a commutative monoid, and the operators of the chain as
multiplication and powers in it, so that folding two constants multiplies them. -/
structure Chain.Interprets {M : Type} [CommMonoid M] (c : Chain) (val : Expr → M) (int : Int → M)
    (var : String → M) : Prop extends c.Measures val int var where
  folded : ∀ a b n : Int, c.fold? a b = some n → int n = int a * int b

namespace Chain.Interprets

variable {M : Type} [CommMonoid M] {c : Chain} {val : Expr → M} {int : Int → M} {var : String → M}

theorem prod_collected (h : c.Interprets val int var) (args : List Expr) :
    ((c.collected args).map val).prod = (args.map val).prod := by
  obtain ⟨rest, before, after⟩ := h.exists_prod_collected args
  rw [before, after, Chain.constants, c.prod_foldConstants h.folded]

/-- Splicing a chain and collecting its terms keeps its interpretation. -/
theorem collected (h : c.Interprets val int var) (args : List Expr) :
    val (.node c.op (c.collected (chainTermsAll c.op args))) = val (.node c.op args) := by
  rw [h.chain, h.chain, h.prod_collected, h.prod_spliced]

end Chain.Interprets

end ArithTree
