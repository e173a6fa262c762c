import ArithTree.Proofs.Simplify.Collected
import ArithTree.Proofs.Simplify.Rewrites
import ArithTree.Proofs.Value.Quotient
import Mathlib.Algebra.Order.BigOperators.Group.List
import Mathlib.Tactic.Ring

/-!
# A potential that no rule raises

The size of an expression says little about simplification: `a - b` grows, `a + a` keeps its size,
and a quotient that leaves a product keeps it too. Here numerals and variables are given the
potentials 2 and 5, and an application is given the product of its arguments' potentials, doubled
for sums, products and powers, doubled and increased for quotients, and more than that for
differences. A rule that does more than to put terms into order, to forget how a numeral was
written, or to bring a fraction to lowest terms lowers the potential of the application
(`Rewrites.potential_le`).

The reasons, for potentials `a`, `b`, ... of the expressions involved:

* `a - b` has `8 * a * b + 1`, and `a + -1 * b` has `8 * a * b`;
* two constants have `2 * 2`, and one has 2;
* `v` and `v` have `5 * 5`, and `2 * v` and `v ^ 2` have 20;
* `p * (a / b)` has `4 * p * a * b + 2 * p`, and `(p * a) / b` has `4 * p * a * b + 1`.
-/

namespace ArithTree

/-- The potential of an application, from the product of its arguments' potentials. -/
def Op.potential (op : Op) (product : Nat) : Nat :=
  match op with
  | .add | .mul | .pow => 2 * product
  | .div => 2 * product + 1
  | .sub => 8 * product + 1

theorem Op.lt_potential (op : Op) {product : Nat} (pos : 0 < product) :
    product < op.potential product := by
  cases op <;> simp only [Op.potential] <;> omega

theorem Op.potential_le_iff {op : Op} {m n : Nat} : op.potential m ≤ op.potential n ↔ m ≤ n := by
  cases op <;> simp only [Op.potential] <;> omega

theorem Op.potential_inj {op : Op} {m n : Nat} : op.potential m = op.potential n ↔ m = n := by
  cases op <;> simp only [Op.potential] <;> omega

namespace Expr

mutual

/-- The potential of an expression. -/
def potential : Expr → Nat
  | .num _ => 2
  | .var _ => 5
  | .node op args => op.potential (potentialAll args)

/-- The product of the potentials of all expressions of a list. -/
def potentialAll : List Expr → Nat
  | [] => 1
  | e :: es => e.potential * potentialAll es

end

@[simp] theorem potential_num (n : Numeral) : (Expr.num n).potential = 2 := by rw [potential]

@[simp] theorem potential_ofInt (n : Int) : (ofInt n).potential = 2 := potential_num _

@[simp] theorem potential_var (x : String) : (Expr.var x).potential = 5 := by rw [potential]

theorem potential_node (op : Op) (args : List Expr) :
    (Expr.node op args).potential = op.potential (potentialAll args) := by
  rw [potential]

@[simp] theorem potentialAll_nil : potentialAll [] = 1 := by rw [potentialAll]

@[simp] theorem potentialAll_cons (e : Expr) (es : List Expr) :
    potentialAll (e :: es) = e.potential * potentialAll es := by
  rw [potentialAll]

theorem potentialAll_eq_prod (es : List Expr) : potentialAll es = (es.map potential).prod := by
  induction es with
  | nil => simp
  | cons e es ih => rw [potentialAll_cons, ih, List.map_cons, List.prod_cons]

theorem potentialAll_append (es fs : List Expr) :
    potentialAll (es ++ fs) = potentialAll es * potentialAll fs := by
  simp [potentialAll_eq_prod]

theorem potentialAll_perm {es fs : List Expr} (h : es.Perm fs) :
    potentialAll es = potentialAll fs := by
  rw [potentialAll_eq_prod, potentialAll_eq_prod, (h.map potential).prod_eq]

theorem potential_pos (e : Expr) : 0 < e.potential := by
  induction e using Expr.induction with
  | num | var => simp
  | node op args ih =>
    have pos : 0 < potentialAll args := by
      induction args with
      | nil => simp
      | cons a as rest =>
        rw [List.forall_mem_cons] at ih
        rw [potentialAll_cons]
        exact Nat.mul_pos ih.1 (rest ih.2)
    rw [potential_node]
    exact Nat.lt_trans pos (op.lt_potential pos)

theorem potentialAll_pos (es : List Expr) : 0 < potentialAll es := by
  induction es with
  | nil => simp
  | cons e es ih =>
    rw [potentialAll_cons]
    exact Nat.mul_pos e.potential_pos ih

/-- Two products agree if no factor of the first exceeds its partner, only if all partners agree. -/
theorem mul_eq_mul_of_le {a b c d : Nat} (ha : 0 < a) (hd : 0 < d) (hab : a ≤ b) (hcd : c ≤ d)
    (h : a * c = b * d) : a = b ∧ c = d :=
  (mul_eq_mul_iff_eq_and_eq_of_pos hab hcd ha hd).1 h

/-- Arguments of lower potential make an application of lower potential. -/
theorem potentialAll_le_of_forall₂ {es es' : List Expr}
    (h : List.Forall₂ (fun e e' => e'.potential ≤ e.potential) es es') :
    potentialAll es' ≤ potentialAll es := by
  induction h with
  | nil => exact Nat.le_refl _
  | cons first _ ih =>
    rw [potentialAll_cons, potentialAll_cons]
    exact Nat.mul_le_mul first ih

theorem potential_eq_of_forall₂ {es es' : List Expr}
    (h : List.Forall₂ (fun e e' => e'.potential ≤ e.potential) es es')
    (same : potentialAll es' = potentialAll es) :
    List.Forall₂ (fun e e' => e'.potential = e.potential) es es' := by
  induction h with
  | nil => exact .nil
  | cons first rest ih =>
    rw [potentialAll_cons, potentialAll_cons] at same
    obtain ⟨hfirst, hrest⟩ := mul_eq_mul_of_le (potential_pos _) (potentialAll_pos _) first
      (potentialAll_le_of_forall₂ rest) same
    exact .cons hfirst (ih hrest)

/-! ## Nested chains -/

/-- Splicing nested chains does not raise the potential, and keeps it only if there are none. -/
theorem potentialAll_chainTermsAll_le (op : Op) (es : List Expr) :
    potentialAll (chainTermsAll op es) ≤ potentialAll es ∧
      (potentialAll (chainTermsAll op es) = potentialAll es → ∀ e ∈ es, isNode op e = false) := by
  refine chainTermsAll_induction (motive := fun es ts => potentialAll ts ≤ potentialAll es ∧
    (potentialAll ts = potentialAll es → ∀ e ∈ es, isNode op e = false)) ?nil ?single ?splice es
  case nil => simp
  case single =>
    rintro e es ts he ⟨rest, flat⟩
    rw [potentialAll_cons, potentialAll_cons]
    refine ⟨Nat.mul_le_mul_left _ rest, ?_⟩
    intro same
    have same := Nat.eq_of_mul_eq_mul_left e.potential_pos same
    exact List.forall_mem_cons.2 ⟨he, flat same⟩
  case splice =>
    rintro args es ts ts' ⟨inner, _⟩ ⟨rest, _⟩
    -- The operator of the nested chain is gone, so this case lowers the potential.
    have lower : potentialAll ts < (Expr.node op args).potential := by
      rw [potential_node]
      exact Nat.lt_of_le_of_lt inner (op.lt_potential (potentialAll_pos args))
    have lower : potentialAll (ts ++ ts') < potentialAll (.node op args :: es) := by
      rw [potentialAll_append, potentialAll_cons]
      exact Nat.mul_lt_mul_of_lt_of_le lower rest (potentialAll_pos es)
    exact ⟨Nat.le_of_lt lower, fun same => absurd same (Nat.ne_of_lt lower)⟩

end Expr

/-! ## Collected terms -/

namespace Chain

open ArithTree.Expr

variable {c : Chain}

section Constants

theorem length_foldOnto_le (c : Chain) (first : Int) (ns : List Int) :
    (c.foldOnto first ns).length ≤ ns.length + 1 := by
  induction ns generalizing first with
  | nil => simp [foldOnto]
  | cons n ns ih =>
    unfold foldOnto
    split
    · next folded _ =>
      have := ih folded
      rw [List.length_cons]
      omega
    · have := ih n
      rw [List.length_cons, List.length_cons]
      omega

theorem isChain_of_length_foldOnto {first : Int} {ns : List Int}
    (same : (c.foldOnto first ns).length = ns.length + 1) :
    (first :: ns).IsChain fun a b => c.fold? a b = none := by
  induction ns generalizing first with
  | nil => exact .singleton first
  | cons n ns ih =>
    unfold foldOnto at same
    split at same
    · next folded _ =>
      have := c.length_foldOnto_le folded ns
      rw [List.length_cons] at same
      omega
    · next none =>
      rw [List.length_cons, List.length_cons] at same
      exact .cons_cons none (ih (by omega))

theorem foldOnto_of_isChain {first : Int} {ns : List Int}
    (h : (first :: ns).IsChain fun a b => c.fold? a b = none) :
    c.foldOnto first ns = first :: ns := by
  induction ns generalizing first with
  | nil => rfl
  | cons n ns ih =>
    rw [List.isChain_cons_cons] at h
    rw [foldOnto, h.1, ih h.2]

theorem length_foldConstants_le (c : Chain) (ns : List Int) :
    (c.foldConstants ns).length ≤ ns.length := by
  cases ns with
  | nil => exact Nat.le_refl _
  | cons n ns => exact c.length_foldOnto_le n ns

theorem isChain_of_length_foldConstants {ns : List Int}
    (same : (c.foldConstants ns).length = ns.length) :
    ns.IsChain fun a b => c.fold? a b = none := by
  cases ns with
  | nil => exact .nil
  | cons n ns => exact isChain_of_length_foldOnto same

/-- Constants stay as they are if no two neighbours fold. -/
theorem foldConstants_of_isChain {ns : List Int}
    (h : ns.IsChain fun a b => c.fold? a b = none) : c.foldConstants ns = ns := by
  cases ns with
  | nil => rfl
  | cons n ns => exact foldOnto_of_isChain h

end Constants

section Counts

/-- The potential of a term with a given number of occurrences. -/
def termPotential (t : String × Int) : Nat := if t.2 = 1 then 5 else 20

theorem potential_term (c : Chain) (t : String × Int) : (c.term t).potential = termPotential t := by
  unfold term termPotential
  split
  · simp
  · unfold multiple
    split <;> simp [potential_node, Op.potential]

theorem five_le_termPotential (t : String × Int) : 5 ≤ termPotential t := by
  unfold termPotential
  split <;> omega

theorem termPotential_le (t : String × Int) : termPotential t ≤ 20 := by
  unfold termPotential
  split <;> omega

theorem prod_termPotential_pos (ts : List (String × Int)) : 0 < (ts.map termPotential).prod := by
  induction ts with
  | nil => simp
  | cons t ts ih =>
    have := five_le_termPotential t
    rw [List.map_cons, List.prod_cons]
    exact Nat.mul_pos (by omega) ih

/-- Two terms for one variable have more potential than the one that they are merged into. -/
theorem termPotential_total_le (v : String) (n : Int) (ts : List (String × Int)) :
    termPotential (v, n + total v ts) ≤
        termPotential (v, n) * ((ts.filter (·.1 = v)).map termPotential).prod ∧
      (termPotential (v, n + total v ts) =
        termPotential (v, n) * ((ts.filter (·.1 = v)).map termPotential).prod →
        v ∉ ts.map (·.1)) := by
  cases h : ts.filter (·.1 = v) with
  | nil =>
    -- There is nothing to merge with, and the term stays as it is.
    have absent : v ∉ ts.map (·.1) := by
      intro hmem
      obtain ⟨t, ht, rfl⟩ := List.mem_map.1 hmem
      have : t ∈ ts.filter (·.1 = t.1) := List.mem_filter.2 ⟨ht, by simp⟩
      simp [h] at this
    rw [total_of_not_mem absent]
    exact ⟨by simp, fun _ => absent⟩
  | cons t rest =>
    -- At least two terms become one: 25 or more becomes 20 or less.
    have merged := termPotential_le (v, n + total v ts)
    have first := five_le_termPotential (v, n)
    have second := five_le_termPotential t
    have others := prod_termPotential_pos rest
    rw [List.map_cons, List.prod_cons]
    have apart : 5 * (5 * 1) ≤
        termPotential (v, n) * (termPotential t * (rest.map termPotential).prod) :=
      Nat.mul_le_mul first (Nat.mul_le_mul second others)
    exact ⟨by omega, by omega⟩

/-- Counting occurrences does not raise the potential, and keeps it only if no variable occurs in
two terms. -/
theorem potential_tally_le (ts : List (String × Int)) :
    ((tally ts).map termPotential).prod ≤ (ts.map termPotential).prod ∧
      (((tally ts).map termPotential).prod = (ts.map termPotential).prod →
        (ts.map (·.1)).Nodup) := by
  induction ts using tally_induction with
  | nil => simp [tally]
  | cons v n ts ih =>
    obtain ⟨hrest, nodup⟩ := ih
    obtain ⟨hv, absent⟩ := termPotential_total_le v n ts
    have split : (ts.map termPotential).prod =
        ((ts.filter (·.1 = v)).map termPotential).prod *
          ((ts.filter (·.1 ≠ v)).map termPotential).prod :=
      (List.prod_map_filter_mul_prod_map_filter_not (·.1 = v) termPotential ts).symm
    rw [tally_cons, List.map_cons, List.prod_cons, List.map_cons, List.prod_cons, split,
      ← Nat.mul_assoc]
    refine ⟨Nat.mul_le_mul hv hrest, ?_⟩
    intro same
    have pos : 0 < termPotential (v, n + total v ts) :=
      Nat.lt_of_lt_of_le (by omega) (five_le_termPotential _)
    obtain ⟨first, rest⟩ := mul_eq_mul_of_le pos (prod_termPotential_pos _) hv hrest same
    -- So the rest of the tally was made from all of the other terms.
    have unchanged : ts.filter (·.1 ≠ v) = ts := by
      apply List.filter_eq_self.2
      intro t ht
      have : t.1 ≠ v := fun h => absent first (h ▸ List.mem_map_of_mem ht)
      simpa using this
    rw [unchanged] at nodup rest
    exact List.nodup_cons.2 ⟨absent first, nodup rest⟩

end Counts

/-- No two terms can be merged: neighbouring constants do not fold, and no variable occurs in two
terms. -/
structure Apart (c : Chain) (args : List Expr) : Prop where
  constants : (args.filterMap constant?).IsChain fun a b => c.fold? a b = none
  counts : ((args.filterMap (occurrences? c.repetition)).map (·.1)).Nodup

theorem Apart.constants_eq {args : List Expr} (h : c.Apart args) :
    c.constants args = args.filterMap constant? := foldConstants_of_isChain h.constants

theorem Apart.counts_eq {args : List Expr} (h : c.Apart args) :
    c.counts args = args.filterMap (occurrences? c.repetition) := tally_of_nodup h.counts

/-- If no two terms can be merged, collecting them only puts them into order. -/
theorem Apart.collected_perm {args : List Expr} (h : c.Apart args) :
    (c.collected args).Perm (args.map c.tidy) := by
  have := c.collected_perm args
  rw [h.constants_eq, h.counts_eq] at this
  exact this.trans (c.tidy_perm args).symm

section Collected

variable (repeats : c.repetition = .mul ∨ c.repetition = .pow)

include repeats

theorem potential_tidy (e : Expr) : (c.tidy e).potential = e.potential := by
  unfold tidy
  split
  · next n hn =>
    cases e with
    | num m => simp
    | var | node => cases hn
  · next t _ ht =>
    rw [potential_term]
    unfold termPotential
    rcases occurrences?_eq_some ht with ⟨rfl, one⟩ | ⟨k, _, many, rfl | ⟨_, rfl⟩⟩
    · simp [one]
    · rw [if_neg (by omega)]
      rcases repeats with h | h <;> simp [h, potential_node, Op.potential]
    · rw [if_neg (by omega)]
      simp [potential_node, Op.potential]
  · rfl

/-- Collecting like terms does not raise the potential, and keeps it only if no two terms can be
merged. -/
theorem potentialAll_collected_le (args : List Expr) :
    potentialAll (c.collected args) ≤ potentialAll args ∧
      (potentialAll (c.collected args) = potentialAll args → c.Apart args) := by
  have twos (ns : List Int) : (ns.map fun n => (ofInt n).potential).prod = 2 ^ ns.length := by
    simp
  have terms (ts : List (String × Int)) :
      (ts.map fun t => (c.term t).potential) = ts.map termPotential :=
    List.map_congr_left fun t _ => c.potential_term t
  have kinds : potentialAll args = 2 ^ (args.filterMap constant?).length *
      ((args.filterMap (occurrences? c.repetition)).map termPotential).prod *
        potentialAll (c.others args) := by
    rw [potentialAll_eq_prod, potentialAll_eq_prod,
      (c.map_perm_of_kinds (potential_tidy repeats) args).prod_eq, List.prod_append, List.prod_append,
      twos, terms]
  have collected : potentialAll (c.collected args) = 2 ^ (c.constants args).length *
      ((c.counts args).map termPotential).prod * potentialAll (c.others args) := by
    rw [potentialAll_eq_prod, potentialAll_eq_prod,
      (c.map_collected_perm Expr.potential args).prod_eq, List.prod_append, List.prod_append, twos,
      terms]
  have folded : 2 ^ (c.constants args).length ≤ 2 ^ (args.filterMap constant?).length :=
    Nat.pow_le_pow_right (by omega) (c.length_foldConstants_le _)
  obtain ⟨counted, nodup⟩ := potential_tally_le (args.filterMap (occurrences? c.repetition))
  rw [collected, kinds]
  refine ⟨Nat.mul_le_mul (Nat.mul_le_mul folded counted) (Nat.le_refl _), ?_⟩
  intro same
  -- No factor was raised, so each of them was kept.
  have same := Nat.eq_of_mul_eq_mul_right (potentialAll_pos _) same
  obtain ⟨constants, counts⟩ := mul_eq_mul_of_le (Nat.two_pow_pos _) (prod_termPotential_pos _)
    folded counted same
  exact ⟨isChain_of_length_foldConstants (Nat.pow_right_injective (Nat.le_refl 2) constants),
    nodup counts⟩

end Collected

end Chain

/-! ## Rules -/

namespace Expr

/-- The rule for `op` only tidies the arguments: it puts the terms of a chain into order, writes
numerals and repeated variables in the usual way, or brings a fraction to lowest terms. -/
inductive Tidies : Op → List Expr → List Expr → Prop where
  | sum {args : List Expr} (flat : ∀ e ∈ args, isNode .add e = false)
      (apart : Chain.sum.Apart args) : Tidies .add args (Chain.sum.collected args)
  | product {args : List Expr} (flat : ∀ e ∈ args, isNode .mul e = false)
      (noQuotient : ∀ e ∈ args, isNode .div e = false)
      (apart : Chain.product.Apart args) : Tidies .mul args (Chain.product.collected args)
  | fraction (a b : Numeral) {p q : Int} (denom : 2 ≤ q) (lowest : Int.gcd p q = 1) :
    Tidies .div [.num a, .num b] [ofInt p, ofInt q]
  | quotient {left right : Expr} (none_or_both : isNode .div left = isNode .div right)
      (noFraction : ∀ a b, left = .num a → right = .num b → b.value = 0) :
    Tidies .div [left, right] [left, right]
  | power {base exponent : Expr}
      (kept : ∀ b e, base = .num b → exponent = .num e →
        ¬ (0 ≤ e.value ∧ PowerCompact b.value e.value.toNat)) :
    Tidies .pow [base, exponent] [base, exponent]

theorem potential_difference_lt (left right : Expr) :
    (Expr.node .add [left, .node .mul [ofInt (-1), right]]).potential <
      (Expr.node .sub [left, right]).potential := by
  simp only [potential_node, potentialAll_cons, potentialAll_nil, potential_ofInt, Op.potential]
  have : 2 * (left.potential * (2 * (2 * (right.potential * 1)) * 1)) =
      8 * (left.potential * (right.potential * 1)) := by ring
  omega

theorem potential_hoist_lt (before after : List Expr) (numer denom : Expr) :
    (Expr.node .div [.node .mul (before ++ after ++ [numer]), denom]).potential <
      (Expr.node .mul (before ++ .node .div [numer, denom] :: after)).potential := by
  have hbefore := potentialAll_pos before
  have hafter := potentialAll_pos after
  simp only [potential_node, potentialAll_cons, potentialAll_nil, potentialAll_append, Op.potential]
  have hpos : 0 < potentialAll before * potentialAll after := Nat.mul_pos hbefore hafter
  have expand : 2 * (potentialAll before *
      ((2 * (numer.potential * (denom.potential * 1)) + 1) * potentialAll after)) =
      2 * (2 * (potentialAll before * potentialAll after * (numer.potential * 1)) *
        (denom.potential * 1)) + 2 * (potentialAll before * potentialAll after) := by
    ring
  omega

theorem potential_leftQuotient_lt (a b c : Expr) :
    (Expr.node .div [a, .node .mul [b, c]]).potential <
      (Expr.node .div [.node .div [a, b], c]).potential := by
  have hc := c.potential_pos
  simp only [potential_node, potentialAll_cons, potentialAll_nil, Op.potential]
  have expand : 2 * ((2 * (a.potential * (b.potential * 1)) + 1) * (c.potential * 1)) =
      2 * (a.potential * (2 * (b.potential * (c.potential * 1)) * 1)) + 2 * c.potential := by
    ring
  omega

theorem potential_rightQuotient_lt (a b c : Expr) :
    (Expr.node .div [.node .mul [a, c], b]).potential <
      (Expr.node .div [a, .node .div [b, c]]).potential := by
  have ha := a.potential_pos
  simp only [potential_node, potentialAll_cons, potentialAll_nil, Op.potential]
  have expand : 2 * (a.potential * ((2 * (b.potential * (c.potential * 1)) + 1) * 1)) =
      2 * (2 * (a.potential * (c.potential * 1)) * (b.potential * 1)) + 2 * a.potential := by
    ring
  omega

/-- What is known of a chain's terms when they have been spliced and collected. -/
theorem potentialAll_splice_le {c : Chain} (repeats : c.repetition = .mul ∨ c.repetition = .pow)
    (args : List Expr) :
    potentialAll (c.collected (chainTermsAll c.op args)) ≤ potentialAll args ∧
      (potentialAll (c.collected (chainTermsAll c.op args)) = potentialAll args →
        (∀ e ∈ args, isNode c.op e = false) ∧ chainTermsAll c.op args = args ∧ c.Apart args) := by
  obtain ⟨spliced, flat⟩ := potentialAll_chainTermsAll_le c.op args
  obtain ⟨collected, apart⟩ := Chain.potentialAll_collected_le repeats (chainTermsAll c.op args)
  refine ⟨Nat.le_trans collected spliced, ?_⟩
  intro same
  have flat := flat (by omega)
  have terms := chainTermsAll_of_not_isNode flat
  refine ⟨flat, terms, ?_⟩
  have apart := apart (by omega)
  rwa [terms] at apart

/-- No rule raises the potential, and one that keeps it only tidies. -/
theorem Rewrites.potential_le {op op' : Op} {args args' : List Expr}
    (h : Rewrites op args (.node op' args')) :
    (Expr.node op' args').potential ≤ (Expr.node op args).potential ∧
      ((Expr.node op' args').potential = (Expr.node op args).potential →
        op' = op ∧ Tidies op args args') := by
  cases h with
  | difference left right =>
    have := potential_difference_lt left right
    exact ⟨by omega, by omega⟩
  | sum =>
    obtain ⟨le, settled⟩ := potentialAll_splice_le (c := .sum) (.inl rfl) args
    rw [potential_node, potential_node]
    refine ⟨Op.potential_le_iff.2 le, ?_⟩
    intro same
    obtain ⟨flat, terms, apart⟩ := settled (Op.potential_inj.1 same)
    rw [Chain.op_sum] at terms
    rw [terms]
    exact ⟨rfl, .sum flat apart⟩
  | product noQuotient =>
    obtain ⟨le, settled⟩ := potentialAll_splice_le (c := .product) (.inr rfl) args
    rw [potential_node, potential_node]
    refine ⟨Op.potential_le_iff.2 le, ?_⟩
    intro same
    obtain ⟨flat, terms, apart⟩ := settled (Op.potential_inj.1 same)
    rw [Chain.op_product] at terms
    rw [terms]
    exact ⟨rfl, .product flat noQuotient apart⟩
  | @hoist before after numer denom =>
    have := potential_hoist_lt before after numer denom
    exact ⟨by omega, by omega⟩
  | @leftQuotient a b c =>
    have := potential_leftQuotient_lt a b c
    exact ⟨by omega, by omega⟩
  | @rightQuotient a b c =>
    have := potential_rightQuotient_lt a b c
    exact ⟨by omega, by omega⟩
  | @fraction a b p q nonzero value =>
    obtain ⟨denom, lowest, _⟩ := lowest_of_quotient_eq_fraction value
    exact ⟨by simp [potential_node], fun _ => ⟨rfl, .fraction a b denom lowest⟩⟩
  | quotient none_or_both noFraction =>
    exact ⟨Nat.le_refl _, fun _ => ⟨rfl, .quotient none_or_both noFraction⟩⟩
  | power kept => exact ⟨Nat.le_refl _, fun _ => ⟨rfl, .power kept⟩⟩

/-- A rule that evaluates an application lowers its potential. -/
theorem Rewrites.potential_num_lt {op : Op} {args : List Expr} {n : Numeral}
    (h : Rewrites op args (.num n)) :
    (Expr.num n).potential < (Expr.node op args).potential := by
  cases h with
  | whole | evaluated => simp [potential_node, Op.potential]

end Expr

end ArithTree
