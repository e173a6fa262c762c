import ArithTree.Proofs.Polynomial.Pass
import ArithTree.Proofs.Value.Size

/-!
# The magnitude of a polynomial

The magnitude of a polynomial is its value when all integers are replaced by their magnitudes, and
zero by one, all variables by one, and all differences by sums. It bounds every constant that can
come about when like terms are collected. A pass does not raise it (`exists_pass_magnitude`).
Therefore, if it is compact, no two constants of a chain are kept from being folded
(`length_constants_le_one`).
-/

namespace ArithTree

open ArithTree.Expr

/-! ## Operators -/

/-- The magnitude of an operator's application, given those of its arguments. A power of a variable
has the magnitude one; quotients do not occur in polynomials. -/
def Op.magnitude : Op → List Nat → Nat
  | .add, ms | .sub, ms => ms.sum
  | .mul, ms => ms.prod
  | .div, _ | .pow, _ => 1

theorem Chain.IsRing.magnitude_le {c : Chain} (ring : c.IsRing) {ms ns : List Nat}
    (h : List.Forall₂ (· ≤ ·) ms ns) : c.op.magnitude ms ≤ c.op.magnitude ns := by
  rcases ring with rfl | rfl
  · exact h.sum_le_sum
  · exact h.prod_le_prod'

theorem Chain.IsRing.magnitude_le_of_sublist {c : Chain} (ring : c.IsRing) {ms ns : List Nat}
    (h : ms.Sublist ns) (pos : ∀ n ∈ ns, 1 ≤ n) : c.op.magnitude ms ≤ c.op.magnitude ns := by
  rcases ring with rfl | rfl
  · exact h.sum_le_sum fun _ _ => Nat.zero_le _
  · exact h.prod_le_prod' pos

theorem Chain.IsRing.magnitude_singleton {c : Chain} (ring : c.IsRing) (n : Nat) :
    c.op.magnitude [n] = n := by
  rcases ring with rfl | rfl
  · exact List.sum_singleton
  · exact List.prod_singleton

/-- What two constants fold into is no greater than their magnitudes allow. -/
theorem Chain.IsRing.fold?_ne_none {c : Chain} (ring : c.IsRing) {a b : Int} {m : Nat}
    (compact : Compact m) (h : c.op.magnitude [max 1 a.natAbs, max 1 b.natAbs] ≤ m) :
    c.fold? a b ≠ none := by
  rcases ring with rfl | rfl
  · have le : max 1 a.natAbs + max 1 b.natAbs ≤ m := by simpa [Op.magnitude] using h
    have compact : Compact (a + b) := compact.mono (by omega)
    simp [Chain.fold?_sum, compact]
  · have le : max 1 a.natAbs * max 1 b.natAbs ≤ m := by simpa [Op.magnitude] using h
    have product : a.natAbs * b.natAbs ≤ max 1 a.natAbs * max 1 b.natAbs :=
      Nat.mul_le_mul (Nat.le_max_right _ _) (Nat.le_max_right _ _)
    have compact : Compact (a * b) := compact.mono (by rw [Int.natAbs_mul]; omega)
    simp [Chain.fold?_product, compact]

namespace Expr

/-! ## Expressions -/

mutual

/-- The value of a polynomial whose integers are replaced by their magnitudes, or by one if they are
zero, whose variables are replaced by one, and whose differences are replaced by sums. -/
def magnitude : Expr → Nat
  | .num n => max 1 n.value.natAbs
  | .var _ => 1
  | .node op args => op.magnitude (magnitudes args)

/-- The magnitudes of all expressions of a list. -/
def magnitudes : List Expr → List Nat
  | [] => []
  | e :: es => e.magnitude :: magnitudes es

end

@[simp] theorem magnitude_num (n : Numeral) : (Expr.num n).magnitude = max 1 n.value.natAbs := by
  rw [magnitude]

@[simp] theorem magnitude_ofInt (n : Int) : (ofInt n).magnitude = max 1 n.natAbs := magnitude_num _

@[simp] theorem magnitude_var (x : String) : (Expr.var x).magnitude = 1 := by rw [magnitude]

theorem magnitudes_eq_map (es : List Expr) : magnitudes es = es.map magnitude := by
  induction es with
  | nil => rw [magnitudes, List.map_nil]
  | cons e es ih => rw [magnitudes, ih, List.map_cons]

theorem magnitude_node (op : Op) (args : List Expr) :
    (Expr.node op args).magnitude = op.magnitude (args.map magnitude) := by
  rw [magnitude, magnitudes_eq_map]

theorem one_le_magnitude {e : Expr} (poly : IsPolynomial e) : 1 ≤ e.magnitude := by
  induction e using Expr.induction with
  | num n => simp
  | var x => simp
  | node op args ih =>
    obtain ⟨node, inner⟩ := isPolynomial_node.1 poly
    have pos : ∀ m ∈ args.map magnitude, 1 ≤ m := by
      simp only [List.forall_mem_map]
      exact fun a ha => ih a ha (inner a ha)
    rw [magnitude_node]
    cases op with
    | add | sub =>
      match args, node with
      | a :: as, _ =>
        have first := pos a.magnitude (by simp)
        simp only [Op.magnitude, List.map_cons, List.sum_cons]
        omega
    | mul => exact List.one_le_prod_of_one_le pos
    | pow => exact Nat.le_refl 1
    | div => cases node

/-- Arguments of a chain have no greater magnitudes. -/
theorem magnitude_le_of_mem {c : Chain} (ring : c.IsRing) {args : List Expr}
    (poly : IsPolynomial (.node c.op args)) {a : Expr} (ha : a ∈ args) :
    a.magnitude ≤ (Expr.node c.op args).magnitude := by
  have inner := (isPolynomial_node.1 poly).2
  rw [magnitude_node, ← ring.magnitude_singleton a.magnitude]
  apply ring.magnitude_le_of_sublist (List.singleton_sublist.2 (List.mem_map_of_mem ha))
  simp only [List.forall_mem_map]
  exact fun b hb => one_le_magnitude (inner b hb)

/-! ## Chains -/

theorem sizes_magnitude : Sizes magnitude 1 where
  num := magnitude_num
  var := magnitude_var
  sum args := magnitude_node .add args
  product args := magnitude_node .mul args
  power x k _ := by rw [magnitude_node, Op.magnitude, one_pow]

/-- Collecting the terms of a chain does not raise its magnitude. -/
theorem magnitude_collected_le {c : Chain} (ring : c.IsRing) (args : List Expr) :
    (Expr.node c.op (c.collected (chainTermsAll c.op args))).magnitude ≤
      (Expr.node c.op args).magnitude := by
  rcases ring with rfl | rfl
  · exact sizes_magnitude.sum_collected_le args
  · exact sizes_magnitude.product_collected_le args

/-! ## Passes -/

/-- A pass does not raise the magnitude of a polynomial. -/
theorem exists_pass_magnitude {e : Expr} (poly : IsPolynomial e) :
    ∃ e', pass e = .ok e' ∧ IsPolynomial e' ∧ e'.magnitude ≤ e.magnitude := by
  refine exists_pass_polynomial (R := fun e e' => e'.magnitude ≤ e.magnitude)
    (fun _ => Nat.le_refl _) (fun _ => Nat.le_refl _) (fun _ _ => Nat.le_refl _)
    ?difference ?chain ?single poly
  case difference =>
    intro left right left' negative hleft hnegative
    have product : (Expr.node .mul [ofInt (-1), right]).magnitude = right.magnitude := by
      simp [magnitude_node, Op.magnitude]
    simp only [magnitude_node, Op.magnitude, List.map_cons, List.map_nil, List.sum_cons,
      List.sum_nil]
    omega
  case chain =>
    intro c args results ring related
    refine Nat.le_trans ?_ (magnitude_collected_le ring args)
    rw [magnitude_node, magnitude_node]
    apply ring.magnitude_le
    rw [List.forall₂_map_left_iff, List.forall₂_map_right_iff]
    exact related.flip
  case single =>
    intro c args e ring collected _
    have lower := magnitude_collected_le ring args
    rwa [collected, magnitude_node, List.map_singleton, ring.magnitude_singleton] at lower

/-! ## Fixed points -/

theorem constants_sublist (args : List Expr) :
    ((args.filterMap constant?).map fun n => max 1 n.natAbs).Sublist (args.map magnitude) := by
  induction args with
  | nil => exact .slnil
  | cons a as ih =>
    cases a with
    | num n => simpa [constant?] using ih
    | var | node => exact ih.cons _

/-- If the magnitude of a chain is compact, its constants fold into one. -/
theorem length_constants_le_one {c : Chain} (ring : c.IsRing) {args : List Expr}
    (poly : ∀ a ∈ args, IsPolynomial a) (apart : c.Apart args)
    (compact : Compact (Expr.node c.op args).magnitude) :
    (args.filterMap constant?).length ≤ 1 := by
  have sublist := constants_sublist args
  have unfolded := apart.constants
  match hns : args.filterMap constant? with
  | [] | [_] => simp
  | a :: b :: ns =>
    rw [hns] at sublist unfolded
    have pair : [max 1 a.natAbs, max 1 b.natAbs].Sublist (args.map magnitude) :=
      .trans (by simp) sublist
    have le := ring.magnitude_le_of_sublist pair (by
      simp only [List.forall_mem_map]
      exact fun e he => one_le_magnitude (poly e he))
    rw [magnitude_node] at compact
    exact absurd (List.isChain_cons_cons.1 unfolded).1 (ring.fold?_ne_none compact le)

/-- A polynomial in normal form whose constants are all compact, and would be if they were
folded. -/
structure Settled (e : Expr) : Prop where
  poly : IsPolynomial e
  stable : Everywhere Stable e
  compact : Compact e.magnitude

/-- What there is to know of the terms of a settled chain. -/
structure SettledChain (c : Chain) (args : List Expr) : Prop where
  ring : c.IsRing
  two : 2 ≤ args.length
  settled : ∀ a ∈ args, Settled a
  flat : ∀ a ∈ args, isNode c.op a = false
  apart : c.Apart args
  constants : (args.filterMap constant?).length ≤ 1
  textFree : ∀ a ∈ args, TextFree a

theorem textFree_of_normalTerms {c : Chain} {fold : Int → Int → Int} {merged : String → Int → Expr}
    (follows : c.Follows fold merged) {args : List Expr}
    (h : NormalTerms fold merged (IsOther c.op) args) : ∀ a ∈ args, TextFree a := by
  rintro a ha n rfl
  obtain ⟨g, rfl, separate⟩ := h
  simp only [Groups.terms, List.mem_append, List.mem_map] at ha
  rcases ha with ((⟨m, _, h⟩ | ⟨t, _, h⟩) | h) | ⟨v, _, h⟩
  · cases h
    rfl
  · rw [← follows.merges] at h
    unfold multiple at h
    split at h <;> cases h
  · obtain ⟨⟨_, _, impossible⟩, _⟩ := separate.others _ h
    cases impossible
  · cases h

theorem chain_of_normalNode {c : Chain} (ring : c.IsRing) {args : List Expr}
    (h : NormalNode IsOther c.op args) :
    (∀ a ∈ args, isNode c.op a = false) ∧ c.Apart args ∧ ∀ a ∈ args, TextFree a := by
  rcases ring with rfl | rfl
  · obtain ⟨flat, terms⟩ := h
    have textFree := textFree_of_normalTerms Chain.follows_sum terms
    obtain ⟨g, rfl, separate⟩ := terms
    exact ⟨flat, apart_of_separate Chain.follows_sum separate, textFree⟩
  · obtain ⟨flat, _, terms⟩ := h
    have textFree := textFree_of_normalTerms Chain.follows_product terms
    obtain ⟨g, rfl, separate⟩ := terms
    exact ⟨flat, apart_of_separate Chain.follows_product separate, textFree⟩

/-- Induction on settled polynomials: numerals, variables, powers and chains. -/
theorem Settled.induction {motive : Expr → Prop} (num : ∀ n, motive (.num n))
    (var : ∀ x, motive (.var x))
    (power : ∀ v k, 1 < k → motive (.node .pow [.var v, ofInt k]))
    (chain : ∀ {c args}, SettledChain c args → (∀ a ∈ args, motive a) → motive (.node c.op args))
    {e : Expr} (h : Settled e) : motive e := by
  induction e using Expr.induction with
  | num n => exact num n
  | var x => exact var x
  | node op args ih =>
    have node := (isPolynomial_node.1 h.poly).1
    have normal := ((everywhere_node _).1 h.stable).1.1
    have stable := ((everywhere_node _).1 h.stable).2
    have ofChain {c : Chain} (ring : c.IsRing) (hop : c.op = op) : motive (.node op args) := by
      subst hop
      obtain ⟨flat, apart, textFree⟩ := chain_of_normalNode ring normal
      obtain ⟨two, inner⟩ := (isPolynomial_chain ring).1 h.poly
      have settled : ∀ a ∈ args, Settled a := by
        intro a ha
        exact ⟨inner a ha, stable a ha, h.compact.mono (magnitude_le_of_mem ring h.poly ha)⟩
      have constants := length_constants_le_one ring inner apart h.compact
      exact chain ⟨ring, two, settled, flat, apart, constants, textFree⟩
        fun a ha => ih a ha (settled a ha)
    cases op with
    | add => exact ofChain (.inl rfl) rfl
    | mul => exact ofChain (.inr rfl) rfl
    | sub => cases normal
    | pow =>
      obtain ⟨v, k, many, rfl⟩ := node
      exact power v k many
    | div => cases node

end Expr

end ArithTree
