import ArithTree.Proofs.Simplify.FixedPoint
import ArithTree.Proofs.Simplify.Several

/-!
# Polynomials

A polynomial is made of sums, differences and products of two terms or more, and of powers of a
variable, with an exponent greater than one. What is read from a text without quotients and powers
is a polynomial, and passes over it make polynomials again; its powers stand for factors that were
counted.

Main statement: `exists_pass_polynomial`. On polynomials a pass can do little: it makes a sum of a
difference, and collects the terms of a chain.
-/

namespace ArithTree

open ArithTree.Expr

/-- The chains in which like terms are collected. -/
def Chain.IsRing (c : Chain) : Prop := c = .sum ∨ c = .product

theorem Chain.IsRing.repeats {c : Chain} (h : c.IsRing) :
    c.repetition = .mul ∨ c.repetition = .pow := by
  rcases h with rfl | rfl
  · exact .inl rfl
  · exact .inr rfl

theorem Chain.stable_term (c : Chain) (t : String × Int) : Everywhere Stable (c.term t) := by
  unfold Chain.term
  split
  · exact everywhere_var _ _
  · exact stable_multiple _ _ _

namespace Expr

/-- Which applications there are in polynomials. -/
def PolynomialNode : Op → List Expr → Prop
  | .add, args | .mul, args => 2 ≤ args.length
  | .sub, args => args.length = 2
  | .pow, args => ∃ v k, 1 < k ∧ args = [.var v, ofInt k]
  | .div, _ => False

/-- An expression without quotients, and without powers but those of variables. -/
abbrev IsPolynomial : Expr → Prop := Everywhere PolynomialNode

theorem isPolynomial_node {op : Op} {args : List Expr} :
    IsPolynomial (.node op args) ↔ PolynomialNode op args ∧ ∀ e ∈ args, IsPolynomial e :=
  everywhere_node _

theorem isPolynomial_chain {c : Chain} (ring : c.IsRing) {args : List Expr} :
    IsPolynomial (.node c.op args) ↔ 2 ≤ args.length ∧ ∀ e ∈ args, IsPolynomial e := by
  rcases ring with rfl | rfl
  · exact isPolynomial_node
  · exact isPolynomial_node

theorem IsPolynomial.several {e : Expr} (h : IsPolynomial e) : Several e := by
  refine Everywhere.imp _ ?_ h
  intro op args node
  cases op with
  | add | mul => exact node
  | sub => exact Nat.le_of_eq (Eq.symm node)
  | pow =>
    obtain ⟨v, k, _, rfl⟩ := node
    exact Nat.le_refl 2
  | div => cases node

theorem IsPolynomial.wellFormed {e : Expr} (h : IsPolynomial e) : WellFormed e := by
  refine Everywhere.imp _ ?_ h
  intro op args node
  cases op with
  | add => exact .inl rfl
  | mul => exact .inr (.inl rfl)
  | sub => exact .inr (.inr node)
  | pow =>
    obtain ⟨v, k, _, rfl⟩ := node
    exact .inr (.inr rfl)
  | div => cases node

theorem isPolynomial_collected {c : Chain} {args : List Expr} (h : ∀ e ∈ args, IsPolynomial e) :
    ∀ e ∈ c.collected (chainTermsAll c.op args), IsPolynomial e := fun _ he =>
  everywhere_of_mem_collected (fun _ _ _ => Nat.le_refl 2) (fun v k many => ⟨v, k, many, rfl⟩)
    (everywhere_of_mem_chainTermsAll h) he

/-- What a rule does to a polynomial. -/
inductive PolynomialRewrites : Op → List Expr → Expr → Prop where
  | chain {c : Chain} (ring : c.IsRing) (args : List Expr) :
    PolynomialRewrites c.op args (.node c.op (c.collected (chainTermsAll c.op args)))
  | difference (left right : Expr) :
    PolynomialRewrites .sub [left, right] (.node .add [left, .node .mul [ofInt (-1), right]])
  | power (v : String) (k : Int) :
    PolynomialRewrites .pow [.var v, ofInt k] (.node .pow [.var v, ofInt k])

theorem Rewrites.polynomial {op : Op} {args : List Expr} {r : Expr} (h : Rewrites op args r)
    (poly : IsPolynomial (.node op args)) : PolynomialRewrites op args r := by
  obtain ⟨node, inner⟩ := isPolynomial_node.1 poly
  cases h with
  | difference left right => exact .difference left right
  | sum => exact .chain (.inl rfl) args
  | product => exact .chain (.inr rfl) args
  | hoist =>
    simp only [List.forall_mem_append, List.forall_mem_cons, isPolynomial_node] at inner
    exact absurd inner.2.1.1 id
  | leftQuotient | rightQuotient | whole | fraction | quotient => cases node
  | evaluated =>
    obtain ⟨v, k, _, impossible⟩ := node
    cases impossible
  | power =>
    obtain ⟨v, k, _, h⟩ := node
    cases h
    exact .power v k

/-! ## Passes -/

/-- What passes over the collected terms of a chain leave is a chain, or the only term. -/
theorem collapse_collected {c : Chain} {args results : List Expr}
    (poly : IsPolynomial (.node c.op args))
    (passed : List.Forall₂ (fun e e' => pass e = .ok e') (c.collected (chainTermsAll c.op args))
      results) :
    (2 ≤ results.length ∧ collapse c.op results = .node c.op results) ∨
      ∃ e, c.collected (chainTermsAll c.op args) = [e] ∧ collapse c.op results = e ∧
        ((∃ n, e = ofInt n) ∨ ∃ t, 0 < t.2 ∧ e = c.term t) := by
  have alone {e : Expr} (collected : c.collected (chainTermsAll c.op args) = [e])
      (fixed : pass e = .ok e) : collapse c.op results = e := by
    rw [collected, List.forall₂_cons_left_iff] at passed
    obtain ⟨e', _, passed, rest, rfl⟩ := passed
    cases fixed.symm.trans passed
    rw [List.forall₂_nil_left_iff.1 rest]
    rfl
  rcases collected_of_several c poly.several with many | ⟨n, _, collected⟩ | ⟨t, pos, collected⟩
  · rw [passed.length_eq] at many
    exact .inl ⟨many, collapse_of_length (by omega)⟩
  · exact .inr ⟨_, collected, alone collected (pass_num _), .inl ⟨n, rfl⟩⟩
  · exact .inr ⟨_, collected, alone collected (pass_of_stable (c.stable_term t)),
      .inr ⟨t, pos, rfl⟩⟩

/-- A pass over a polynomial makes a polynomial, and is related to it by every relation that holds
for numerals, variables and powers, for a difference and the sum of what becomes of the two terms,
and for a chain and what becomes of the collected terms, or of the only one. -/
theorem exists_pass_polynomial {R : Expr → Expr → Prop} (num : ∀ n, R (.num n) (.num n))
    (var : ∀ x, R (.var x) (.var x))
    (power : ∀ v k, R (.node .pow [.var v, ofInt k]) (.node .pow [.var v, ofInt k]))
    (difference : ∀ {left right left' negative}, R left left' →
      R (.node .mul [ofInt (-1), right]) negative →
      R (.node .sub [left, right]) (.node .add [left', negative]))
    (chain : ∀ {c : Chain} {args results}, c.IsRing →
      List.Forall₂ R (c.collected (chainTermsAll c.op args)) results →
      R (.node c.op args) (.node c.op results))
    (single : ∀ {c : Chain} {args e}, c.IsRing → c.collected (chainTermsAll c.op args) = [e] →
      ((∃ n, e = ofInt n) ∨ ∃ t, 0 < t.2 ∧ e = c.term t) → R (.node c.op args) e)
    {e : Expr} (poly : IsPolynomial e) : ∃ e', pass e = .ok e' ∧ IsPolynomial e' ∧ R e e' := by
  have related := pass_related (R := fun e e' => IsPolynomial e → IsPolynomial e' ∧ R e e')
    (fun n _ => ⟨everywhere_num _ n, num n⟩) (fun x _ => ⟨everywhere_var _ x, var x⟩)
    ?evaluated ?node poly.wellFormed
  · obtain ⟨e', passed, h⟩ := related
    exact ⟨e', passed, h poly⟩
  case evaluated =>
    intro op args n rewrites poly
    cases rewrites.polynomial poly
  case node =>
    intro op args op' args' results _ rewrites related poly
    obtain ⟨node, inner⟩ := isPolynomial_node.1 poly
    have keeps (poly' : ∀ e ∈ args', IsPolynomial e) :
        List.Forall₂ (fun e e' => IsPolynomial e' ∧ R e e') args' results :=
      ((List.forall₂_and_left args' results).2 ⟨poly', related⟩).imp fun _ _ h => h.2.2 h.1
    generalize hr : Expr.node op' args' = r at rewrites
    cases rewrites.polynomial poly with
    | difference left right =>
      cases hr
      simp only [List.forall_mem_cons] at inner
      have product : IsPolynomial (.node .mul [ofInt (-1), right]) :=
        (isPolynomial_chain (.inr rfl)).2 ⟨Nat.le_refl 2, by simp [ofInt, inner.2.1]⟩
      have kept := keeps (by simp [inner.1, product])
      simp only [List.forall₂_cons_left_iff, List.forall₂_nil_left_iff] at kept
      obtain ⟨left', _, ⟨hleft, rleft⟩, ⟨negative, _, ⟨hnegative, rnegative⟩, rfl, rfl⟩, rfl⟩ :=
        kept
      have sum : IsPolynomial (.node .add [left', negative]) :=
        (isPolynomial_chain (.inl rfl)).2 ⟨Nat.le_refl 2, by simp [hleft, hnegative]⟩
      exact ⟨sum, difference rleft rnegative⟩
    | power v k =>
      cases hr
      -- The variable and the exponent are passed over without a change.
      simp only [List.forall₂_cons_left_iff, List.forall₂_nil_left_iff] at related
      obtain ⟨_, _, ⟨base, _⟩, ⟨_, _, ⟨exponent, _⟩, rfl, rfl⟩, rfl⟩ := related
      cases base.symm.trans (pass_var v)
      cases exponent.symm.trans (pass_num _)
      exact ⟨poly, power v k⟩
    | @chain c ring =>
      cases hr
      have kept := keeps (isPolynomial_collected inner)
      have polynomials : ∀ e' ∈ results, IsPolynomial e' := by
        intro e' he'
        obtain ⟨_, _, h, _⟩ := exists_of_mem_right kept he'
        exact h
      have passed := related.imp fun _ _ h => h.1
      rcases collapse_collected poly passed with ⟨many, collapsed⟩ | ⟨e, collected, collapsed, kind⟩
      · rw [collapsed]
        have inner := kept.imp fun _ _ h => h.2
        exact ⟨(isPolynomial_chain ring).2 ⟨many, polynomials⟩, chain ring inner⟩
      · rw [collapsed]
        have only : e ∈ c.collected (chainTermsAll c.op args) := by
          rw [collected]
          exact List.mem_cons_self
        exact ⟨isPolynomial_collected inner e only, single ring collected kind⟩

/-- If the expression is a numeral, it has no text. -/
def TextFree (e : Expr) : Prop := ∀ n, e = .num n → n.text = none

theorem TextFree.eq_ofInt {n : Numeral} (h : TextFree (.num n)) : Expr.num n = ofInt n.value := by
  rw [ofInt, Numeral.ofInt, ← h n rfl]

theorem textFree_node (op : Op) (args : List Expr) : TextFree (.node op args) := by
  rintro n ⟨⟩

/-- A pass gives a numeral a text only if that is what it is made over. -/
theorem exists_pass_textFree {e : Expr} (poly : IsPolynomial e) :
    ∃ e', pass e = .ok e' ∧ (TextFree e → TextFree e') := by
  have related := exists_pass_polynomial (R := fun e e' => TextFree e → TextFree e')
    (fun _ h => h) (fun _ h => h) (fun _ _ h => h) (fun _ _ _ => textFree_node _ _)
    (fun _ _ _ => textFree_node _ _) ?single poly
  · obtain ⟨e', passed, _, h⟩ := related
    exact ⟨e', passed, h⟩
  case single =>
    rintro c args e _ _ (⟨n, rfl⟩ | ⟨t, _, rfl⟩) _ m hm
    · cases hm
      rfl
    · unfold Chain.term multiple at hm
      split at hm
      · cases hm
      · split at hm <;> cases hm

end Expr

end ArithTree
