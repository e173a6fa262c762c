import ArithTree.Proofs.Polynomial.Evaluation
import ArithTree.Proofs.Polynomial.Uniqueness
import ArithTree.Proofs.Reading.Calls

/-!
# Simplifying polynomials early or late

Whether a polynomial is simplified while it is read or afterwards, it becomes one of the same form
whose magnitude is not greater (`Reduces`). If the magnitude is compact and no simplification gives
up, both end in normal form, and these are the same but for the order of terms.

Main statement: `eager_reordered`.
-/

namespace ArithTree

open ArithTree.Expr

namespace Expr

/-! ## Reductions of polynomials -/

/-- A polynomial of the same form whose magnitude is not greater. -/
structure Reduces (e e' : Expr) : Prop where
  poly : IsPolynomial e'
  form : e'.form = e.form
  magnitude_le : e'.magnitude ≤ e.magnitude

theorem Reduces.refl {e : Expr} (poly : IsPolynomial e) : Reduces e e :=
  ⟨poly, rfl, Nat.le_refl _⟩

theorem Reduces.trans {a b c : Expr} (first : Reduces a b) (second : Reduces b c) : Reduces a c :=
  ⟨second.poly, second.form.trans first.form, Nat.le_trans second.magnitude_le first.magnitude_le⟩

/-- Arguments of sums, differences and products may be reduced. -/
theorem Reduces.pair {op : Op} {left right left' right' : Expr}
    (hop : op = .add ∨ op = .sub ∨ op = .mul) (hleft : Reduces left left')
    (hright : Reduces right right') :
    Reduces (.node op [left, right]) (.node op [left', right']) := by
  refine ⟨isPolynomial_node.2 ⟨?_, by simp [hleft.poly, hright.poly]⟩, ?_, ?_⟩
  · rcases hop with rfl | rfl | rfl
    · exact Nat.le_refl 2
    · rfl
    · exact Nat.le_refl 2
  · simp only [form_node, List.map_cons, List.map_nil, hleft.form, hright.form]
  · have sum := Nat.add_le_add hleft.magnitude_le hright.magnitude_le
    have product := Nat.mul_le_mul hleft.magnitude_le hright.magnitude_le
    rcases hop with rfl | rfl | rfl
    · simpa [magnitude_node, Op.magnitude] using sum
    · simpa [magnitude_node, Op.magnitude] using sum
    · simpa [magnitude_node, Op.magnitude] using product

/-- Simplifying a polynomial reduces it, and gives no text to a numeral. -/
theorem exists_simplify_reduces {e : Expr} (poly : IsPolynomial e) :
    ∃ r, simplify e = .ok r ∧ Reduces e r.expr ∧ (TextFree e → TextFree r.expr) := by
  have step : ∀ x, Reduces e x ∧ (TextFree e → TextFree x) →
      ∃ x', pass x = .ok x' ∧ Reduces e x' ∧ (TextFree e → TextFree x') := by
    rintro x ⟨reduces, textFree⟩
    obtain ⟨x', passed, ⟨poly, form⟩, ⟨_, lower⟩, textFree'⟩ :=
      exists_pass_and (exists_pass_form reduces.poly)
        (exists_pass_and (exists_pass_magnitude reduces.poly) (exists_pass_textFree reduces.poly))
    exact ⟨x', passed, reduces.trans ⟨poly, form, lower⟩, textFree' ∘ textFree⟩
  exact exists_simplify step ⟨.refl poly, id⟩

theorem Reduces.of_simplified {e r : Expr} (poly : IsPolynomial e) (h : e.simplified = .ok r) :
    Reduces e r := by
  obtain ⟨r', steps, reduces, _⟩ := exists_simplify_reduces poly
  cases h.symm.trans (simplified_of_simplify steps)
  exact reduces

/-- What a polynomial of compact magnitude is reduced to ends in normal form, with the form of the
polynomial, when it is simplified without giving up. -/
theorem settled_of_simplify {e x : Expr} (reduces : Reduces e x) (compact : Compact e.magnitude)
    {r : Simplified} (h : simplify x = .ok r) (settled : NeverGivesUp r) :
    Settled r.expr ∧ r.expr.form = e.form ∧ (TextFree x → TextFree r.expr) := by
  obtain ⟨_, steps, reduces', textFree⟩ := exists_simplify_reduces reduces.poly
  cases h.symm.trans steps
  have fixed := fixed_of_neverGivesUp h settled
  have reduced := reduces.trans reduces'
  exact ⟨⟨reduced.poly, (pass_eq_self_iff reduced.poly.wellFormed).1 fixed,
    compact.mono reduced.magnitude_le⟩, reduced.form, textFree⟩

end Expr

/-- A polynomial that is built up again with all of its applications simplified is reduced. -/
theorem Adjusts.reduces {e e' : Expr} {built : List Expr}
    (h : Adjusts simplified e e' built) (ring : InRing e) : Reduces e e' := by
  induction h with
  | num n => exact .refl (everywhere_num _ n)
  | var x => exact .refl (everywhere_var _ x)
  | pair _ _ adjusted ihl ihr =>
    obtain ⟨hop, hleft, hright⟩ := inRing_pair.1 ring
    have application := Reduces.pair hop (ihl hleft) (ihr hright)
    exact application.trans (.of_simplified application.poly adjusted)

/-! ## Main statement -/

/-- If no simplification gives up, a polynomial of compact magnitude that is simplified while it is
read is the same as if it is simplified at the end, but for the order of terms. -/
theorem eager_reordered {s : String} {e : Expr} (h : parse s = .ok e) (ring : InRing e)
    (compact : Compact e.magnitude) (atEnd : ∀ r, simplify e = .ok r → NeverGivesUp r)
    (eager : ∀ x ∈ builtTokens simplified (tokens s), ∀ r, simplify x = .ok r → NeverGivesUp r) :
    ∃ e₁ e₂, read .eager s = .ok e₁ ∧ read .atEnd s = .ok e₂ ∧ Reordered e₁ e₂ := by
  have poly := isPolynomial_of_binary (binary_of_parse h) ring
  obtain ⟨r, steps, _⟩ := exists_simplify_reduces poly
  have late : read .atEnd s = .ok r.expr := by
    show (parse s).bind simplified = _
    rw [h]
    exact simplified_of_simplify steps
  obtain ⟨e₁, early, _⟩ := exists_eager_refines h
  refine ⟨e₁, r.expr, early, late, ?_⟩
  obtain ⟨settled, form, textFree⟩ := settled_of_simplify (.refl poly) compact steps (atEnd r steps)
  have adjusts := adjusts_of_parseTokens h early
  generalize builtTokens simplified (tokens s) = built at adjusts eager
  cases adjusts with
  | num n =>
    have same := (simplified_of_simplify steps).symm.trans (simplified_of_fixed (pass_num n))
    rw [Except.ok.inj same]
    exact .refl _
  | var x =>
    have same := (simplified_of_simplify steps).symm.trans (simplified_of_fixed (pass_var x))
    rw [Except.ok.inj same]
    exact .refl _
  | pair hleft hright adjusted =>
    obtain ⟨hop, left, right⟩ := inRing_pair.1 ring
    have application := Reduces.pair hop (hleft.reduces left) (hright.reduces right)
    obtain ⟨r', steps', _⟩ := exists_simplify_reduces application.poly
    cases adjusted.symm.trans (simplified_of_simplify steps')
    obtain ⟨settled', form', textFree'⟩ :=
      settled_of_simplify application compact steps' (eager _ (by simp) r' steps')
    exact settled'.reordered settled (form'.trans form.symm) (textFree' (textFree_node _ _))
      (textFree (textFree_node _ _))

/-- In `a * ( b + b ) - 007`, the variables change places if it is simplified at the end. -/
theorem eager_reordered_of_difference :
    let s := "a * ( b + b ) - 007"
    let sum := node .add [.var "b", .var "b"]
    let e := node .sub [node .mul [.var "a", sum], .num ⟨7, some "007"⟩]
    let e₁ := node .add [ofInt (-7), node .mul [ofInt 2, .var "a", .var "b"]]
    let e₂ := node .add [ofInt (-7), node .mul [ofInt 2, .var "b", .var "a"]]
    parse s = .ok e ∧ InRing e ∧ Compact e.magnitude ∧
      (∀ r, simplify e = .ok r → NeverGivesUp r) ∧
      (∀ x ∈ builtTokens simplified (tokens s), ∀ r, simplify x = .ok r → NeverGivesUp r) ∧
      read .eager s = .ok e₁ ∧ read .atEnd s = .ok e₂ ∧ Reordered e₁ e₂ := by
  intro s sum e e₁ e₂
  have hparse : parse s = .ok e := by decide +kernel
  have ring : InRing e := by decide
  have compact : Compact e.magnitude := by decide
  have cheap : cost e.quotients e + 1 < maxPasses := by decide
  obtain ⟨atEnd, eager⟩ := neverGivesUp_of_parse hparse cheap
  have early : read .eager s = .ok e₁ := by decide +kernel
  have late : read .atEnd s = .ok e₂ := by decide +kernel
  obtain ⟨_, _, early', late', reordered⟩ := eager_reordered hparse ring compact atEnd eager
  cases early.symm.trans early'
  cases late.symm.trans late'
  exact ⟨hparse, ring, compact, atEnd, eager, early, late, reordered⟩

end ArithTree
