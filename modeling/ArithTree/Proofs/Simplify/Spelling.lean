import ArithTree.Proofs.Simplify.Leaves
import ArithTree.Proofs.Simplify.Relabelling

/-!
# The spelling of numerals

How a numeral is spelled has no influence on what an expression is simplified to: without the texts,
the result is the same but for the texts (`simplification_ignores_spelling`). A fixed point may be
reached in fewer passes then, for a pass that only leaves out a text does not count any more. A
text that is kept stands with the value that it stood with before, so it still is a text of that
value.
-/

namespace ArithTree

/-- If the numeral has a text, then it is one of its value. -/
def Numeral.WellSpelled (n : Numeral) : Prop :=
  ∀ text ∈ n.text, Decimal.read? text.toList = some n.value

instance : DecidablePred Numeral.WellSpelled := fun n =>
  inferInstanceAs (Decidable (∀ text ∈ n.text, Decimal.read? text.toList = some n.value))

/-- Every numeral loses its text. -/
def Relabelling.withoutTexts : Relabelling where
  numeral n := .ofInt n.value
  name := id
  value_numeral _ := rfl
  numeral_ofInt _ := rfl
  name_injective := Function.injective_id

namespace Expr

/-- An expression without the texts of its numerals. -/
def unspelled (e : Expr) : Expr := relabel .withoutTexts e

/-- A pass keeps it so that all leaves are leaves of `e` or integers that were computed. -/
theorem exists_pass_stemsFrom {e x : Expr} (wf : WellFormed x)
    (stems : ∀ leaf ∈ x.leaves, StemsFrom e.leaves leaf) :
    ∃ x', pass x = .ok x' ∧ WellFormed x' ∧ ∀ leaf ∈ x'.leaves, StemsFrom e.leaves leaf := by
  obtain ⟨x', passed, wf', leaves⟩ := exists_pass_and (exists_pass wf) (exists_pass_leaves wf)
  exact ⟨x', passed, wf', fun leaf h => (leaves leaf h).trans stems⟩

/-- Simplification finds the numerals that it leaves with a text. -/
theorem exists_simplifiedWithin_numerals {e : Expr} (wf : WellFormed e) (allowed : Int) :
    ∃ e', simplifiedWithin allowed e = .ok e' ∧
      ∀ n ∈ e'.numerals, n.text ≠ none → n ∈ e.numerals := by
  obtain ⟨e', times, _, stems⟩ := exists_passTimes
    (P := fun x => WellFormed x ∧ ∀ leaf ∈ x.leaves, StemsFrom e.leaves leaf)
    (fun x ⟨wf, stems⟩ => exists_pass_stemsFrom wf stems) ⟨wf, fun _ h => .inl h⟩ allowed.toNat
  refine ⟨e', (simplifiedWithin_eq_passTimes allowed e).trans times, ?_⟩
  intro n hn spelled
  obtain ⟨leaf, hleaf, found⟩ := List.mem_filterMap.1 hn
  rcases stems leaf hleaf with old | ⟨k, rfl⟩
  · exact List.mem_filterMap.2 ⟨leaf, old, found⟩
  · cases found
    exact absurd rfl spelled

/-- Without the texts of its numerals, an expression is simplified to the same but for the texts. A
numeral that is left with a text is one of the expression, so if all texts are right before, they
are right after. -/
theorem simplification_ignores_spelling {e : Expr} (wf : WellFormed e) (allowed : Int) :
    ∃ e', simplifiedWithin allowed e = .ok e' ∧
      simplifiedWithin allowed e.unspelled = .ok e'.unspelled ∧
      (∀ n ∈ e'.numerals, n.text ≠ none → n ∈ e.numerals) ∧
      ((∀ n ∈ e.numerals, n.WellSpelled) → ∀ n ∈ e'.numerals, n.WellSpelled) := by
  obtain ⟨e', left, left'⟩ := exists_simplifiedWithin_relabel .withoutTexts wf allowed
  obtain ⟨_, same, kept⟩ := exists_simplifiedWithin_numerals wf allowed
  cases left.symm.trans same
  refine ⟨e', left, left', kept, ?_⟩
  intro right n hn text htext
  have spelled : n.text ≠ none := by
    rw [Option.mem_def.1 htext]
    simp
  exact right n (kept n hn spelled) text htext

/-- The first text is left out by a pass that changes nothing else, so one pass less is made without
the texts. The second text is kept. -/
theorem simplification_ignores_spelling_of_padded :
    let e := node .add [.num ⟨8, some "08"⟩, node .pow [.num ⟨7, some "007"⟩, .var "x"]]
    let e' := node .add [ofInt 8, node .pow [.num ⟨7, some "007"⟩, .var "x"]]
    WellFormed e ∧
    simplifyWithin 9 e = .ok ⟨e', [.pass 1 e', .fixedPoint 1 e']⟩ ∧
    simplifyWithin 9 e.unspelled = .ok ⟨e.unspelled, [.fixedPoint 0 e.unspelled]⟩ ∧
    simplifiedWithin 9 e.unspelled = .ok e'.unspelled ∧
    ∀ n ∈ e'.numerals, n.WellSpelled := by
  intro e e'
  have wf : WellFormed e := by decide
  have steps : simplifyWithin 9 e = .ok ⟨e', [.pass 1 e', .fixedPoint 1 e']⟩ := by decide +kernel
  have steps' : simplifyWithin 9 e.unspelled =
      .ok ⟨e.unspelled, [.fixedPoint 0 e.unspelled]⟩ := by
    decide +kernel
  have right : ∀ n ∈ e.numerals, n.WellSpelled := by decide +kernel
  obtain ⟨x, left, left', _, wellSpelled⟩ := simplification_ignores_spelling wf 9
  rw [simplifiedWithin, steps] at left
  cases left
  exact ⟨wf, steps, steps', left', wellSpelled right⟩

end Expr

end ArithTree
