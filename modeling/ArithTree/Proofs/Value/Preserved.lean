import ArithTree.Proofs.Reading.Simulation
import ArithTree.Proofs.Simplify.Iteration
import ArithTree.Proofs.Value.Chain
import ArithTree.Proofs.Value.Quotient
import ArithTree.Simplify.Reading
import Mathlib.Tactic.NormNum
import Mathlib.Tactic.Ring

/-!
# Simplification keeps values

Each rule refines the application that it rewrites (`Rewrites.refines`), for its divisors are not
zero where those of the application are not. From this it follows for a pass, for a simplification,
and for reading, when what is read is simplified at the end or application by application.
-/

namespace ArithTree.Expr

/-! ## Rules -/

/-- An application to one argument has the value of the argument, if it has one. -/
theorem refines_collapse (op : Op) (es : List Expr) : Refines (.node op es) (collapse op es) := by
  intro env q hq
  unfold collapse
  split
  · next e =>
    obtain ⟨qs, hqs, hq⟩ := eval_node_iff.1 hq
    obtain ⟨a, rest, ha, hnil, rfl⟩ := List.forall₂_cons_left_iff.1 hqs
    cases hnil
    cases op with
    | add | mul =>
      have : a = q := by simpa [Op.rational?] using hq
      exact this ▸ ha
    | sub | div | pow => cases hq
  · exact hq

theorem refines_difference (left right : Expr) :
    Refines (.node .sub [left, right]) (.node .add [left, .node .mul [ofInt (-1), right]]) := by
  intro env q hq
  obtain ⟨a, b, ha, hb, rfl⟩ := eval_sub_iff.1 hq
  refine eval_pair_iff.2 ⟨a, -1 * b, ha, ?_, ?_⟩
  · exact eval_pair_iff.2 ⟨-1, b, by simp, hb, by simp [Op.rational?]⟩
  · simp [Op.rational?, sub_eq_add_neg]

theorem refines_hoist (before after : List Expr) (numer denom : Expr) :
    Refines (.node .mul (before ++ .node .div [numer, denom] :: after))
      (.node .div [.node .mul (before ++ after ++ [numer]), denom]) := by
  intro env q hq
  obtain ⟨defined, value⟩ := (eval_chain_iff Chain.reads_product).1 hq
  simp only [List.forall_mem_append, List.forall_mem_cons] at defined
  obtain ⟨hbefore, hquotient, hafter⟩ := defined
  obtain ⟨r, hr⟩ := Option.isSome_iff_exists.1 hquotient
  obtain ⟨a, b, ha, hb, nonzero, rfl⟩ := eval_div_iff.1 hr
  -- The value of the product is `before * (a / b) * after`.
  have numerator : eval env (.node .mul (before ++ after ++ [numer])) =
      some ((before.map (valueIn id env)).prod * (after.map (valueIn id env)).prod * a) := by
    refine (eval_chain_iff Chain.reads_product).2 ⟨?_, ?_⟩
    · simp only [List.forall_mem_append, List.forall_mem_singleton]
      exact ⟨⟨hbefore, hafter⟩, by rw [ha]; rfl⟩
    · simp [valueIn_of_eval ha, mul_assoc]
  refine eval_div_iff.2 ⟨_, b, numerator, hb, nonzero, ?_⟩
  simp only [id_eq, List.map_append, List.map_cons, List.prod_append, List.prod_cons,
    valueIn_of_eval hr] at value
  rw [value]
  ring

theorem refines_leftQuotient (a b c : Expr) :
    Refines (.node .div [.node .div [a, b], c]) (.node .div [a, .node .mul [b, c]]) := by
  intro env q hq
  obtain ⟨_, z, hquotient, hz, hc, rfl⟩ := eval_div_iff.1 hq
  obtain ⟨x, y, hx, hy, hb, rfl⟩ := eval_div_iff.1 hquotient
  refine eval_div_iff.2 ⟨x, y * z, hx, ?_, mul_ne_zero hb hc, (div_div x y z).symm⟩
  exact eval_pair_iff.2 ⟨y, z, hy, hz, by simp [Op.rational?]⟩

theorem refines_rightQuotient (a b c : Expr) :
    Refines (.node .div [a, .node .div [b, c]]) (.node .div [.node .mul [a, c], b]) := by
  intro env q hq
  obtain ⟨x, _, hx, hquotient, nonzero, rfl⟩ := eval_div_iff.1 hq
  obtain ⟨y, z, hy, hz, _, rfl⟩ := eval_div_iff.1 hquotient
  -- The divisor of the new quotient is the numerator of the old divisor.
  have hb : y ≠ 0 := fun h => nonzero (by rw [h, zero_div])
  refine eval_div_iff.2 ⟨x * z, y, ?_, hy, hb, (div_div_eq_mul_div x y z).symm⟩
  exact eval_pair_iff.2 ⟨x, z, hx, hz, by simp [Op.rational?]⟩

theorem refines_fraction {a b : Numeral} {p q : Int} (nonzero : b.value ≠ 0)
    (value : quotient a.value b.value nonzero = .fraction p q) :
    Refines (.node .div [.num a, .num b]) (.node .div [ofInt p, ofInt q]) := by
  intro env r hr
  obtain ⟨denom, _, equal⟩ := lowest_of_quotient_eq_fraction value
  have hq : (Numeral.ofInt q).value ≠ 0 := show q ≠ 0 by omega
  rw [← hr, eval_div_num env a nonzero]
  refine (eval_div_num env (.ofInt p) hq).trans (congrArg some ?_)
  rw [div_eq_div_iff (Int.cast_ne_zero.2 hq) (Int.cast_ne_zero.2 nonzero)]
  exact_mod_cast equal

/-- Every rule refines what it rewrites. -/
theorem Rewrites.refines {op : Op} {args : List Expr} {e : Expr} (h : Rewrites op args e) :
    Refines (.node op args) e := by
  cases h with
  | difference left right => exact refines_difference left right
  | sum args => exact refines_collected Chain.reads_sum (fun _ => rfl) args
  | product => exact refines_collected Chain.reads_product (fun _ => rfl) args
  | hoist after numer denom => exact refines_hoist _ after numer denom
  | leftQuotient a b => exact refines_leftQuotient a b _
  | rightQuotient b c => exact refines_rightQuotient _ b c
  | @whole a b q nonzero value =>
    intro env r hr
    have divisor : (b.value : ℚ) ≠ 0 := Int.cast_ne_zero.2 nonzero
    rw [← hr, eval_div_num env a nonzero, eval_ofInt, eq_mul_of_quotient_eq_whole value,
      Int.cast_mul, mul_div_cancel_right₀ _ divisor]
  | fraction nonzero value => exact refines_fraction nonzero value
  | quotient => exact Refines.refl _
  | @evaluated b e nonneg =>
    intro env r hr
    obtain ⟨x, y, hx, hy, hr⟩ := eval_pow_iff.1 hr
    cases hx.symm.trans (eval_num env b)
    cases hy.symm.trans (eval_num env e)
    rw [← natCast_toNat nonneg, rationalPower?_natCast] at hr
    rw [eval_ofInt, power_eq, ← hr]
    exact congrArg some (Int.cast_pow _ _)
  | power => exact Refines.refl _

/-! ## Passes -/

/-- A pass refines a well-formed expression. -/
theorem exists_pass_refines {e : Expr} (wf : WellFormed e) :
    ∃ e', pass e = .ok e' ∧ Refines e e' := by
  refine pass_related (R := Refines) ?num ?var ?evaluated ?node wf
  case num =>
    intro n
    exact Refines.refl _
  case var =>
    intro x
    exact Refines.refl _
  case evaluated =>
    intro _ _ _ rewrites
    exact rewrites.refines
  case node =>
    intro op args op' args' results _ rewrites related
    have inner : List.Forall₂ Refines args' results := related.imp fun _ _ h => h.2
    exact (rewrites.refines.trans (Refines.node op' inner)).trans (refines_collapse op' results)

/-- A simplification refines a well-formed expression, however many passes it may make. -/
theorem exists_simplifyWithin_refines {e : Expr} (wf : WellFormed e) (allowed : Int) :
    ∃ r, simplifyWithin allowed e = .ok r ∧ WellFormed r.expr ∧ Refines e r.expr := by
  have step : ∀ e₁, WellFormed e₁ ∧ Refines e e₁ →
      ∃ e₂, pass e₁ = .ok e₂ ∧ WellFormed e₂ ∧ Refines e e₂ := by
    rintro e₁ ⟨wf₁, refines₁⟩
    obtain ⟨e₂, passed, wf₂, refines₂⟩ := exists_pass_and (exists_pass wf₁)
      (exists_pass_refines wf₁)
    exact ⟨e₂, passed, wf₂, refines₁.trans refines₂⟩
  exact exists_simplifyWithin step ⟨wf, Refines.refl e⟩ allowed

theorem exists_simplified_refines {e : Expr} (wf : WellFormed e) :
    ∃ e', simplified e = .ok e' ∧ WellFormed e' ∧ Refines e e' := by
  obtain ⟨r, hr, wf', refines⟩ := exists_simplifyWithin_refines wf (Int.ofNat maxPasses)
  exact ⟨r.expr, simplified_of_simplify hr, wf', refines⟩

/-! ## Reading -/

/-- Simplifying every application refines what is read. The left-hand expressions of the simulation
are those that are built when nothing is simplified. -/
theorem exists_eager_refines {s : String} {e : Expr} (h : parse s = .ok e) :
    ∃ e', parseWith simplified s = .ok e' ∧ WellFormed e ∧ Refines e e' := by
  -- The second expression must be well-formed for its passes to succeed, the first one for the result.
  have simulates : Simulates (fun e e' => WellFormed e ∧ WellFormed e' ∧ Refines e e') .ok
      simplified := by
    rintro op left left' right right' e ⟨wfl, wfl', hl⟩ ⟨wfr, wfr', hr⟩ ⟨⟩
    obtain ⟨e', simplified, wf', refines⟩ := exists_simplified_refines
      (@wellFormed_pair op left' right' |>.2 ⟨wfl', wfr'⟩)
    have arguments : Refines (.node op [left, right]) (.node op [left', right']) :=
      Refines.node op (.cons hl (.cons hr .nil))
    exact ⟨e', simplified, wellFormed_pair.2 ⟨wfl, wfr⟩, wf', arguments.trans refines⟩
  have leaf : ∀ e : Expr, e.IsLeafOf (tokens s) → WellFormed e ∧ WellFormed e ∧ Refines e e := by
    rintro e (⟨n, _, rfl⟩ | ⟨x, _, rfl⟩)
    · exact ⟨everywhere_num _ n, everywhere_num _ n, Refines.refl _⟩
    · exact ⟨everywhere_var _ x, everywhere_var _ x, Refines.refl _⟩
  obtain ⟨e', read, wf, _, refines⟩ := parseWith_related simulates leaf h
  exact ⟨e', read, wf, refines⟩

/-- Passes, simplifications and both ways of simplifying what is read keep the value of an
expression under all values of the variables. -/
theorem simplification_keeps_value :
    (∀ e : Expr, WellFormed e →
      (∃ e', pass e = .ok e' ∧ Refines e e') ∧
      ∀ allowed : Int, ∃ r, simplifyWithin allowed e = .ok r ∧ Refines e r.expr) ∧
    ∀ (strategy : Strategy) (s : String) (e : Expr), parse s = .ok e →
      ∃ e', read strategy s = .ok e' ∧ Refines e e' := by
  refine ⟨?_, ?_⟩
  · intro e wf
    refine ⟨exists_pass_refines wf, ?_⟩
    intro allowed
    obtain ⟨r, hr, _, refines⟩ := exists_simplifyWithin_refines wf allowed
    exact ⟨r, hr, refines⟩
  · intro strategy s e h
    obtain ⟨e', heager, wf, refines⟩ := exists_eager_refines h
    cases strategy with
    | never => exact ⟨e, h, Refines.refl e⟩
    | atEnd =>
      obtain ⟨e'', hsimplified, _, refines'⟩ := exists_simplified_refines wf
      refine ⟨e'', ?_, refines'⟩
      show (parse s).bind simplified = _
      rw [h]
      exact hsimplified
    | eager => exact ⟨e', heager, refines⟩

/-- The value of `(5 - 3) / (2 / 3)` is 3, and it stays 3. -/
theorem simplification_keeps_value_of_difference_over_quotient :
    let e := node .div [node .sub [.var "a", .var "b"], node .div [ofInt 2, .var "b"]]
    let env := fun x : String => if x = "a" then (5 : ℚ) else 3
    WellFormed e ∧ parse "( a - b ) / ( 2 / b )" = .ok e ∧ eval env e = some 3 ∧
      (∃ e', pass e = .ok e' ∧ eval env e' = some 3) ∧
      (∃ r, simplifyWithin 3 e = .ok r ∧ eval env r.expr = some 3) ∧
      ∃ e', read .eager "( a - b ) / ( 2 / b )" = .ok e' ∧ eval env e' = some 3 := by
  intro e env
  have wf : WellFormed e := by decide
  have hparse : parse "( a - b ) / ( 2 / b )" = .ok e := by decide +kernel
  have value : eval env e = some 3 := by
    refine eval_div_iff.2 ⟨2, 2 / 3, eval_sub_iff.2 ⟨5, 3, ?_, ?_, by norm_num⟩,
      eval_div_iff.2 ⟨2, 3, by simp, ?_, by norm_num, rfl⟩, by norm_num, by norm_num⟩
    · exact eval_var env "a"
    · exact eval_var env "b"
    · exact eval_var env "b"
  obtain ⟨⟨e₁, passed, h₁⟩, within⟩ := simplification_keeps_value.1 e wf
  obtain ⟨r, simplified, h₂⟩ := within 3
  obtain ⟨e₃, hread, h₃⟩ := simplification_keeps_value.2 .eager _ e hparse
  exact ⟨wf, hparse, value, ⟨e₁, passed, h₁ env 3 value⟩, ⟨r, simplified, h₂ env 3 value⟩,
    ⟨e₃, hread, h₃ env 3 value⟩⟩

end ArithTree.Expr
