import ArithTree.Proofs.Simplify.Several
import ArithTree.Proofs.Value.Interpretation
import ArithTree.Proofs.Value.Preserved
import ArithTree.Proofs.Value.Ratio
import Mathlib.Algebra.GroupWithZero.WithZero

/-!
# Simplification gives no value to what has none

Rules for products and quotients move divisors about: into a numerator, out of it, or from one
quotient to another. Not even an expression without a value can get one in this way if the divisions
by zero in it are counted as infinite or undefined ratios: every rule keeps the ratio
(`Rewrites.ratio_eq`), and so do passes over what is read from a text and simplifications of it.

What has a value has it as its ratio, so an expression can gain a value only if its ratio is a
number. It is none if the expression has no value and does not divide by zero inside the divisor of
another quotient (`eval_of_ratio`).
-/

namespace ArithTree

open ArithTree.Expr

/-! ## Chains -/

namespace Ratio

/-- The numbers among the ratios. -/
def ofNumber : ℚ →* Ratio where
  toFun := finite
  map_one' := rfl
  map_mul' _ _ := rfl

/-- A ratio as a term of a sum, written multiplicatively: all that is not finite is zero. -/
def summand : Ratio → WithZero (Multiplicative ℚ)
  | .finite q => (Multiplicative.ofAdd q : Multiplicative ℚ)
  | _ => 0

theorem summand_inj {r s : Ratio} (hr : r ≠ infinite) (hs : s ≠ infinite)
    (h : r.summand = s.summand) : r = s := by
  cases r <;> cases s <;> simp_all [summand]

theorem summand_sum (rs : List Ratio) : (Op.add.ratio rs).summand = (rs.map summand).prod := by
  show (ofOption ((rs.mapM finite?).bind fun qs => some qs.sum)).summand = _
  induction rs with
  | nil => rfl
  | cons r rs ih =>
    rw [List.map_cons, List.prod_cons, ← ih, List.mapM_cons]
    cases r with
    | finite q =>
      cases rs.mapM finite? with
      | none => simp [finite?, ofOption, summand]
      | some qs => simp [finite?, ofOption, summand, ofAdd_add]
    | infinite | undefined => simp [finite?, ofOption, summand]

end Ratio

namespace Chain

open Ratio

variable (env : String → ℚ)

theorem interprets_product : Chain.product.Interprets (ratio env) (fun n => finite n)
    (fun v => finite (env v)) :=
  Chain.reads_product.interprets Ratio.ofNumber (fun _ _ => ratio_of_eval) (ratio_mul env)

theorem interprets_sum : Chain.sum.Interprets (fun e => (ratio env e).summand)
    (fun n => (finite n).summand) (fun v => (finite (env v)).summand) := by
  refine Chain.reads_sum.interprets WithZero.coeMonoidHom ?_ ?_
  · intro e q value
    rw [ratio_of_eval value]
    rfl
  · intro args
    rw [ratio_node, Chain.op_sum, summand_sum, List.map_map]
    rfl

end Chain

namespace Expr

variable (env : String → ℚ)

theorem ratio_sum_ne_infinite (args : List Expr) : ratio env (.node .add args) ≠ .infinite := by
  rw [ratio_node]
  exact Ratio.ofOption_ne_infinite _

/-! ## Rules -/

theorem ratio_eq_of_refines {e e' : Expr} (refines : Refines e e') {q : ℚ}
    (value : eval env e = some q) : ratio env e' = ratio env e := by
  rw [ratio_of_eval value, ratio_of_eval (refines env q value)]

theorem ratio_difference (left right : Expr) :
    ratio env (.node .add [left, .node .mul [ofInt (-1), right]]) =
      ratio env (.node .sub [left, right]) := by
  rw [ratio_node, ratio_node]
  simp only [List.map_cons, List.map_nil, ratio_mul, ratio_ofInt, List.prod_cons, List.prod_nil,
    mul_one]
  cases ratio env left <;> cases ratio env right <;>
    simp [Op.ratio, Op.rational?, Ratio.finite?, Ratio.ofOption, sub_eq_add_neg]

/-- A rule keeps the ratio of the application that it rewrites. -/
theorem Rewrites.ratio_eq {op : Op} {args : List Expr} {e : Expr} (h : Rewrites op args e) :
    ratio env e = ratio env (.node op args) := by
  cases h with
  | difference left right => exact ratio_difference env left right
  | sum args =>
    exact Ratio.summand_inj (ratio_sum_ne_infinite env _) (ratio_sum_ne_infinite env _)
      ((Chain.interprets_sum env).collected args)
  | product => exact (Chain.interprets_product env).collected args
  | @hoist before after numer denom =>
    simp only [ratio_div, ratio_mul, List.map_append, List.map_cons, List.prod_append,
      List.prod_cons, List.map_nil, List.prod_nil, mul_one, div_eq_mul_inv]
    ac_rfl
  | leftQuotient a b =>
    simp only [ratio_div, ratio_mul, List.map_cons, List.map_nil, List.prod_cons, List.prod_nil,
      mul_one, div_div]
  | rightQuotient b c =>
    simp only [ratio_div, ratio_mul, List.map_cons, List.map_nil, List.prod_cons, List.prod_nil,
      mul_one, div_div_eq_mul_div]
  -- Where integers are evaluated, the application has a value.
  | @whole a b q nonzero value =>
    exact ratio_eq_of_refines env (Rewrites.whole nonzero value).refines
      (eval_div_num env a nonzero)
  | @fraction a b p q nonzero value =>
    exact ratio_eq_of_refines env (Rewrites.fraction nonzero value).refines
      (eval_div_num env a nonzero)
  | @evaluated b e nonneg compact =>
    have power := rationalPower?_natCast (b.value : ℚ) e.value.toNat
    rw [natCast_toNat nonneg] at power
    exact ratio_eq_of_refines env (Rewrites.evaluated nonneg compact).refines
      (eval_pow_iff.2 ⟨_, _, eval_num env b, eval_num env e, power⟩)
  | quotient | power => rfl

/-! ## Passes -/

/-- A sum of which only one term is left has a value. -/
theorem Rewrites.eval_isSome_of_singleton {op : Op} {args : List Expr} {e : Expr}
    (h : Rewrites op args (.node .add [e])) (several : Several (.node op args)) :
    ∃ q, eval env e = some q := by
  generalize hargs : [e] = args' at h
  cases h with
  | difference => simp at hargs
  | sum args =>
    have collected := collected_of_several .sum several
    rw [Chain.op_sum, ← hargs] at collected
    rcases collected with many | ⟨n, _, single⟩ | ⟨t, pos, single⟩
    · simp at many
    · cases single
      exact ⟨n, eval_ofInt env n⟩
    · cases single
      obtain ⟨q, value, _⟩ := Chain.reads_sum.counted env _ _ _
        (Chain.sum.occurrences?_term (.inl rfl) pos)
      exact ⟨q, value⟩

/-- An application to one argument has the ratio of the argument, unless it is a sum of something
that has no value. -/
theorem ratio_collapse {op : Op} {es : List Expr} (wf : op.Admits es.length)
    (sum : ∀ e, op = .add → es = [e] → ∃ q, ratio env e = .finite q) :
    ratio env (collapse op es) = ratio env (.node op es) := by
  unfold collapse
  split
  · next e =>
    rcases wf with rfl | rfl | two
    · obtain ⟨q, hq⟩ := sum e rfl rfl
      rw [ratio_node, List.map_singleton, hq]
      exact ((@Op.ratio_finite_iff .add [q] q).2 (by simp [Op.rational?])).symm
    · rw [ratio_mul, List.map_singleton, List.prod_singleton]
    · simp at two
  · rfl

/-- A pass keeps the ratio of an expression in which every application has several arguments. -/
theorem exists_pass_ratio {e : Expr} (wf : WellFormed e) (several : Several e) :
    ∃ e', pass e = .ok e' ∧ ratio env e' = ratio env e := by
  suffices ∃ e', pass e = .ok e' ∧ (Several e → ratio env e' = ratio env e) by
    obtain ⟨e', passed, h⟩ := this
    exact ⟨e', passed, h several⟩
  refine pass_related (R := fun e e' => Several e → ratio env e' = ratio env e)
    ?num ?var ?evaluated ?node wf
  case num =>
    intro n _
    rfl
  case var =>
    intro x _
    rfl
  case evaluated =>
    intro _ _ n rewrites _
    exact rewrites.ratio_eq env
  case node =>
    intro op args op' args' results wf rewrites related several
    have inner : List.Forall₂ (fun e e' => ratio env e' = ratio env e) args' results :=
      ((List.forall₂_and_left args' results).2 ⟨(rewrites.several several).2, related⟩).imp
        fun _ _ h => h.2.2 h.1
    have ratios : results.map (ratio env) = args'.map (ratio env) := by
      rw [← List.forall₂_eq_eq_eq, List.forall₂_map_left_iff, List.forall₂_map_right_iff]
      exact inner.flip
    have admits := (wellFormed_node.1 (rewrites.wellFormed (wellFormed_node.1 wf).2)).1
    rw [ratio_collapse env (related.length_eq ▸ admits), ratio_node, ratios, ← ratio_node,
      rewrites.ratio_eq]
    rintro e' rfl rfl
    obtain ⟨e, _, hinner, hnil, rfl⟩ := List.forall₂_cons_right_iff.1 inner
    cases hnil
    obtain ⟨q, value⟩ := rewrites.eval_isSome_of_singleton env several
    exact ⟨q, by rw [hinner, ratio_of_eval value]⟩

/-! ## Simplification -/

/-- A simplification of what is read from a text keeps its ratio, however many passes it may make.
What has no value gets none if it does not divide by zero inside the divisor of another quotient. -/
theorem simplification_gains_no_value {s : String} {e : Expr} (h : parse s = .ok e)
    (env : String → ℚ) (allowed : Int) :
    ∃ r, simplifyWithin allowed e = .ok r ∧ ratio env r.expr = ratio env e ∧
      (NonzeroInDivisors env e → eval env e = none → eval env r.expr = none) := by
  have step : ∀ e₁, WellFormed e₁ ∧ Several e₁ ∧ ratio env e₁ = ratio env e →
      ∃ e₂, pass e₁ = .ok e₂ ∧ WellFormed e₂ ∧ Several e₂ ∧ ratio env e₂ = ratio env e := by
    rintro e₁ ⟨wf₁, several₁, ratio₁⟩
    obtain ⟨e₂, passed, wf₂, several₂, ratio₂⟩ := exists_pass_and (exists_pass wf₁)
      (exists_pass_and (exists_pass_several wf₁) (exists_pass_ratio env wf₁ several₁))
    exact ⟨e₂, passed, wf₂, several₂ several₁, ratio₂.trans ratio₁⟩
  obtain ⟨r, simplified, _, _, kept⟩ := exists_simplifyFrom step
    ⟨wellFormed_of_parse h, several_of_parse h, rfl⟩ allowed 0 allowed.toNat
  refine ⟨r, simplified, kept, ?_⟩
  intro nonzero none
  -- A value of the result would be the ratio of `e`, and so its value.
  cases value : eval env r.expr with
  | none => rfl
  | some q =>
    have gained := (eval_of_ratio nonzero).1 q (kept ▸ ratio_of_eval value)
    rw [none] at gained
    cases gained

/-- A division by zero is kept where a product, a difference and another divisor stand around it. -/
theorem simplification_gains_no_value_of_product :
    let s := "( x / ( y / z ) ) * ( 1 / ( x - x ) ) + z"
    let e : Expr := node .add [node .mul [node .div [.var "x", node .div [.var "y", .var "z"]],
      node .div [ofInt 1, node .sub [.var "x", .var "x"]]], .var "z"]
    let env := fun _ : String => (2 : ℚ)
    parse s = .ok e ∧ NonzeroInDivisors env e ∧ eval env e = none ∧
      ∃ r, simplifyWithin 2 e = .ok r ∧ eval env r.expr = none := by
  intro s e env
  have hparse : parse s = .ok e := by decide +kernel
  have none : eval env e = none := by decide +kernel
  have nonzero : NonzeroInDivisors env e := by
    simp [NonzeroInDivisors, e, everywhere_node, ofInt, env]
  obtain ⟨r, simplified, _, kept⟩ := simplification_gains_no_value hparse env 2
  exact ⟨hparse, nonzero, none, r, simplified, kept nonzero none⟩

/-- What divides by zero inside the divisor of a quotient is given a value: `1 / (2 / 0)`
becomes 0. -/
theorem simplification_gains_value_of_nested_quotient :
    let e : Expr := node .div [ofInt 1, node .div [ofInt 2, ofInt 0]]
    parse "1 / ( 2 / 0 )" = .ok e ∧ (∀ env, eval env e = none) ∧
      ∃ e', simplified e = .ok e' ∧ ∀ env, eval env e' = some 0 := by
  intro e
  refine ⟨by decide +kernel, ?_, ofInt 0, by decide +kernel, ?_⟩
  · intro env
    by_contra value
    obtain ⟨q, hq⟩ := Option.ne_none_iff_exists'.1 value
    obtain ⟨_, _, _, divisor, _⟩ := eval_div_iff.1 hq
    obtain ⟨_, _, _, zero, nonzero, _⟩ := eval_div_iff.1 divisor
    cases zero.symm.trans (eval_ofInt env 0)
    exact nonzero Int.cast_zero
  · intro env
    rw [eval_ofInt, Int.cast_zero]

end Expr

end ArithTree
