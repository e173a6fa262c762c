import ArithTree.Simplify.Rule

/-!
# The weight of an expression

Applying a rule to an expression, and then rules to its new arguments, comes to an end because the
arguments that a rule makes are lighter than the expression that it was applied to
(`weight_lt_of_applyRuleWith`). A variable weighs more than a numeral, since the three variables of
`v + v + v` make the argument `3 * v`, and a difference more than a sum, since `a - b` makes the
argument `-1 * b`.
-/

namespace ArithTree.Expr

mutual

/-- The number of nodes, in which variables and differences count twice. -/
def weight : Expr → Nat
  | .num _ => 1
  | .var _ => 2
  | .node op args => (if op = .sub then 2 else 1) + weightAll args

/-- The weight of all expressions of a list. -/
def weightAll : List Expr → Nat
  | [] => 0
  | e :: es => e.weight + weightAll es

end

theorem weight_pos (e : Expr) : 0 < e.weight := by
  cases e with
  | num => simp [weight]
  | var => simp [weight]
  | node op args => rw [weight]; split <;> omega

theorem weightAll_append (as bs : List Expr) :
    weightAll (as ++ bs) = weightAll as + weightAll bs := by
  induction as with
  | nil => simp [weightAll]
  | cons a as ih => simp [weightAll, ih, Nat.add_assoc]

theorem weight_le_of_mem {e : Expr} {es : List Expr} (h : e ∈ es) : e.weight ≤ weightAll es := by
  induction es with
  | nil => simp at h
  | cons a as ih =>
    rw [weightAll]
    rcases List.mem_cons.1 h with rfl | h
    · omega
    · have := ih h; omega

/-- Arguments weigh less than the application they are in. -/
theorem weightAll_lt (op : Op) (args : List Expr) :
    weightAll args < (Expr.node op args).weight := by
  rw [weight]
  split <;> omega

theorem weight_lt_of_mem (op : Op) {args : List Expr} {e : Expr} (he : e ∈ args) :
    e.weight < (Expr.node op args).weight :=
  Nat.lt_of_le_of_lt (weight_le_of_mem he) (weightAll_lt op args)

mutual

/-- The terms of a chain weigh no more than the chain. -/
theorem weightAll_chainTerms_le (op : Op) : (e : Expr) → weightAll (e.chainTerms op) ≤ e.weight
  | .num _ | .var _ => by simp [chainTerms, weightAll]
  | .node o args => by
    have := weightAll_chainTermsAll_le op args
    have := weightAll_lt o args
    rw [chainTerms]
    split
    · omega
    · simp [weightAll]

theorem weightAll_chainTermsAll_le (op : Op) :
    (es : List Expr) → weightAll (chainTermsAll op es) ≤ weightAll es
  | [] => by simp [chainTermsAll]
  | e :: es => by
    have := weightAll_chainTerms_le op e
    have := weightAll_chainTermsAll_le op es
    rw [chainTermsAll, weightAll_append, weightAll]
    omega

end

/-! ## Collected terms -/

/-- A term that counts as a variable occurs once and weighs 2, or weighs at least 4. -/
theorem weight_of_occurrences? {repetition : Op} {e : Expr} {v : String} {n : Int}
    (h : e.occurrences? repetition = some (v, n)) : n = 1 ∧ e.weight = 2 ∨ 4 ≤ e.weight := by
  unfold occurrences? at h
  split at h
  · simp only [Option.some.injEq, Prod.mk.injEq] at h
    exact .inl ⟨h.2.symm, by simp [weight]⟩
  · exact .inr (by simp only [weight, weightAll]; split <;> omega)
  · exact .inr (by simp [weight, weightAll])
  · simp at h

@[simp] theorem weight_multiple (repetition : Op) (v : String) (n : Int) :
    (multiple repetition v n).weight = 4 := by
  unfold multiple
  split <;> simp [ofInt, weight, weightAll]

/-- A variable that occurs once takes a weight of 2, one that occurs more often takes 4. -/
theorem total_occurrences (repetition : Op) (v : String) (args : List Expr) :
    total v (args.filterMap (occurrences? repetition)) ≤ 0 ∨
      total v (args.filterMap (occurrences? repetition)) = 1 ∧ 2 ≤ weightAll args ∨
      4 ≤ weightAll args := by
  induction args with
  | nil => exact .inl (by simp [total])
  | cons e es ih =>
    rw [weightAll]
    cases ht : e.occurrences? repetition with
    | none => rw [List.filterMap_cons_none ht]; omega
    | some t =>
      obtain ⟨w, n⟩ := t
      rw [List.filterMap_cons_some ht, total]
      have := weight_of_occurrences? ht
      split <;> omega

/-- A collected term weighs no more than all that were collected. -/
theorem weight_le_of_mem_collected {c : Chain} {args : List Expr} {e : Expr}
    (he : e ∈ c.collected args) : e.weight ≤ weightAll args := by
  simp only [Chain.collected, List.mem_append, List.mem_map, List.mem_filter] at he
  rcases he with ((⟨n, hn, rfl⟩ | ⟨⟨v, n⟩, ⟨hn, hlt⟩, rfl⟩) | he) | ⟨⟨v, n⟩, ⟨hn, hone⟩, rfl⟩
  · cases args with
    | nil => simp [Chain.constants, Chain.foldConstants] at hn
    | cons a as =>
      have := weight_pos a
      simp only [ofInt, weight, weightAll]
      omega
  · have : n = total v (args.filterMap (occurrences? c.repetition)) := by
      simp only [Chain.counts, tally, List.mem_map, Prod.mk.injEq] at hn
      obtain ⟨_, _, rfl, rfl⟩ := hn
      rfl
    have := total_occurrences c.repetition v args
    simp only [decide_eq_true_eq] at hlt
    rw [weight_multiple]
    omega
  · exact weight_le_of_mem (List.mem_filter.1 he).1
  · have : n = total v (args.filterMap (occurrences? c.repetition)) := by
      simp only [Chain.counts, tally, List.mem_map, Prod.mk.injEq] at hn
      obtain ⟨_, _, rfl, rfl⟩ := hn
      rfl
    have := total_occurrences c.repetition v args
    simp only [beq_iff_eq] at hone
    simp only [weight]
    omega

/-! ## The rules -/

section Rules

variable {ε : Type} {k : Evaluator ε}

/-- What the rule for products makes is lighter than the product. -/
theorem weight_lt_of_productRule {args args' : List Expr} {op : Op}
    (h : productRule k args = .ok (.node op args')) {e : Expr} (he : e ∈ args') :
    e.weight < (Expr.node .mul args).weight := by
  have split_eq := List.takeWhile_append_dropWhile (p := (!isNode .div ·)) (l := args)
  have whole := weightAll_lt .mul args
  unfold productRule at h
  split at h
  · next numer denom after hd =>
    rw [hd] at split_eq
    have weights := congrArg weightAll split_eq
    simp only [weightAll_append, weightAll, weight] at weights
    simp only [Except.ok.injEq, Expr.node.injEq] at h
    rw [← h.2] at he
    simp only [List.mem_cons, List.not_mem_nil, or_false] at he
    have : (Expr.node Op.div [numer, denom]).weight = 1 + (numer.weight + denom.weight) := by
      simp [weight, weightAll]
    have := weight_pos numer
    have := weight_pos denom
    rcases he with rfl | rfl
    · simp only [weight, weightAll_append, weightAll] at *
      grind
    · grind
  · simp at h
  · simp only [Chain.collect, Except.ok.injEq, Expr.node.injEq] at h
    rw [← h.2] at he
    have := weight_le_of_mem_collected he
    have := weightAll_chainTermsAll_le .mul args
    omega

/-- The integers that are left of a value are lighter than an application to integers. -/
theorem weight_lt_of_value {op op' : Op} {a b : Numeral} {defined : op.Defined b.value}
    {args' : List Expr}
    (h : (k.value op a.value b.value defined).map Value.toExpr = .ok (.node op' args')) {e : Expr}
    (he : e ∈ args') : e.weight < (Expr.node op [.num a, .num b]).weight := by
  cases value : k.value op a.value b.value defined with
  | error _ =>
    rw [value] at h
    cases h
  | ok v =>
    rw [value] at h
    cases v with
    | whole n => cases h
    | fraction p q =>
      cases h
      have numbers : e.weight = 1 := by
        simp only [List.mem_cons, List.not_mem_nil, or_false] at he
        rcases he with rfl | rfl <;> simp [ofInt, weight]
      rw [numbers, weight, weightAll]
      have := weight_pos (.num a)
      split <;> omega

/-- What the rule for quotients makes is lighter than the quotient. -/
theorem weight_lt_of_quotientRule {left right : Expr} {args' : List Expr} {op : Op}
    (h : quotientRule k left right = .ok (.node op args')) {e : Expr} (he : e ∈ args') :
    e.weight < (Expr.node .div [left, right]).weight := by
  have unchanged (same : Expr.node .div [left, right] = .node op args') :
      e.weight < (Expr.node .div [left, right]).weight := by
    rw [same]
    exact weight_lt_of_mem op he
  unfold quotientRule at h
  split at h
  · exact unchanged (Except.ok.inj h)
  · next a b _ =>
    -- One quotient less: `b * right` weighs less than `a / b` and `right` in a quotient.
    simp only [Except.ok.injEq, Expr.node.injEq] at h
    rw [← h.2] at he
    simp only [List.mem_cons, List.not_mem_nil, or_false] at he
    rcases he with rfl | rfl <;> simp [weight, weightAll] <;> omega
  · cases h
  · next b c _ =>
    simp only [Except.ok.injEq, Expr.node.injEq] at h
    rw [← h.2] at he
    simp only [List.mem_cons, List.not_mem_nil, or_false] at he
    rcases he with rfl | rfl <;> simp [weight, weightAll] <;> omega
  · cases h
  · split at h
    · exact unchanged (Except.ok.inj h)
    · exact weight_lt_of_value h he
  · exact unchanged (Except.ok.inj h)

/-- What the rule for powers makes is lighter than the power. -/
theorem weight_lt_of_powerRule {base exponent : Expr} {args' : List Expr} {op : Op}
    (h : powerRule k base exponent = .ok (.node op args')) {e : Expr} (he : e ∈ args') :
    e.weight < (Expr.node .pow [base, exponent]).weight := by
  have unchanged (same : Expr.node .pow [base, exponent] = .node op args') :
      e.weight < (Expr.node .pow [base, exponent]).weight := by
    rw [same]
    exact weight_lt_of_mem op he
  unfold powerRule at h
  split at h
  · split at h
    · exact weight_lt_of_value h he
    · exact unchanged (Except.ok.inj h)
  · exact unchanged (Except.ok.inj h)

/-- The arguments that a rule makes are lighter than the expression that it was applied to. -/
theorem weight_lt_of_applyRuleWith {op op' : Op} {args args' : List Expr}
    (h : applyRuleWith k op args = .ok (.node op' args')) {e : Expr} (he : e ∈ args') :
    e.weight < (Expr.node op args).weight := by
  unfold applyRuleWith at h
  split at h
  · simp only [sumRule, Chain.collect, Except.ok.injEq, Expr.node.injEq] at h
    rw [← h.2] at he
    have := weight_le_of_mem_collected he
    have := weightAll_chainTermsAll_le .add args
    have := weightAll_lt .add args
    omega
  · exact weight_lt_of_productRule h he
  · next left right =>
    simp only [differenceRule, Except.ok.injEq, Expr.node.injEq] at h
    rw [← h.2] at he
    have := weight_pos left
    simp only [List.mem_cons, List.not_mem_nil, or_false] at he
    rcases he with rfl | rfl <;> simp [weight, weightAll, ofInt] <;> omega
  · exact weight_lt_of_quotientRule h he
  · exact weight_lt_of_powerRule h he
  · simp at h

end Rules

theorem weight_lt_of_applyRule {op op' : Op} {args args' : List Expr}
    (h : applyRule op args = .ok (.node op' args')) {e : Expr} (he : e ∈ args') :
    e.weight < (Expr.node op args).weight := weight_lt_of_applyRuleWith h he

end ArithTree.Expr
