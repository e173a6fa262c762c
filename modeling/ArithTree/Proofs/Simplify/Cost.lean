import ArithTree.Proofs.Simplify.FixedPoint

/-!
# How many passes it takes

The potential shows that passes converge, but it grows exponentially. The cost of an expression
bounds the number of passes much better. A numeral costs 1 and a variable 3, so that two terms cost
more than the one they are merged into, and applications cost what their arguments do, and more:

* sums and powers 1;
* products 1, and 1 for each quotient in them, as a quotient that leaves a product gets into one
  factor less;
* differences 4, and 1 for each quotient in them, as they become sums of products;
* quotients 1, and as many as there can be quotients in all, as a quotient of a quotient becomes a
  product in which there may be all the others.

A pass does not raise the cost, and if it keeps it, it keeps the potential as well
(`exists_pass_cost`), so that the next pass changes nothing.
-/

namespace ArithTree

/-- The cost of an application, from the sum of its arguments' costs and the number of quotients in
them. -/
def Op.cost (op : Op) (limit sum quotients : Nat) : Nat :=
  match op with
  | .add | .pow => sum + 1
  | .mul => sum + quotients + 1
  | .sub => sum + quotients + 4
  | .div => sum + limit + 1

theorem Op.lt_cost (op : Op) (limit sum quotients : Nat) : sum < op.cost limit sum quotients := by
  cases op <;> simp only [Op.cost] <;> omega

theorem Op.cost_le (op : Op) {limit sum sum' quotients quotients' : Nat} (hsum : sum' ≤ sum)
    (hquotients : quotients' ≤ quotients) :
    op.cost limit sum' quotients' ≤ op.cost limit sum quotients := by
  cases op <;> simp only [Op.cost] <;> omega

theorem Op.eq_of_cost_eq {op : Op} {limit sum sum' quotients quotients' : Nat} (hsum : sum' ≤ sum)
    (hquotients : quotients' ≤ quotients)
    (same : op.cost limit sum' quotients' = op.cost limit sum quotients) : sum' = sum := by
  cases op <;> simp only [Op.cost] at same <;> omega

namespace Expr

mutual

/-- The number of quotients in an expression. -/
def quotients : Expr → Nat
  | .num _ => 0
  | .var _ => 0
  | .node op args => (if op = .div then 1 else 0) + quotientsAll args

/-- The number of quotients in all expressions of a list. -/
def quotientsAll : List Expr → Nat
  | [] => 0
  | e :: es => e.quotients + quotientsAll es

end

@[simp] theorem quotients_num (n : Numeral) : (Expr.num n).quotients = 0 := by rw [quotients]

@[simp] theorem quotients_ofInt (n : Int) : (ofInt n).quotients = 0 := quotients_num _

@[simp] theorem quotients_var (x : String) : (Expr.var x).quotients = 0 := by rw [quotients]

theorem quotients_node (op : Op) (args : List Expr) :
    (Expr.node op args).quotients = (if op = .div then 1 else 0) + quotientsAll args := by
  rw [quotients]

@[simp] theorem quotientsAll_nil : quotientsAll [] = 0 := by rw [quotientsAll]

@[simp] theorem quotientsAll_cons (e : Expr) (es : List Expr) :
    quotientsAll (e :: es) = e.quotients + quotientsAll es := by rw [quotientsAll]

theorem quotientsAll_eq_sum (es : List Expr) : quotientsAll es = (es.map quotients).sum := by
  induction es with
  | nil => simp
  | cons e es ih => rw [quotientsAll_cons, ih, List.map_cons, List.sum_cons]

@[simp] theorem quotientsAll_append (es fs : List Expr) :
    quotientsAll (es ++ fs) = quotientsAll es + quotientsAll fs := by
  simp [quotientsAll_eq_sum]

theorem quotients_le_of_mem {e : Expr} {es : List Expr} (h : e ∈ es) :
    e.quotients ≤ quotientsAll es := by
  rw [quotientsAll_eq_sum]
  exact List.le_sum_of_mem (List.mem_map_of_mem h)

section Cost

variable (limit : Nat)

mutual

/-- The cost of an expression, if there are at most `limit` quotients in it. -/
def cost : Expr → Nat
  | .num _ => 1
  | .var _ => 3
  | .node op args => op.cost limit (costAll args) (quotientsAll args)

/-- The cost of all expressions of a list. -/
def costAll : List Expr → Nat
  | [] => 0
  | e :: es => cost e + costAll es

end

@[simp] theorem cost_num (n : Numeral) : cost limit (.num n) = 1 := by rw [cost]

@[simp] theorem cost_ofInt (n : Int) : cost limit (ofInt n) = 1 := cost_num _ _

@[simp] theorem cost_var (x : String) : cost limit (.var x) = 3 := by rw [cost]

theorem cost_node (op : Op) (args : List Expr) :
    cost limit (.node op args) = op.cost limit (costAll limit args) (quotientsAll args) := by
  rw [cost]

@[simp] theorem costAll_nil : costAll limit [] = 0 := by rw [costAll]

@[simp] theorem costAll_cons (e : Expr) (es : List Expr) :
    costAll limit (e :: es) = cost limit e + costAll limit es := by rw [costAll]

theorem costAll_eq_sum (es : List Expr) : costAll limit es = (es.map (cost limit)).sum := by
  induction es with
  | nil => simp
  | cons e es ih => rw [costAll_cons, ih, List.map_cons, List.sum_cons]

@[simp] theorem costAll_append (es fs : List Expr) :
    costAll limit (es ++ fs) = costAll limit es + costAll limit fs := by
  simp [costAll_eq_sum]

/-! ## Nested chains -/

theorem quotientsAll_chainTermsAll {op : Op} (hop : op ≠ .div) (es : List Expr) :
    quotientsAll (chainTermsAll op es) = quotientsAll es := by
  refine chainTermsAll_induction (motive := fun es ts => quotientsAll ts = quotientsAll es)
    ?nil ?single ?splice es
  case nil => rfl
  case single =>
    intro e es ts _ ih
    rw [quotientsAll_cons, quotientsAll_cons, ih]
  case splice =>
    intro args es ts ts' ihargs ihes
    rw [quotientsAll_append, quotientsAll_cons, quotients_node, if_neg hop, ihargs, ihes,
      Nat.zero_add]

/-- Splicing nested chains does not raise the cost, and keeps it only if there are none. -/
theorem costAll_chainTermsAll_le (op : Op) (es : List Expr) :
    costAll limit (chainTermsAll op es) ≤ costAll limit es ∧
      (costAll limit (chainTermsAll op es) = costAll limit es → ∀ e ∈ es, isNode op e = false) := by
  refine chainTermsAll_induction (motive := fun es ts => costAll limit ts ≤ costAll limit es ∧
    (costAll limit ts = costAll limit es → ∀ e ∈ es, isNode op e = false)) ?nil ?single ?splice es
  case nil => simp
  case single =>
    rintro e es ts he ⟨rest, flat⟩
    rw [costAll_cons, costAll_cons]
    refine ⟨by omega, ?_⟩
    intro same
    exact List.forall_mem_cons.2 ⟨he, flat (by omega)⟩
  case splice =>
    rintro args es ts ts' ⟨inner, _⟩ ⟨rest, _⟩
    have lower := op.lt_cost limit (costAll limit args) (quotientsAll args)
    rw [costAll_append, costAll_cons, cost_node]
    exact ⟨by omega, by omega⟩

/-! ## Collected terms -/

section Collected

variable {c : Chain}

/-- The cost of a term with a given number of occurrences. -/
def termCost (t : String × Int) : Nat := if t.2 = 1 then 3 else 5

theorem sum_termCost_tally_le {ts : List (String × Int)} (h : ∀ t ∈ ts, 0 < t.2) :
    ((tally ts).map termCost).sum ≤ (ts.map termCost).sum ∧
      (((tally ts).map termCost).sum = (ts.map termCost).sum → (ts.map (·.1)).Nodup) := by
  -- A part of the cost is subadditive, and the rest counts terms.
  have split (ts : List (String × Int)) : (ts.map termCost).sum =
      (ts.map fun t => if t.2 = 1 then 2 else 4).sum + ts.length := by
    induction ts with
    | nil => rfl
    | cons t ts ih =>
      rw [List.map_cons, List.sum_cons, ih, List.map_cons, List.sum_cons, List.length_cons, termCost]
      split <;> omega
  have fewer := length_tally_le ts
  have part := sum_tally_le (f := fun n => if n = 1 then 2 else 4) (by
    intro m n _ _
    split <;> split <;> split <;> omega) h
  rw [split, split]
  exact ⟨by omega, fun same => nodup_of_length_tally (by omega)⟩

variable (repeats : c.repetition = .mul ∨ c.repetition = .pow)

include repeats

theorem cost_term (t : String × Int) : cost limit (c.term t) = termCost t := by
  unfold Chain.term multiple termCost
  split
  · simp
  · rcases repeats with h | h <;> simp [h, cost_node, Op.cost]

theorem quotients_term (t : String × Int) : (c.term t).quotients = 0 := by
  unfold Chain.term multiple
  split
  · simp
  · rcases repeats with h | h <;> simp [h, quotients_node]

theorem cost_tidy (e : Expr) : cost limit (c.tidy e) = cost limit e := by
  unfold Chain.tidy
  split
  · next n hn =>
    cases e with
    | num m => simp
    | var | node => cases hn
  · next t _ ht =>
    rw [cost_term limit repeats, termCost]
    rcases Chain.occurrences?_eq_some ht with ⟨rfl, one⟩ | ⟨k, _, many, rfl | ⟨_, rfl⟩⟩
    · simp [one]
    · rw [if_neg (by omega)]
      rcases repeats with h | h <;> simp [h, cost_node, Op.cost]
    · rw [if_neg (by omega)]
      simp [cost_node, Op.cost]
  · rfl

theorem quotients_tidy (e : Expr) : (c.tidy e).quotients = e.quotients := by
  unfold Chain.tidy
  split
  · next n hn =>
    cases e with
    | num m => simp
    | var | node => cases hn
  · next t _ ht =>
    rw [quotients_term repeats]
    rcases Chain.occurrences?_eq_some ht with ⟨rfl, _⟩ | ⟨k, _, _, rfl | ⟨_, rfl⟩⟩
    · simp
    · rcases repeats with h | h <;> simp [h, quotients_node]
    · simp [quotients_node]
  · rfl

theorem quotientsAll_collected (args : List Expr) :
    quotientsAll (c.collected args) = quotientsAll args := by
  rw [quotientsAll_eq_sum, quotientsAll_eq_sum, (c.map_collected_perm quotients args).sum_eq,
    (c.map_perm_of_kinds (quotients_tidy repeats) args).sum_eq]
  simp [quotients_term repeats]

/-- Collecting like terms does not raise the cost, and keeps it only if no two terms can
be merged. -/
theorem costAll_collected_le (args : List Expr) :
    costAll limit (c.collected args) ≤ costAll limit args ∧
      (costAll limit (c.collected args) = costAll limit args → c.Apart args) := by
  have fewer : (c.constants args).length ≤ (args.filterMap constant?).length :=
    c.length_foldConstants_le _
  obtain ⟨counted, nodup⟩ := sum_termCost_tally_le (@Chain.pos_of_mem_occurrences c args)
  change ((c.counts args).map termCost).sum ≤ _ at counted
  change ((c.counts args).map termCost).sum = _ → _ at nodup
  have ones (ns : List Int) : (ns.map fun n => cost limit (ofInt n)).sum = ns.length := by simp
  have terms (ts : List (String × Int)) :
      (ts.map fun t => cost limit (c.term t)) = ts.map termCost :=
    List.map_congr_left fun t _ => cost_term limit repeats t
  rw [costAll_eq_sum, costAll_eq_sum, (c.map_collected_perm (cost limit) args).sum_eq,
    (c.map_perm_of_kinds (cost_tidy limit repeats) args).sum_eq]
  simp only [List.sum_append, ones, terms]
  refine ⟨by omega, ?_⟩
  intro same
  exact ⟨Chain.isChain_of_length_foldConstants (show (c.constants args).length = _ by omega),
    nodup (by omega)⟩

theorem potentialAll_collected_of_apart {args : List Expr} (apart : c.Apart args) :
    potentialAll (c.collected args) = potentialAll args := by
  rw [potentialAll_perm apart.collected_perm, potentialAll_eq_prod, potentialAll_eq_prod,
    List.map_map]
  exact congrArg List.prod (List.map_congr_left fun e _ => Chain.potential_tidy repeats e)

end Collected

/-! ## Rules -/

/-- What is known of a chain when its terms have been spliced and collected. -/
theorem cost_splice_le {c : Chain} (repeats : c.repetition = .mul ∨ c.repetition = .pow)
    (noQuotient : c.op ≠ .div) (args : List Expr) :
    let spliced := Expr.node c.op (c.collected (chainTermsAll c.op args))
    cost limit spliced ≤ cost limit (.node c.op args) ∧
      (cost limit spliced = cost limit (.node c.op args) →
        spliced.potential = (Expr.node c.op args).potential) := by
  intro spliced
  obtain ⟨flattened, flat⟩ := costAll_chainTermsAll_le limit c.op args
  obtain ⟨collected, apart⟩ := costAll_collected_le limit repeats (chainTermsAll c.op args)
  have quotients : quotientsAll (c.collected (chainTermsAll c.op args)) = quotientsAll args := by
    rw [quotientsAll_collected repeats, quotientsAll_chainTermsAll noQuotient]
  have le := Nat.le_trans collected flattened
  rw [cost_node, cost_node, quotients, potential_node, potential_node]
  refine ⟨Op.cost_le _ le (Nat.le_refl _), ?_⟩
  intro same
  have same := Op.eq_of_cost_eq le (Nat.le_refl _) same
  have terms := chainTermsAll_of_not_isNode (flat (by omega))
  have apart := apart (by omega)
  rw [terms] at apart ⊢
  rw [potentialAll_collected_of_apart repeats apart]

/-- No rule makes quotients. -/
theorem Rewrites.quotients_le {op : Op} {args : List Expr} {e : Expr} (h : Rewrites op args e) :
    e.quotients ≤ (Expr.node op args).quotients := by
  cases h with
  | sum | product =>
    rw [quotients_node, quotients_node, quotientsAll_collected (by simp),
      quotientsAll_chainTermsAll (by simp)]
  | quotient | power => exact Nat.le_refl _
  | difference | hoist | leftQuotient | rightQuotient | whole | fraction | evaluated =>
    simp only [quotients_node, quotientsAll_append, quotientsAll_cons, quotientsAll_nil,
      quotients_num, quotients_ofInt, if_true, reduceCtorEq, if_false]
    omega

/-- No rule raises the cost, and one that keeps it keeps the potential. -/
theorem Rewrites.cost_le {op op' : Op} {args args' : List Expr}
    (h : Rewrites op args (.node op' args')) (few : (Expr.node op args).quotients ≤ limit) :
    cost limit (.node op' args') ≤ cost limit (.node op args) ∧
      (cost limit (.node op' args') = cost limit (.node op args) →
        (Expr.node op' args').potential = (Expr.node op args).potential) := by
  cases h with
  | sum => exact cost_splice_le limit (c := .sum) (.inl rfl) (by simp) args
  | product => exact cost_splice_le limit (c := .product) (.inr rfl) (by simp) args
  | fraction => simp [cost_node, potential_node, Op.cost]
  | quotient | power => exact ⟨Nat.le_refl _, fun _ => rfl⟩
  -- All other rules lower the cost.
  | difference | hoist | leftQuotient | rightQuotient =>
    simp only [cost_node, quotients_node, Op.cost, costAll_append, costAll_cons, costAll_nil,
      quotientsAll_append, quotientsAll_cons, quotientsAll_nil, cost_ofInt, quotients_ofInt,
      if_true, reduceCtorEq, if_false] at few ⊢
    omega

/-! ## Passes -/

theorem costAll_le_of_forall₂ {es es' : List Expr}
    (h : List.Forall₂ (fun e e' => cost limit e' ≤ cost limit e ∧
      (cost limit e' = cost limit e → e'.potential = e.potential)) es es') :
    costAll limit es' ≤ costAll limit es ∧
      (costAll limit es' = costAll limit es → potentialAll es' = potentialAll es) := by
  induction h with
  | nil => simp
  | cons first _ ih =>
    rw [costAll_cons, costAll_cons, potentialAll_cons, potentialAll_cons]
    refine ⟨Nat.add_le_add first.1 ih.1, ?_⟩
    intro same
    have lower := first.1
    have lower' := ih.1
    rw [first.2 (by omega), ih.2 (by omega)]

theorem quotientsAll_le_of_forall₂ {es es' : List Expr}
    (h : List.Forall₂ (fun e e' => e'.quotients ≤ e.quotients) es es') :
    quotientsAll es' ≤ quotientsAll es := by
  rw [quotientsAll_eq_sum, quotientsAll_eq_sum]
  exact List.Forall₂.sum_le_sum (List.forall₂_map_left_iff.2 (List.forall₂_map_right_iff.2 h.flip))

theorem quotients_collapse_le (op : Op) (es : List Expr) :
    (collapse op es).quotients ≤ (Expr.node op es).quotients := by
  unfold collapse
  split
  · rw [quotients_node, quotientsAll_cons, quotientsAll_nil]
    omega
  · exact Nat.le_refl _

theorem cost_collapse_lt (op : Op) {es : List Expr} (one : es.length = 1) :
    cost limit (collapse op es) < cost limit (.node op es) := by
  obtain ⟨e, rfl⟩ := List.length_eq_one_iff.1 one
  have lower := op.lt_cost limit (costAll limit [e]) (quotientsAll [e])
  have single : costAll limit [e] = cost limit e := by simp
  show cost limit e < _
  rw [cost_node]
  omega

/-- A pass does not raise the cost, and one that keeps it keeps the potential. -/
theorem exists_pass_cost {e : Expr} (wf : WellFormed e) (few : e.quotients ≤ limit) :
    ∃ e', pass e = .ok e' ∧ e'.quotients ≤ e.quotients ∧ cost limit e' ≤ cost limit e ∧
      (cost limit e' = cost limit e → e'.potential = e.potential) := by
  suffices ∃ e', pass e = .ok e' ∧ (e.quotients ≤ limit → e'.quotients ≤ e.quotients ∧
      cost limit e' ≤ cost limit e ∧
        (cost limit e' = cost limit e → e'.potential = e.potential)) by
    obtain ⟨e', passed, h⟩ := this
    exact ⟨e', passed, h few⟩
  refine pass_related (R := fun e e' => e.quotients ≤ limit → e'.quotients ≤ e.quotients ∧
    cost limit e' ≤ cost limit e ∧ (cost limit e' = cost limit e → e'.potential = e.potential))
    ?num ?var ?evaluated ?node wf
  case num =>
    intro n _
    exact ⟨Nat.le_refl _, Nat.le_refl _, fun _ => rfl⟩
  case var =>
    intro x _
    exact ⟨Nat.le_refl _, Nat.le_refl _, fun _ => rfl⟩
  case evaluated =>
    intro op args n rewrites _
    -- An application costs more than a numeral, whatever its arguments are.
    have lower : 1 < cost limit (.node op args) := by
      cases rewrites <;> simp [cost_node, Op.cost]
    rw [cost_num]
    exact ⟨rewrites.quotients_le, by omega, by omega⟩
  case node =>
    intro op args op' args' results _ rewrites related few
    obtain ⟨rule, settled⟩ := rewrites.cost_le limit few
    have fewer := rewrites.quotients_le
    have each : ∀ e ∈ args', e.quotients ≤ limit := by
      intro e he
      have := quotients_le_of_mem he
      rw [quotients_node op'] at fewer
      omega
    have inner : List.Forall₂ (fun e e' => e'.quotients ≤ e.quotients ∧
        cost limit e' ≤ cost limit e ∧
          (cost limit e' = cost limit e → e'.potential = e.potential)) args' results :=
      ((List.forall₂_and_left args' results).2 ⟨each, related⟩).imp fun _ _ h => h.2.2 h.1
    have fewer' : quotientsAll results ≤ quotientsAll args' :=
      quotientsAll_le_of_forall₂ (inner.imp fun _ _ h => h.1)
    obtain ⟨lower, kept⟩ := costAll_le_of_forall₂ limit (inner.imp fun _ _ h => h.2)
    have lower' : cost limit (.node op' results) ≤ cost limit (.node op' args') := by
      rw [cost_node, cost_node]
      exact Op.cost_le _ lower fewer'
    have fewer'' : (Expr.node op' results).quotients ≤ (Expr.node op' args').quotients := by
      rw [quotients_node, quotients_node]
      omega
    have collapsed := quotients_collapse_le op' results
    refine ⟨by omega, ?_⟩
    by_cases one : results.length = 1
    · have lower'' := cost_collapse_lt limit op' one
      exact ⟨by omega, by omega⟩
    · rw [collapse_of_length one]
      refine ⟨by omega, ?_⟩
      intro same
      rw [← settled (by omega), potential_node, potential_node]
      have same' : cost limit (.node op' results) = cost limit (.node op' args') := by omega
      rw [cost_node, cost_node] at same'
      exact congrArg _ (kept (Op.eq_of_cost_eq lower fewer' same'))

end Cost

end Expr

end ArithTree
