import ArithTree.Proofs.Reading.Folding

/-!
# What is simplified while a text is read

`Adjusts adjust e e' built` says that `e` is built up again as `e'` if every application is
adjusted, and that `built` are the applications that are handed to `adjust`. They are what is handed
to it when `e` is read (`adjusts_of_parseTokens`).

If applications are simplified while they are read, none of them costs more than the expression that
is read. So no simplification gives up if it costs little (`neverGivesUp_of_parse`).
-/

namespace ArithTree

open ArithTree.Expr

/-! ## Adjusted applications -/

/-- How an expression is built up again from its leaves, and the applications that are adjusted on
the way, in their order. -/
inductive Adjusts (adjust : Expr → Except Fault Expr) : Expr → Expr → List Expr → Prop where
  | num (n : Numeral) : Adjusts adjust (.num n) (.num n) []
  | var (x : String) : Adjusts adjust (.var x) (.var x) []
  | pair {op : Op} {left right left' right' e' : Expr} {front back : List Expr}
      (hleft : Adjusts adjust left left' front) (hright : Adjusts adjust right right' back)
      (adjusted : adjust (.node op [left', right']) = .ok e') :
    Adjusts adjust (.node op [left, right]) e' (front ++ back ++ [.node op [left', right']])

variable {adjust : Expr → Except Fault Expr}

theorem exists_adjusts {e e' : Expr} (binary : Binary e) (h : e.foldM adjust = .ok e') :
    ∃ built, Adjusts adjust e e' built := by
  induction binary using Binary.induction generalizing e' with
  | num n =>
    rw [foldM] at h
    cases h
    exact ⟨[], .num n⟩
  | var x =>
    rw [foldM] at h
    cases h
    exact ⟨[], .var x⟩
  | pair op left right _ _ ihl ihr =>
    rw [foldM_pair] at h
    obtain ⟨left', hleft, h⟩ := ok_of_bind h
    obtain ⟨right', hright, h⟩ := ok_of_bind h
    obtain ⟨front, front'⟩ := ihl hleft
    obtain ⟨back, back'⟩ := ihr hright
    exact ⟨_, .pair front' back' h⟩

/-- The code of an expression hands over the applications that are adjusted. -/
theorem Adjusts.built_code_append {e e' : Expr} {built : List Expr} (h : Adjusts adjust e e' built)
    (stack : Stack) (more : List Instr) :
    Stack.built adjust stack (e.code ++ more) = built ++ Stack.built adjust (e' :: stack) more := by
  induction h generalizing stack more with
  | num n => exact Stack.built_push _ _ _ _
  | var x => exact Stack.built_push _ _ _ _
  | pair _ _ adjusted ihl ihr =>
    rw [Expr.code, List.append_assoc, List.append_assoc, ihl, ihr, List.append_assoc,
      List.append_assoc, List.singleton_append, Stack.built_of_applied stack adjusted]
    rfl

/-- What is handed over while tokens are read. -/
theorem adjusts_of_parseTokens {ts : List Token} {e e' : Expr} (h : parseTokens .ok ts = .ok e)
    (h' : parseTokens adjust ts = .ok e') : Adjusts adjust e e' (builtTokens adjust ts) := by
  rw [parseTokens_eq_foldM h] at h'
  obtain ⟨built, adjusts⟩ := exists_adjusts (binary_of_parseTokens h) h'
  have same := adjusts.built_code_append [] []
  rw [List.append_nil] at same
  rwa [builtTokens, code_of_parseTokens h, same, Stack.built_nil, List.append_nil]

/-! ## What it costs -/

/-- An expression without more quotients, and of no greater cost. -/
structure Cheaper (limit : Nat) (e e' : Expr) : Prop where
  wf : WellFormed e'
  quotients_le : e'.quotients ≤ e.quotients
  cost_le : cost limit e' ≤ cost limit e

/-- Simplifying does not make an expression more costly. -/
theorem Cheaper.of_simplified {limit : Nat} {e x r : Expr} (h : Cheaper limit e x)
    (few : e.quotients ≤ limit) (simplified : x.simplified = .ok r) : Cheaper limit e r := by
  have step : ∀ x, Cheaper limit e x → ∃ x', pass x = .ok x' ∧ Cheaper limit e x' := by
    intro x h
    obtain ⟨x', passed, wf, fewer, lower, _⟩ := exists_pass_and (exists_pass h.wf)
      (exists_pass_cost limit h.wf (Nat.le_trans h.quotients_le few))
    exact ⟨x', passed, wf, Nat.le_trans fewer h.quotients_le, Nat.le_trans lower h.cost_le⟩
  obtain ⟨r', steps, cheaper⟩ := exists_simplify step h
  cases simplified.symm.trans (simplified_of_simplify steps)
  exact cheaper

/-- Applications to cheaper arguments are cheaper. -/
theorem Cheaper.pair {limit : Nat} {op : Op} {left right left' right' : Expr}
    (hleft : Cheaper limit left left') (hright : Cheaper limit right right') :
    Cheaper limit (.node op [left, right]) (.node op [left', right']) := by
  have quotients := Nat.add_le_add hleft.quotients_le hright.quotients_le
  have costs := Nat.add_le_add hleft.cost_le hright.cost_le
  refine ⟨?_, ?_, ?_⟩
  · exact wellFormed_node.2 ⟨.inr (.inr rfl), by simp [hleft.wf, hright.wf]⟩
  · simp only [quotients_node, quotientsAll_cons, quotientsAll_nil]
    omega
  · rw [cost_node, cost_node]
    apply op.cost_le
    · simpa only [costAll_cons, costAll_nil, Nat.add_zero] using costs
    · simpa only [quotientsAll_cons, quotientsAll_nil, Nat.add_zero] using quotients

/-- Whole expressions are no cheaper than their arguments. -/
theorem Cheaper.of_argument {limit : Nat} {op : Op} {args : List Expr} {a x : Expr} (ha : a ∈ args)
    (h : Cheaper limit a x) : Cheaper limit (.node op args) x := by
  have quotients := quotients_le_of_mem ha
  have cost : cost limit a ≤ costAll limit args := by
    rw [costAll_eq_sum]
    exact List.le_sum_of_mem (List.mem_map_of_mem ha)
  have more := op.lt_cost limit (costAll limit args) (quotientsAll args)
  refine ⟨h.wf, Nat.le_trans h.quotients_le ?_, Nat.le_trans h.cost_le ?_⟩
  · rw [quotients_node]
    omega
  · rw [cost_node]
    omega

/-- If applications are simplified while an expression is built up again, all of them are cheaper
than the expression. -/
theorem Adjusts.cheaper {limit : Nat} {e e' : Expr} {built : List Expr}
    (h : Adjusts simplified e e' built) (few : e.quotients ≤ limit) :
    Cheaper limit e e' ∧ ∀ x ∈ built, Cheaper limit e x := by
  induction h with
  | num n => exact ⟨⟨everywhere_num _ n, Nat.le_refl _, Nat.le_refl _⟩, by simp⟩
  | var x => exact ⟨⟨everywhere_var _ x, Nat.le_refl _, Nat.le_refl _⟩, by simp⟩
  | @pair op left right left' right' e' front back _ _ adjusted ihl ihr =>
    have few' := few
    simp only [quotients_node, quotientsAll_cons, quotientsAll_nil] at few'
    obtain ⟨hleft, hfront⟩ := ihl (by omega)
    obtain ⟨hright, hback⟩ := ihr (by omega)
    have application : Cheaper limit (.node op [left, right]) (.node op [left', right']) :=
      hleft.pair hright
    refine ⟨application.of_simplified few adjusted, ?_⟩
    simp only [List.forall_mem_append, List.forall_mem_singleton]
    refine ⟨⟨?_, ?_⟩, application⟩
    · intro x hx
      exact (hfront x hx).of_argument (by simp)
    · intro x hx
      exact (hback x hx).of_argument (by simp)

/-- If what is read costs little, simplifying it does not give up, and neither does simplifying any
of its applications while it is read. -/
theorem neverGivesUp_of_parse {s : String} {e : Expr} (h : parse s = .ok e)
    (cheap : cost e.quotients e + 1 < maxPasses) :
    (∀ r, simplify e = .ok r → NeverGivesUp r) ∧
      ∀ x ∈ builtTokens simplified (tokens s), ∀ r, simplify x = .ok r → NeverGivesUp r := by
  have settled {x : Expr} (cheaper : Cheaper e.quotients e x) {r : Simplified}
      (hr : simplify x = .ok r) : NeverGivesUp r := by
    have cost := cheaper.cost_le
    exact neverGivesUp_of_cost cheaper.wf cheaper.quotients_le (by omega) hr
  obtain ⟨e', eager, _⟩ := exists_eager_refines h
  have adjusts := adjusts_of_parseTokens h eager
  refine ⟨fun r => settled ⟨wellFormed_of_parse h, Nat.le_refl _, Nat.le_refl _⟩, ?_⟩
  intro x hx r
  exact settled ((adjusts.cheaper (Nat.le_refl _)).2 x hx)

end ArithTree
