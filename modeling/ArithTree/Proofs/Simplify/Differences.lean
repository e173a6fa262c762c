import ArithTree.Proofs.Simplify.Iteration

/-!
# Differences

A pass turns every difference into a sum, wherever it stands. The rules are applied from the outside
in, and the arguments that a rule makes can be terms of spliced chains, factors that went into a
numerator, or products with `-1` that were not there before. No rule leaves a difference at the
outside (`Rewrites.op_ne_sub`), and the pass goes on with whatever arguments there are. Therefore no
difference is left in any of them.

Main statement: `pass_eliminates_differences`.
-/

namespace ArithTree.Expr

/-- There is no difference in an expression. -/
abbrev NoDifference : Expr → Prop := Everywhere fun op _ => op ≠ .sub

/-- No rule makes a difference. -/
theorem Rewrites.op_ne_sub {op op' : Op} {args args' : List Expr}
    (h : Rewrites op args (.node op' args')) : op' ≠ .sub := by
  cases h with
  | difference | sum | product | hoist | leftQuotient | rightQuotient | fraction | quotient
  | power => exact Op.noConfusion

/-- A pass leaves no difference. -/
theorem exists_pass_noDifference {e : Expr} (wf : WellFormed e) :
    ∃ e', pass e = .ok e' ∧ NoDifference e' := by
  apply exists_pass_everywhere _ wf
  intro op args op' args' results _ rewrites _
  exact rewrites.op_ne_sub

theorem exists_pass_wellFormed_noDifference {e : Expr} (wf : WellFormed e) :
    ∃ e', pass e = .ok e' ∧ WellFormed e' ∧ NoDifference e' :=
  exists_pass_and (exists_pass wf) (exists_pass_noDifference wf)

/-- After any number of passes but none, there is no difference. -/
theorem exists_passTimes_noDifference {e : Expr} (wf : WellFormed e) {n : Nat} (some : 0 < n) :
    ∃ e', e.passTimes n = .ok e' ∧ NoDifference e' := by
  obtain ⟨m, rfl⟩ := Nat.exists_eq_add_of_lt some
  obtain ⟨next, passed, invariant⟩ := exists_pass_wellFormed_noDifference wf
  have step : ∀ e, WellFormed e ∧ NoDifference e →
      ∃ e', pass e = .ok e' ∧ WellFormed e' ∧ NoDifference e' :=
    fun _ h => exists_pass_wellFormed_noDifference h.1
  obtain ⟨e', times, _, none⟩ := exists_passTimes step invariant m
  rw [Nat.zero_add, passTimes_succ passed]
  exact ⟨e', times, none⟩

/-- The expressions on the way of any number of passes have no difference in them. -/
theorem exists_passes_noDifference {e : Expr} (wf : WellFormed e) (n : Nat) :
    ∃ es, e.passes n = .ok es ∧ es.length = n ∧ ∀ e' ∈ es, NoDifference e' := by
  induction n generalizing e with
  | zero => exact ⟨[], rfl, rfl, by simp⟩
  | succ n ih =>
    obtain ⟨next, passed, wf', none⟩ := exists_pass_wellFormed_noDifference wf
    obtain ⟨es, made, length, rest⟩ := ih wf'
    refine ⟨next :: es, ?_, congrArg (· + 1) length, List.forall_mem_cons.2 ⟨none, rest⟩⟩
    simp only [passes, passed, made, bind, Except.bind, pure, Except.pure]

/-- One pass over a well-formed expression eliminates all differences in it, wherever they stand.
So there is none in any later expression, nor in the simplified one if any pass may be made. -/
theorem pass_eliminates_differences {e : Expr} (wf : WellFormed e) :
    (∃ e', pass e = .ok e' ∧ NoDifference e') ∧
      (∀ n, ∃ es, e.passes n = .ok es ∧ es.length = n ∧ ∀ e' ∈ es, NoDifference e') ∧
      ∀ allowed, 0 < allowed →
        ∃ r, simplifyWithin allowed e = .ok r ∧ NoDifference r.expr := by
  refine ⟨exists_pass_noDifference wf, exists_passes_noDifference wf, ?_⟩
  intro allowed some
  have positive : 0 < allowed.toNat := by omega
  obtain ⟨e', times, none⟩ := exists_passTimes_noDifference wf positive
  obtain ⟨r, steps, rfl⟩ := simplifyFrom_of_passTimes times allowed 0
  exact ⟨r, steps, none⟩

/-- A difference beside a quotient goes into the numerator, where differences are nested already. -/
theorem pass_eliminates_differences_of_quotient :
    let minus (a b : Expr) : Expr := .node .sub [a, b]
    let plus (a b : Expr) : Expr := .node .add [a, b]
    let negative (a : Expr) : Expr := .node .mul [ofInt (-1), a]
    let e : Expr := .node .mul [minus (.var "x") (ofInt 2),
      .node .div [minus (.var "a") (minus (.var "b") (.var "c")),
        .node .pow [minus (.var "x") (ofInt 1), minus (.var "n") (ofInt 1)]]]
    let e' : Expr := .node .div [
      .node .mul [plus (.var "x") (ofInt (-2)),
        plus (.var "a") (negative (plus (.var "b") (negative (.var "c"))))],
      .node .pow [plus (.var "x") (ofInt (-1)), plus (.var "n") (ofInt (-1))]]
    WellFormed e ∧ ¬ NoDifference e ∧ pass e = .ok e' ∧ NoDifference e' := by
  intro minus plus negative e e'
  have wf : WellFormed e := by decide
  obtain ⟨⟨next, passed, none⟩, _⟩ := pass_eliminates_differences wf
  have result : pass e = .ok e' := by decide +kernel
  cases passed.symm.trans result
  exact ⟨wf, by decide, result, none⟩

end ArithTree.Expr
