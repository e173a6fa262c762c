import ArithTree.Proofs.Simplify.FixedPoint
import ArithTree.Proofs.Simplify.Iteration

/-!
# Passes converge

A pass that does not lower the potential has reached a normal form, which the next pass leaves as it
is. So the number of passes that change something is bounded by the potential, and a simplification
that may make more of them ends at a fixed point.
-/

namespace ArithTree.Expr

/-- A fixed point is reached after about as many passes as the potential says. -/
theorem exists_passTimes_fixed {e : Expr} (wf : WellFormed e) :
    ∃ n e', n ≤ e.potential + 1 ∧ e.passTimes n = .ok e' ∧ pass e' = .ok e' := by
  refine exists_fixed_of_measure potential ?_ wf
  intro e wf
  obtain ⟨e', passed, wf', lower, settled⟩ := exists_pass_and (exists_pass wf)
    (exists_pass_potential wf)
  exact ⟨e', passed, wf', lower, fun same => pass_of_stable (settled same).1⟩

/-- Every number of passes can be made, some number of them reaches a fixed point, and a
simplification that may make more ends there and does not give up. -/
theorem passes_converge {e : Expr} (wf : WellFormed e) :
    (∀ n, ∃ e', e.passTimes n = .ok e') ∧
    ∃ n e', e.passTimes n = .ok e' ∧ pass e' = .ok e' ∧
      ∀ allowed : Int, n < allowed →
        ∃ r, simplifyWithin allowed e = .ok r ∧ r.expr = e' ∧ NeverGivesUp r := by
  constructor
  · intro n
    obtain ⟨e', times, _⟩ := exists_passTimes (fun _ => exists_pass) wf n
    exact ⟨e', times⟩
  · obtain ⟨n, e', _, times, fixed⟩ := exists_passTimes_fixed wf
    refine ⟨n, e', times, fixed, ?_⟩
    intro allowed enough
    exact simplifyFrom_of_fixedPoint times fixed allowed 0 (by omega)

theorem passes_converge_of_difference :
    let e := node .sub [.var "a", node .div [.var "b", node .div [.var "a", .num ⟨7, some "007"⟩]]]
    WellFormed e ∧ (∀ n, ∃ e', e.passTimes n = .ok e') ∧
    ∃ n e', e.passTimes n = .ok e' ∧ pass e' = .ok e' ∧
      ∀ allowed : Int, n < allowed →
        ∃ r, simplifyWithin allowed e = .ok r ∧ r.expr = e' ∧ NeverGivesUp r := by
  intro e
  have wf : WellFormed e := by decide
  exact ⟨wf, passes_converge wf⟩

end ArithTree.Expr
