import ArithTree.Proofs.Simplify.Rewrites
import ArithTree.Simplify

/-!
# Runs of passes

What holds of every application that a rule makes holds everywhere in the result of a pass
(`exists_pass_everywhere`).

A simplification makes one pass after another. That it ends at a fixed point makes no difference to
the expression that is left: it is the one after as many passes as may be made
(`simplifiedWithin_eq_passTimes`). So what a pass keeps, any number of passes keep
(`exists_passTimes`), and so does a simplification (`exists_simplifyFrom`). A simplification that
may make more passes than it takes to reach a fixed point does not give up
(`simplifyFrom_of_fixedPoint`).
-/

namespace ArithTree.Expr

/-! ## One pass -/

theorem everywhere_collapse {P : Op → List Expr → Prop} {op : Op} {es : List Expr}
    (outside : P op es) (inside : ∀ e ∈ es, Everywhere P e) : Everywhere P (collapse op es) := by
  unfold collapse
  split
  · exact inside _ List.mem_cons_self
  · exact (everywhere_node P).2 ⟨outside, inside⟩

/-- What holds of every application that a rule makes, whatever the pass makes of its arguments,
holds everywhere in the result of the pass. -/
theorem exists_pass_everywhere {P : Op → List Expr → Prop}
    (made : ∀ {op args op' args' results}, WellFormed (.node op args) →
      Rewrites op args (.node op' args') → args'.length = results.length → P op' results)
    {e : Expr} (wf : WellFormed e) : ∃ e', pass e = .ok e' ∧ Everywhere P e' := by
  refine pass_related (R := fun _ e' => Everywhere P e') ?num ?var ?evaluated ?node wf
  case num =>
    intro n
    exact everywhere_num P n
  case var =>
    intro x
    exact everywhere_var P x
  case evaluated =>
    intro _ _ n _
    exact everywhere_num P n
  case node =>
    intro op args op' args' results wf rewrites related
    apply everywhere_collapse (made wf rewrites related.length_eq)
    intro e' he'
    obtain ⟨_, _, _, h⟩ := exists_of_mem_right related he'
    exact h

/-- A pass over a well-formed expression gives one. -/
theorem exists_pass {e : Expr} (wf : WellFormed e) : ∃ e', pass e = .ok e' ∧ WellFormed e' := by
  apply exists_pass_everywhere _ wf
  intro op args op' args' results wf rewrites same
  have wf' := rewrites.wellFormed (wellFormed_node.1 wf).2
  exact same ▸ (wellFormed_node.1 wf').1

/-- What is known of the result of a pass can be put together. -/
theorem exists_pass_and {e : Expr} {P Q : Expr → Prop} (hP : ∃ e', pass e = .ok e' ∧ P e')
    (hQ : ∃ e', pass e = .ok e' ∧ Q e') : ∃ e', pass e = .ok e' ∧ P e' ∧ Q e' := by
  obtain ⟨e', passed, p⟩ := hP
  obtain ⟨_, passed', q⟩ := hQ
  cases passed.symm.trans passed'
  exact ⟨e', passed, p, q⟩

/-! ## Many passes -/

/-- The expression after `n` passes. -/
def passTimes (e : Expr) : (n : Nat) → Except Fault Expr
  | 0 => .ok e
  | n + 1 => e.pass.bind fun next => next.passTimes n

theorem passTimes_succ {e next : Expr} (passed : pass e = .ok next) (n : Nat) :
    e.passTimes (n + 1) = next.passTimes n := by
  rw [passTimes, passed]
  rfl

theorem passTimes_add (e : Expr) (m n : Nat) :
    e.passTimes (m + n) = (e.passTimes m).bind fun x => x.passTimes n := by
  induction m generalizing e with
  | zero =>
    rw [Nat.zero_add]
    rfl
  | succ m ih =>
    rw [Nat.add_right_comm, passTimes, passTimes]
    cases pass e with
    | error fault => rfl
    | ok next => exact ih next

theorem passTimes_of_fixed {e : Expr} (fixed : pass e = .ok e) (n : Nat) :
    e.passTimes n = .ok e := by
  induction n with
  | zero => rfl
  | succ n ih => rw [passTimes_succ fixed, ih]

/-! ## The steps of a simplification -/

theorem simplifyFrom_of_fixed {e : Expr} (fixed : pass e = .ok e) (allowed : Int)
    (done left : Nat) :
    simplifyFrom allowed done e (left + 1) = .ok ⟨e, [.fixedPoint done e]⟩ := by
  rw [simplifyFrom, fixed]
  show (if e = e then _ else _) = _
  rw [if_pos rfl]
  rfl

theorem simplifyFrom_of_changed {e next : Expr} (passed : pass e = .ok next) (changed : next ≠ e)
    (allowed : Int) (done left : Nat) :
    simplifyFrom allowed done e (left + 1) = (simplifyFrom allowed (done + 1) next left).map
      fun r => ⟨r.expr, .pass (done + 1) next :: r.events⟩ := by
  rw [simplifyFrom, passed]
  show (if next = e then _ else _) = _
  rw [if_neg changed]
  cases simplifyFrom allowed (done + 1) next left <;> rfl

/-- The expression that is left is the one after all passes that may be made: those that are not
made at a fixed point would change nothing. -/
theorem map_expr_simplifyFrom (allowed : Int) (done : Nat) (e : Expr) (left : Nat) :
    (simplifyFrom allowed done e left).map (·.expr) = e.passTimes left := by
  induction left generalizing e done with
  | zero => rfl
  | succ left ih =>
    cases passed : pass e with
    | error fault =>
      rw [simplifyFrom, passTimes, passed]
      rfl
    | ok next =>
      by_cases changed : next = e
      · rw [changed] at passed
        rw [simplifyFrom_of_fixed passed, passTimes_of_fixed passed]
        rfl
      · rw [simplifyFrom_of_changed passed changed, passTimes_succ passed, ← ih (done + 1)]
        cases simplifyFrom allowed (done + 1) next left <;> rfl

theorem simplifyFrom_of_passTimes {e e' : Expr} {left : Nat} (times : e.passTimes left = .ok e')
    (allowed : Int) (done : Nat) :
    ∃ r, simplifyFrom allowed done e left = .ok r ∧ r.expr = e' := by
  have same := map_expr_simplifyFrom allowed done e left
  rw [times] at same
  cases steps : simplifyFrom allowed done e left with
  | error fault =>
    rw [steps] at same
    cases same
  | ok r =>
    rw [steps] at same
    exact ⟨r, rfl, Except.ok.inj same⟩

/-- The expression that is left when an expression is simplified by at most `allowed` passes. -/
def simplifiedWithin (allowed : Int) (e : Expr) : Except Fault Expr :=
  (simplifyWithin allowed e).map (·.expr)

theorem simplifiedWithin_eq_passTimes (allowed : Int) (e : Expr) :
    simplifiedWithin allowed e = e.passTimes allowed.toNat :=
  map_expr_simplifyFrom allowed 0 e allowed.toNat

theorem simplified_eq_passTimes (e : Expr) : simplified e = e.passTimes maxPasses :=
  simplifiedWithin_eq_passTimes (Int.ofNat maxPasses) e

section Invariant

variable {P : Expr → Prop} (step : ∀ e, P e → ∃ e', pass e = .ok e' ∧ P e')

include step

theorem exists_passTimes {e : Expr} (h : P e) (n : Nat) : ∃ e', e.passTimes n = .ok e' ∧ P e' := by
  induction n generalizing e with
  | zero => exact ⟨e, rfl, h⟩
  | succ n ih =>
    obtain ⟨next, passed, hnext⟩ := step e h
    obtain ⟨e', times, he'⟩ := ih hnext
    exact ⟨e', by rw [passTimes_succ passed, times], he'⟩

/-- What every pass keeps holds of the simplified expression, wherever the passes end. -/
theorem exists_simplifyFrom {e : Expr} (h : P e) (allowed : Int) (done left : Nat) :
    ∃ r, simplifyFrom allowed done e left = .ok r ∧ P r.expr := by
  obtain ⟨e', times, he'⟩ := exists_passTimes step h left
  obtain ⟨r, steps, rfl⟩ := simplifyFrom_of_passTimes times allowed done
  exact ⟨r, steps, he'⟩

theorem exists_simplifyWithin {e : Expr} (h : P e) (allowed : Int) :
    ∃ r, simplifyWithin allowed e = .ok r ∧ P r.expr :=
  exists_simplifyFrom step h allowed 0 allowed.toNat

theorem exists_simplify {e : Expr} (h : P e) : ∃ r, simplify e = .ok r ∧ P r.expr :=
  exists_simplifyWithin step h (Int.ofNat maxPasses)

end Invariant

/-- If `f` commutes with every pass, it commutes with any number of passes. -/
theorem exists_passTimes_map {f : Expr → Expr} (step : ∀ e, WellFormed e →
    ∃ e', pass e = .ok e' ∧ WellFormed e' ∧ pass (f e) = .ok (f e')) {e : Expr}
    (wf : WellFormed e) (n : Nat) :
    ∃ e', e.passTimes n = .ok e' ∧ (f e).passTimes n = .ok (f e') := by
  induction n generalizing e with
  | zero => exact ⟨e, rfl, rfl⟩
  | succ n ih =>
    obtain ⟨next, passed, wf', mapped⟩ := step e wf
    obtain ⟨e', times, times'⟩ := ih wf'
    exact ⟨e', by rw [passTimes_succ passed, times], by rw [passTimes_succ mapped, times']⟩

theorem simplified_of_simplify {e : Expr} {r : Simplified} (h : simplify e = .ok r) :
    simplified e = .ok r.expr := by
  rw [simplified, h]
  rfl

/-- If every pass lowers a measure, or keeps it and reaches a fixed point, then a fixed point is
reached after about as many passes as the measure says. -/
theorem exists_fixed_of_measure {P : Expr → Prop} (measure : Expr → Nat)
    (step : ∀ e, P e → ∃ e', pass e = .ok e' ∧ P e' ∧ measure e' ≤ measure e ∧
      (measure e' = measure e → pass e' = .ok e')) {e : Expr} (h : P e) :
    ∃ n e', n ≤ measure e + 1 ∧ e.passTimes n = .ok e' ∧ pass e' = .ok e' := by
  induction hm : measure e using Nat.strongRecOn generalizing e with
  | ind m ih =>
    obtain ⟨next, passed, hnext, lower, settled⟩ := step e h
    by_cases same : measure next = measure e
    · refine ⟨1, next, by omega, ?_, settled same⟩
      rw [passTimes_succ passed]
      rfl
    · obtain ⟨n, e', few, times, fixed⟩ := ih (measure next) (by omega) hnext rfl
      exact ⟨n + 1, e', by omega, by rw [passTimes_succ passed, times], fixed⟩

/-- No event of a simplification says that it gave up. -/
def NeverGivesUp (r : Simplified) : Prop :=
  ∀ allowed e, Event.gaveUp allowed e ∉ r.events

/-- More passes than it takes to reach a fixed point are enough for a simplification. -/
theorem simplifyFrom_of_fixedPoint {e e' : Expr} {n : Nat} (times : e.passTimes n = .ok e')
    (fixed : pass e' = .ok e') (allowed : Int) (done : Nat) {left : Nat} (enough : n < left) :
    ∃ r, simplifyFrom allowed done e left = .ok r ∧ r.expr = e' ∧ NeverGivesUp r := by
  induction left generalizing e n done with
  | zero => omega
  | succ left ih =>
    by_cases same : pass e = .ok e
    -- The expression is the fixed point itself, however many passes it is said to take.
    · rw [passTimes_of_fixed same] at times
      cases times
      refine ⟨_, simplifyFrom_of_fixed same allowed done left, rfl, ?_⟩
      intro _ _ hmem
      simp at hmem
    · cases n with
      | zero =>
        cases times
        exact absurd fixed same
      | succ n =>
        rw [passTimes] at times
        cases passed : pass e with
        | error fault =>
          rw [passed] at times
          cases times
        | ok next =>
          rw [passed] at times same
          have changed : next ≠ e := fun h => same (congrArg _ h)
          obtain ⟨r, steps, expr, settled⟩ := ih times (done + 1) (by omega)
          refine ⟨⟨r.expr, .pass (done + 1) next :: r.events⟩, ?_, expr, ?_⟩
          · rw [simplifyFrom_of_changed passed changed, steps]
            rfl
          · intro allowed e hmem
            rcases List.mem_cons.1 hmem with h | h
            · cases h
            · exact settled allowed e h

end ArithTree.Expr
