import ArithTree.Proofs.Simplify.Cost
import ArithTree.Proofs.Simplify.Leaves
import ArithTree.Proofs.Simplify.Several
import ArithTree.Proofs.Simplify.Stopping

/-!
# Simplifying twice

A simplification gives up after `maxPasses` passes. If it does not, it ends at a fixed point, which
is not changed when it is simplified again; in fact, nothing but fixed points is left as it is
(`simplified_eq_self_iff`). No expression of low cost gives up (`neverGivesUp_of_cost`), so none in
which operands and quotients are few: each of the operators costs at most as much as there are
quotients, and a few more (`cost_add_le`).

Main statement: `simplify_twice`.
-/

namespace ArithTree.Expr

/-! ## Fixed points -/

/-- A fixed point is reached after `n` passes. -/
def FixedAfter (e : Expr) (n : Nat) : Prop := ∃ e', e.passTimes n = .ok e' ∧ pass e' = .ok e'

theorem fixedAfter_zero {e : Expr} : e.FixedAfter 0 ↔ pass e = .ok e := by
  constructor
  · rintro ⟨_, ⟨⟩, fixed⟩
    exact fixed
  · intro fixed
    exact ⟨e, rfl, fixed⟩

theorem fixedAfter_succ {e next : Expr} (passed : pass e = .ok next) (n : Nat) :
    e.FixedAfter (n + 1) ↔ next.FixedAfter n := by
  unfold FixedAfter
  rw [passTimes, passed]
  rfl

/-- If no number of passes that may be made reaches a fixed point, all of them are made. -/
theorem simplify_of_never_fixed {e : Expr} (wf : WellFormed e)
    (never : ∀ n < maxPasses, ¬ e.FixedAfter n) :
    ∃ r, simplify e = .ok r ∧ e.passTimes maxPasses = .ok r.expr ∧
      .gaveUp (Int.ofNat maxPasses) r.expr ∈ r.events := by
  obtain ⟨x, trail⟩ := exists_trail wf
  have moving : ∀ n : Nat, (n : Int) < Int.ofNat maxPasses → ¬ Rests x n := by
    intro n hn rests
    exact never n (Int.ofNat_lt.1 hn) ⟨x n, trail n, rests⟩
  exact ⟨_, trail.simplifyWithin_of_moving moving, trail maxPasses,
    List.mem_append_right _ List.mem_cons_self⟩

/-- A simplification that does not give up ends at a fixed point. -/
theorem fixed_of_neverGivesUp {e : Expr} {r : Simplified} {allowed : Int} {done left : Nat}
    (h : simplifyFrom allowed done e left = .ok r) (settled : NeverGivesUp r) :
    pass r.expr = .ok r.expr := by
  induction left generalizing e done r with
  | zero =>
    cases h
    exact absurd List.mem_cons_self (settled allowed e)
  | succ left ih =>
    rw [simplifyFrom] at h
    obtain ⟨next, passed, h⟩ := ok_of_bind h
    split at h
    · next same =>
      cases h
      rw [passed, same]
    · obtain ⟨r', simplified, h⟩ := ok_of_bind h
      cases h
      show pass r'.expr = .ok r'.expr
      exact ih simplified fun allowed x hx => settled allowed x (List.mem_cons_of_mem _ hx)

theorem simplified_of_fixed {e : Expr} (fixed : pass e = .ok e) : simplified e = .ok e := by
  rw [simplified_eq_passTimes, passTimes_of_fixed fixed]

/-- What can follow a pass that changes `e` to `next`: expressions of lower potential, or `next`
alone if it is a fixed point. -/
def Beyond (e next x : Expr) : Prop :=
  WellFormed x ∧ (x.potential < e.potential ∨ x = next ∧ pass next = .ok next)

theorem exists_pass_beyond {e next x : Expr} (h : Beyond e next x) :
    ∃ x', pass x = .ok x' ∧ Beyond e next x' := by
  obtain ⟨wf, lower | ⟨rfl, fixed⟩⟩ := h
  · obtain ⟨x', passed, wf', lower', _⟩ := exists_pass_and (exists_pass wf)
      (exists_pass_potential wf)
    exact ⟨x', passed, wf', .inl (Nat.lt_of_le_of_lt lower' lower)⟩
  · exact ⟨x, fixed, wf, .inr ⟨rfl, fixed⟩⟩

/-- A simplification leaves nothing but fixed points as they are. -/
theorem simplified_eq_self_iff {e : Expr} (wf : WellFormed e) :
    simplified e = .ok e ↔ pass e = .ok e := by
  refine ⟨?_, simplified_of_fixed⟩
  intro same
  obtain ⟨next, passed, wf', lower, settled⟩ := exists_pass_and (exists_pass wf)
    (exists_pass_potential wf)
  by_contra moving
  have changed : next ≠ e := by
    rintro rfl
    exact moving passed
  have beyond : Beyond e next next := by
    by_cases same : next.potential = e.potential
    · exact ⟨wf', .inr ⟨rfl, pass_of_stable (settled same).1⟩⟩
    · exact ⟨wf', .inl (by omega)⟩
  obtain ⟨left, hleft⟩ : ∃ left, maxPasses = left + 1 := ⟨999, rfl⟩
  obtain ⟨x, times, _, h⟩ := exists_passTimes (fun _ => exists_pass_beyond) beyond left
  rw [simplified_eq_passTimes, hleft, passTimes_succ passed, times] at same
  cases same
  rcases h with lower | ⟨rfl, _⟩
  · exact Nat.lt_irrefl _ lower
  · exact changed rfl

/-! ## Few passes -/

/-- Every application has two arguments. -/
abbrev Binary : Expr → Prop := Everywhere fun _ args => args.length = 2

theorem binary_pair {op : Op} {left right : Expr} :
    Binary (.node op [left, right]) ↔ Binary left ∧ Binary right := by
  simp [everywhere_node]

/-- Induction on expressions that are read: leaves, and applications to two arguments. -/
theorem Binary.induction {motive : (e : Expr) → Binary e → Prop}
    (num : ∀ n, motive (.num n) (everywhere_num _ n))
    (var : ∀ x, motive (.var x) (everywhere_var _ x))
    (pair : ∀ op left right (hleft : Binary left) (hright : Binary right), motive left hleft →
      motive right hright → motive (.node op [left, right]) (binary_pair.2 ⟨hleft, hright⟩))
    {e : Expr} (h : Binary e) : motive e h := by
  induction e using Expr.induction with
  | num n => exact num n
  | var x => exact var x
  | node op args ih =>
    obtain ⟨left, right, rfl⟩ := List.length_eq_two.1 ((everywhere_node _).1 h).1
    obtain ⟨hleft, hright⟩ := binary_pair.1 h
    exact pair op left right hleft hright (ih left (by simp) hleft) (ih right (by simp) hright)

theorem binary_of_parse {s : String} {e : Expr} (h : parse s = .ok e) : Binary e :=
  everywhere_of_parse (fun _ _ _ => rfl) h

/-- The number of operands in an expression. -/
def operands (e : Expr) : Nat := e.leaves.length

theorem operands_pair (op : Op) (left right : Expr) :
    (Expr.node op [left, right]).operands = left.operands + right.operands := by
  simp [operands]

/-- Every operator costs at most as much as there can be quotients, and 4 more, and there is one
operator less than operands. -/
theorem cost_add_le {limit : Nat} {e : Expr} (binary : Binary e) (few : e.quotients ≤ limit) :
    cost limit e + (limit + 4) ≤ e.operands * (limit + 7) := by
  induction binary using Binary.induction with
  | num n =>
    simp [operands]
    omega
  | var x =>
    simp [operands]
    omega
  | pair op left right _ _ ihl ihr =>
    simp only [quotients_node, quotientsAll_cons, quotientsAll_nil] at few
    have hleft := ihl (by omega)
    have hright := ihr (by omega)
    have operator : cost limit (.node op [left, right]) ≤
        cost limit left + cost limit right + (limit + 4) := by
      rw [cost_node]
      cases op <;> simp [Op.cost] <;> omega
    rw [operands_pair, Nat.add_mul]
    omega

/-- A fixed point is reached after about as many passes as the cost says. -/
theorem exists_fixedAfter_cost {limit : Nat} {e : Expr} (wf : WellFormed e)
    (few : e.quotients ≤ limit) : ∃ n ≤ cost limit e + 1, e.FixedAfter n := by
  have step : ∀ x, WellFormed x ∧ x.quotients ≤ limit →
      ∃ x', pass x = .ok x' ∧ (WellFormed x' ∧ x'.quotients ≤ limit) ∧
        cost limit x' ≤ cost limit x ∧
          (cost limit x' = cost limit x → pass x' = .ok x') := by
    rintro x ⟨wf, few⟩
    obtain ⟨x', passed, wf', ⟨fewer, lower, kept⟩, _, settled⟩ := exists_pass_and (exists_pass wf)
      (exists_pass_and (exists_pass_cost limit wf few) (exists_pass_potential wf))
    exact ⟨x', passed, ⟨wf', Nat.le_trans fewer few⟩, lower,
      fun same => pass_of_stable (settled (kept same)).1⟩
  obtain ⟨n, e', few, times, fixed⟩ := exists_fixed_of_measure (cost limit) step ⟨wf, few⟩
  exact ⟨n, few, e', times, fixed⟩

/-- Few operands and quotients cost little. -/
theorem cost_lt_of_few {e : Expr} (binary : Binary e)
    (few : e.operands * (e.quotients + 7) ≤ maxPasses) : cost e.quotients e + 1 < maxPasses := by
  have bound := cost_add_le binary (Nat.le_refl e.quotients)
  omega

/-- A simplification does not give up on an expression of low cost. -/
theorem neverGivesUp_of_cost {limit : Nat} {e : Expr} {r : Simplified} (wf : WellFormed e)
    (few : e.quotients ≤ limit) (cheap : cost limit e + 1 < maxPasses) (h : simplify e = .ok r) :
    NeverGivesUp r := by
  obtain ⟨n, hn, e', times, fixed⟩ := exists_fixedAfter_cost wf few
  have enough : n < maxPasses := by omega
  obtain ⟨r', steps, _, settled⟩ := simplifyFrom_of_fixedPoint times fixed (Int.ofNat maxPasses) 0
    enough
  cases h.symm.trans steps
  exact settled

/-- Simplifying what is read. If a fixed point is reached before `maxPasses` passes, the result is
one, it is left as it is when it is simplified again, and the simplification does not give up, so
that no warning is logged. Otherwise, it gives up after `maxPasses` passes, and warns of it. A fixed
point is reached in time if the cost is low, and so if there are few operands and quotients. -/
theorem simplify_twice {s : String} {e : Expr} (h : parse s = .ok e) :
    (cost e.quotients e + 1 < maxPasses → ∃ n < maxPasses, e.FixedAfter n) ∧
    (e.operands * (e.quotients + 7) ≤ maxPasses → cost e.quotients e + 1 < maxPasses) ∧
    ∃ r, simplify e = .ok r ∧
      ((∃ n < maxPasses, e.FixedAfter n) →
        pass r.expr = .ok r.expr ∧ simplified r.expr = .ok r.expr ∧ NeverGivesUp r ∧
          ∀ record ∈ r.log, record.level = .debug) ∧
      ((∀ n < maxPasses, ¬ e.FixedAfter n) →
        e.passTimes maxPasses = .ok r.expr ∧
          .gaveUp (Int.ofNat maxPasses) r.expr ∈ r.events ∧
          recordOf .warning "no fixed point after 1000 passes, giving up: " r.expr ∈ r.log) := by
  have wf := wellFormed_of_parse h
  refine ⟨?_, cost_lt_of_few (binary_of_parse h), ?_⟩
  · intro cheap
    obtain ⟨n, hn, fixed⟩ := exists_fixedAfter_cost wf (Nat.le_refl e.quotients)
    exact ⟨n, by omega, fixed⟩
  · by_cases reached : ∃ n < maxPasses, e.FixedAfter n
    · obtain ⟨n, hn, e', times, fixed⟩ := reached
      obtain ⟨r, steps, rfl, settled⟩ := simplifyFrom_of_fixedPoint times fixed
        (Int.ofNat maxPasses) 0 hn
      refine ⟨r, steps, fun _ => ?_, ?_⟩
      · exact ⟨fixed, simplified_of_fixed fixed, settled, neverGivesUp_iff.1 settled⟩
      · intro never
        exact absurd ⟨_, times, fixed⟩ (never n hn)
    · push Not at reached
      obtain ⟨r, steps, times, event⟩ := simplify_of_never_fixed wf reached
      have warned := List.mem_map_of_mem (f := Event.record) event
      rw [record_gaveUp] at warned
      refine ⟨r, steps, ?_, fun _ => ⟨times, event, warned⟩⟩
      rintro ⟨n, hn, fixed⟩
      exact absurd fixed (reached n hn)

theorem simplify_twice_of_quotients :
    let s := "a - b / ( a / 007 )"
    let e := node .sub [.var "a", node .div [.var "b", node .div [.var "a", .num ⟨7, some "007"⟩]]]
    parse s = .ok e ∧ cost e.quotients e + 1 < maxPasses ∧
      ∃ r, simplify e = .ok r ∧ pass r.expr = .ok r.expr ∧ simplified r.expr = .ok r.expr ∧
        NeverGivesUp r ∧ ∀ record ∈ r.log, record.level = .debug := by
  intro s e
  have hparse : parse s = .ok e := by decide +kernel
  have cheap : cost e.quotients e + 1 < maxPasses := by decide +kernel
  obtain ⟨inTime, _, r, steps, settled, _⟩ := simplify_twice hparse
  exact ⟨hparse, cheap, r, steps, settled (inTime cheap)⟩

end ArithTree.Expr
