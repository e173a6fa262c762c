import ArithTree.Log
import ArithTree.Proofs.Simplify.Iteration
import Mathlib.Data.Nat.Find
import Mathlib.Order.Bounds.Basic

/-!
# When a simplification stops

The expressions after each number of passes make up a trail (`Trail`). A simplification goes along
it, and reports every pass, for as long as passes change something (`Trail.simplifyFrom_add`). It
ends in one of two ways. It reports the first fixed point only if it may make one more pass than it
takes to get there (`Trail.simplifyWithin_of_fixed`). Otherwise it makes all passes that it may
make, and gives up even if the last one has led to a fixed point (`Trail.simplifyWithin_of_moving`).

Main statement: `simplifyWithin_stops`.
-/

namespace ArithTree.Expr

/-! ## Trails -/

/-- `x` gives the expression after each number of passes over `e`. -/
def Trail (e : Expr) (x : Nat → Expr) : Prop := ∀ n, e.passTimes n = .ok (x n)

theorem exists_trail {e : Expr} (wf : WellFormed e) : ∃ x, Trail e x := by
  have times (n : Nat) : ∃ e', e.passTimes n = .ok e' := by
    obtain ⟨e', times, _⟩ := exists_passTimes (fun _ => exists_pass) wf n
    exact ⟨e', times⟩
  choose x trail using times
  exact ⟨x, trail⟩

/-- A pass over the `n`-th expression of a trail would leave it as it is. -/
def Rests (x : Nat → Expr) (n : Nat) : Prop := pass (x n) = .ok (x n)

theorem exists_isLeast_rests {x : Nat → Expr} {n : Nat} (rests : Rests x n) :
    ∃ N, IsLeast {n | Rests x n} N := by
  classical
  have some : ∃ n, Rests x n := ⟨n, rests⟩
  exact ⟨Nat.find some, Nat.find_spec some, fun _ h => Nat.find_min' some h⟩

/-- The reports of `n` passes along a trail when `done` have been made before. -/
def passEvents (x : Nat → Expr) (done n : Nat) : List Event :=
  (List.range' (done + 1) n).map fun number => .pass number (x number)

theorem passEvents_succ (x : Nat → Expr) (done n : Nat) :
    passEvents x done (n + 1) = .pass (done + 1) (x (done + 1)) :: passEvents x (done + 1) n := rfl

/-! ## Records -/

/-- A record of the simplifier: some words and the prefix form of an expression. There is no message
if the expression cannot be printed. -/
def recordOf (level : Level) (words : String) (e : Expr) : Record :=
  ⟨.simplifier, level, e.print?.map (words ++ ·)⟩

/-- The records of the first `n` passes along a trail. -/
def passRecords (x : Nat → Expr) (n : Nat) : List Record :=
  (List.range' 1 n).map fun number =>
    recordOf .debug ("pass " ++ toString number ++ ": ") (x number)

/-- Integers are logged in decimal. -/
theorem decimal_eq (n : Int) : Event.message?.decimal n = toString n := by
  cases n with
  | ofNat m =>
    show String.ofList (Nat.toDigits 10 m) = toString m
    rw [Nat.toString_eq_ofList_toDigits]
  | negSucc m =>
    have digits : Decimal.digits (.negSucc m) = ['-'] ++ Nat.toDigits 10 (m + 1) :=
      if_pos (Int.negSucc_lt_zero m)
    show String.ofList (Decimal.digits (.negSucc m)) = "-" ++ Nat.repr (m + 1)
    rw [digits, String.ofList_append, Nat.repr_eq_ofList_toDigits]

theorem record_pass (number : Nat) (e : Expr) :
    (Event.pass number e).record = recordOf .debug ("pass " ++ toString number ++ ": ") e := by
  simp only [Event.record, Event.level, Event.message?, recordOf, decimal_eq]
  rfl

theorem record_fixedPoint (passes : Nat) (e : Expr) :
    (Event.fixedPoint passes e).record =
      recordOf .debug ("fixed point after " ++ toString passes ++ " passes: ") e := by
  simp only [Event.record, Event.level, Event.message?, recordOf, decimal_eq]
  rfl

theorem record_gaveUp (allowed : Int) (e : Expr) :
    (Event.gaveUp allowed e).record = recordOf .warning
      ("no fixed point after " ++ toString allowed ++ " passes, giving up: ") e := by
  simp only [Event.record, Event.level, Event.message?, recordOf, decimal_eq]

/-- A record of each pass is followed by the record of how the simplification ended. -/
theorem log_passEvents (x : Nat → Expr) (n : Nat) (last : Event) (e : Expr) :
    (Simplified.mk e (passEvents x 0 n ++ [last])).log = passRecords x n ++ [last.record] := by
  simp [Simplified.log, passEvents, passRecords, record_pass]

/-- A simplification gives up if and only if it logs a warning. -/
theorem neverGivesUp_iff {r : Simplified} :
    NeverGivesUp r ↔ ∀ record ∈ r.log, record.level = .debug := by
  rw [Simplified.log, List.forall_mem_map]
  constructor
  · intro settled event hevent
    cases event with
    | pass | fixedPoint => rfl
    | gaveUp allowed e => exact absurd hevent (settled allowed e)
  · intro quiet allowed e hevent
    cases quiet _ hevent

/-! ## Along a trail -/

section Trail

variable {e : Expr} {x : Nat → Expr} (trail : Trail e x)

include trail

theorem Trail.start : x 0 = e := (Except.ok.inj (trail 0)).symm

theorem Trail.pass_eq (n : Nat) : pass (x n) = .ok (x (n + 1)) := by
  have next := trail (n + 1)
  rw [passTimes_add, trail n] at next
  change (pass (x n)).bind .ok = _ at next
  cases passed : pass (x n) with
  | error fault =>
    rw [passed] at next
    cases next
  | ok e' =>
    rw [passed] at next
    exact next

theorem Trail.changed {n : Nat} (moving : ¬ Rests x n) : x (n + 1) ≠ x n := by
  intro same
  apply moving
  rw [Rests, trail.pass_eq n, same]

/-- As long as passes change something, they are made and reported one after another. -/
theorem Trail.simplifyFrom_add (allowed : Int) (done n left : Nat)
    (moving : ∀ k, done ≤ k → k < done + n → ¬ Rests x k) :
    simplifyFrom allowed done (x done) (n + left) =
      (simplifyFrom allowed (done + n) (x (done + n)) left).map
        fun r => ⟨r.expr, passEvents x done n ++ r.events⟩ := by
  induction n generalizing done with
  | zero =>
    rw [Nat.zero_add, Nat.add_zero]
    cases simplifyFrom allowed done (x done) left <;> rfl
  | succ n ih =>
    have changed := trail.changed (moving done (Nat.le_refl _) (by omega))
    have rest := ih (done + 1) fun k _ _ => moving k (by omega) (by omega)
    rw [Nat.add_right_comm n 1 left, simplifyFrom_of_changed (trail.pass_eq done) changed, rest,
      Nat.add_right_comm done 1 n, passEvents_succ]
    cases simplifyFrom allowed (done + n + 1) (x (done + n + 1)) left <;> rfl

theorem Trail.simplifyWithin_of_fixed {N : Nat} (least : IsLeast {n | Rests x n} N) {m : Int}
    (enough : N < m) :
    simplifyWithin m e = .ok ⟨x N, passEvents x 0 N ++ [.fixedPoint N (x N)]⟩ := by
  have moving : ∀ k, 0 ≤ k → k < 0 + N → ¬ Rests x k := by
    intro k _ before rests
    have := least.2 rests
    omega
  obtain ⟨left, hleft⟩ : ∃ left, m.toNat = N + (left + 1) := ⟨m.toNat - N - 1, by omega⟩
  have steps := trail.simplifyFrom_add m 0 N (left + 1) moving
  rw [Nat.zero_add, simplifyFrom_of_fixed least.1, trail.start] at steps
  rw [simplifyWithin, hleft, steps]
  rfl

theorem Trail.simplifyWithin_of_moving {m : Int} (moving : ∀ n : Nat, n < m → ¬ Rests x n) :
    simplifyWithin m e =
      .ok ⟨x m.toNat, passEvents x 0 m.toNat ++ [.gaveUp m (x m.toNat)]⟩ := by
  have steps := trail.simplifyFrom_add m 0 m.toNat 0 fun k _ _ => moving k (by omega)
  rw [Nat.zero_add, trail.start] at steps
  rw [simplifyWithin]
  exact steps

/-- A simplification that does not reach the first fixed point in time gives up. -/
theorem Trail.simplifyWithin_of_late {m : Int}
    (late : ¬ ∃ N : Nat, IsLeast {n | Rests x n} N ∧ N < m) :
    simplifyWithin m e =
      .ok ⟨x m.toNat, passEvents x 0 m.toNat ++ [.gaveUp m (x m.toNat)]⟩ := by
  apply trail.simplifyWithin_of_moving
  intro n hn rests
  obtain ⟨N, least⟩ := exists_isLeast_rests rests
  have := least.2 rests
  exact late ⟨N, least, by omega⟩

/-- If a simplification does not give up, it may as well make more passes. -/
theorem Trail.simplifyWithin_of_le {m m' : Int} {r : Simplified} (h : simplifyWithin m e = .ok r)
    (settled : NeverGivesUp r) (more : m ≤ m') : simplifyWithin m' e = .ok r := by
  by_cases reached : ∃ N : Nat, IsLeast {n | Rests x n} N ∧ N < m
  · obtain ⟨N, least, enough⟩ := reached
    rw [trail.simplifyWithin_of_fixed least enough] at h
    rw [trail.simplifyWithin_of_fixed least (by omega), h]
  · rw [trail.simplifyWithin_of_late reached] at h
    cases h
    exact absurd (List.mem_append_right _ List.mem_cons_self) (settled m (x m.toNat))

end Trail

/-- Simplifying twice is simplifying once, with as many passes as both times together. -/
theorem simplifiedWithin_add (e : Expr) {m₁ m₂ : Int} (h₁ : 0 ≤ m₁) (h₂ : 0 ≤ m₂) :
    (simplifiedWithin m₁ e).bind (simplifiedWithin m₂) = simplifiedWithin (m₁ + m₂) e := by
  rw [simplifiedWithin_eq_passTimes, simplifiedWithin_eq_passTimes, Int.toNat_add h₁ h₂,
    passTimes_add]
  congr 1
  funext x
  exact simplifiedWithin_eq_passTimes m₂ x

/-- A simplification goes along the trail of an expression. If it may make more passes than it takes
to reach the first fixed point, it makes these, and logs each of them and then the fixed point. If
not, it makes all passes that it may make, logs them and then warns that it gave up. So simplifying
twice is simplifying once, with as many passes as both times together, and a simplification that
does not give up may as well make more passes. -/
theorem simplifyWithin_stops {e : Expr} (wf : WellFormed e) :
    ∃ x, Trail e x ∧
      (∀ (m : Int) (N : Nat), IsLeast {n | Rests x n} N → N < m →
        ∃ r, simplifyWithin m e = .ok r ∧ r.expr = x N ∧
          r.events = passEvents x 0 N ++ [.fixedPoint N (x N)] ∧
          r.log = passRecords x N ++
            [recordOf .debug ("fixed point after " ++ toString N ++ " passes: ") (x N)]) ∧
      (∀ m : Int, (¬ ∃ N : Nat, IsLeast {n | Rests x n} N ∧ N < m) →
        ∃ r, simplifyWithin m e = .ok r ∧ r.expr = x m.toNat ∧
          r.events = passEvents x 0 m.toNat ++ [.gaveUp m (x m.toNat)] ∧
          r.log = passRecords x m.toNat ++
            [recordOf .warning ("no fixed point after " ++ toString m ++ " passes, giving up: ")
              (x m.toNat)]) ∧
      (∀ m₁ m₂, 0 ≤ m₁ → 0 ≤ m₂ →
        (simplifiedWithin m₁ e).bind (simplifiedWithin m₂) = simplifiedWithin (m₁ + m₂) e) ∧
      ∀ m m' r, simplifyWithin m e = .ok r → NeverGivesUp r → m ≤ m' →
        simplifyWithin m' e = .ok r := by
  obtain ⟨x, trail⟩ := exists_trail wf
  refine ⟨x, trail, ?fixed, ?late, ?twice, ?more⟩
  case fixed =>
    intro m N least enough
    refine ⟨_, trail.simplifyWithin_of_fixed least enough, rfl, rfl, ?_⟩
    rw [log_passEvents, record_fixedPoint]
  case late =>
    intro m late
    refine ⟨_, trail.simplifyWithin_of_late late, rfl, rfl, ?_⟩
    rw [log_passEvents, record_gaveUp]
  case twice =>
    intro m₁ m₂ h₁ h₂
    exact simplifiedWithin_add e h₁ h₂
  case more =>
    intro m m' r h settled more
    exact trail.simplifyWithin_of_le h settled more

/-- Two passes lead to a fixed point, but only a simplification that may make three says so. -/
theorem simplifyWithin_stops_of_product :
    let e := node .mul [ofInt 2, node .add [ofInt 5, ofInt 1]]
    let passes : List Record := [⟨.simplifier, .debug, some "pass 1: (* 2 6)"⟩,
      ⟨.simplifier, .debug, some "pass 2: 12"⟩]
    WellFormed e ∧
    (∃ r, simplifyWithin 2 e = .ok r ∧ r.expr = ofInt 12 ∧ r.log = passes ++
      [⟨.simplifier, .warning, some "no fixed point after 2 passes, giving up: 12"⟩]) ∧
    ∃ r, simplifyWithin 3 e = .ok r ∧ r.expr = ofInt 12 ∧ r.log = passes ++
      [⟨.simplifier, .debug, some "fixed point after 2 passes: 12"⟩] := by
  intro e passes
  have wf : WellFormed e := by decide
  obtain ⟨x, trail, fixed, late, _⟩ := simplifyWithin_stops wf
  have first : x 0 = e := Except.ok.inj ((trail 0).symm.trans (by decide +kernel))
  have second : x 1 = node .mul [ofInt 2, ofInt 6] :=
    Except.ok.inj ((trail 1).symm.trans (by decide +kernel))
  have third : x 2 = ofInt 12 := Except.ok.inj ((trail 2).symm.trans (by decide +kernel))
  have least : IsLeast {n | Rests x n} 2 := by
    refine ⟨?_, ?_⟩
    · show pass (x 2) = .ok (x 2)
      rw [third]
      exact pass_num _
    · intro n rests
      by_contra early
      have same : x (n + 1) = x n := Except.ok.inj ((trail.pass_eq n).symm.trans rests)
      have earlier : n = 0 ∨ n = 1 := by omega
      rcases earlier with rfl | rfl
      · rw [second, first] at same
        exact absurd same (by decide)
      · rw [third, second] at same
        exact absurd same (by decide)
  have records : passRecords x 2 = passes := by
    show [recordOf _ _ (x 1), recordOf _ _ (x 2)] = _
    rw [second, third]
    decide +kernel
  refine ⟨wf, ?_, ?_⟩
  · have notBefore : ¬ ∃ N : Nat, IsLeast {n | Rests x n} N ∧ (N : Int) < 2 := by
      rintro ⟨N, least', enough⟩
      have := least.unique least'
      omega
    obtain ⟨r, steps, expr, _, log⟩ := late 2 notBefore
    refine ⟨r, steps, expr.trans third, log.trans ?_⟩
    show passRecords x 2 ++ [recordOf _ _ (x 2)] = _
    rw [records, third]
    decide +kernel
  · obtain ⟨r, steps, expr, _, log⟩ := fixed 3 2 least (by omega)
    refine ⟨r, steps, expr.trans third, log.trans ?_⟩
    rw [records, third]
    decide +kernel

end ArithTree.Expr
