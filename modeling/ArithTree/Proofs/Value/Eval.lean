import ArithTree.Expr
import Mathlib.Algebra.BigOperators.Group.List.Basic
import Mathlib.Algebra.Field.Rat
import Mathlib.Data.List.Forall2
import Mathlib.Data.Rat.Cast.Defs

/-!
# Values of expressions

The value of an expression is a rational number, given one for every variable. Sums and products
have a value for any number of arguments. There is none for a quotient by zero, for a power with an
exponent that is not an integer, for a negative power of zero, and for an operator with a number of
arguments that it cannot have. An application has no value if one of its arguments has none.

`Refines e e'` says that `e'` has the value of `e` wherever `e` has one. It is a preorder, and an
application is refined by refining its arguments (`Refines.node`).
-/

namespace ArithTree

/-- The powers of a rational number. -/
def rationalPower? (base exponent : ℚ) : Option ℚ :=
  if exponent.den = 1 ∧ (0 ≤ exponent.num ∨ base ≠ 0) then some (base ^ exponent.num) else none

/-- The value of an operator on rational numbers. -/
def Op.rational? : Op → List ℚ → Option ℚ
  | .add, qs => some qs.sum
  | .mul, qs => some qs.prod
  | .sub, [a, b] => some (a - b)
  | .div, [a, b] => if b = 0 then none else some (a / b)
  | .pow, [a, b] => rationalPower? a b
  | _, _ => none

namespace Expr

section Eval

variable (env : String → ℚ)

mutual

/-- The value of an expression. -/
def eval : Expr → Option ℚ
  | .num n => some n.value
  | .var x => some (env x)
  | .node op args => (evalAll args).bind op.rational?

/-- The values of all expressions of a list. -/
def evalAll : List Expr → Option (List ℚ)
  | [] => some []
  | e :: es => (eval e).bind fun q => (evalAll es).map (q :: ·)

end

@[simp] theorem eval_num (n : Numeral) : eval env (.num n) = some (n.value : ℚ) := by rw [eval]

@[simp] theorem eval_ofInt (n : Int) : eval env (ofInt n) = some (n : ℚ) := eval_num env _

@[simp] theorem eval_var (x : String) : eval env (.var x) = some (env x) := by rw [eval]

theorem evalAll_eq_some_iff {es : List Expr} {qs : List ℚ} :
    evalAll env es = some qs ↔ List.Forall₂ (fun e q => eval env e = some q) es qs := by
  induction es generalizing qs with
  | nil => simp [evalAll, eq_comm]
  | cons e es ih =>
    rw [evalAll, List.forall₂_cons_left_iff]
    simp only [Option.bind_eq_some_iff, Option.map_eq_some_iff, ih]
    constructor
    · rintro ⟨q, hq, qs, hqs, rfl⟩
      exact ⟨q, qs, hq, hqs, rfl⟩
    · rintro ⟨q, qs, hq, hqs, rfl⟩
      exact ⟨q, hq, qs, hqs, rfl⟩

variable {env}

theorem eval_node_iff {op : Op} {args : List Expr} {q : ℚ} :
    eval env (.node op args) = some q ↔
      ∃ qs, List.Forall₂ (fun e q => eval env e = some q) args qs ∧ op.rational? qs = some q := by
  rw [eval, Option.bind_eq_some_iff]
  simp only [evalAll_eq_some_iff]

theorem eval_pair_iff {op : Op} {left right : Expr} {q : ℚ} :
    eval env (.node op [left, right]) = some q ↔
      ∃ a b, eval env left = some a ∧ eval env right = some b ∧ op.rational? [a, b] = some q := by
  rw [eval_node_iff]
  constructor
  · rintro ⟨qs, hqs, hq⟩
    simp only [List.forall₂_cons_left_iff, List.forall₂_nil_left_iff] at hqs
    obtain ⟨a, _, ha, ⟨b, _, hb, rfl, rfl⟩, rfl⟩ := hqs
    exact ⟨a, b, ha, hb, hq⟩
  · rintro ⟨a, b, ha, hb, hq⟩
    exact ⟨_, .cons ha (.cons hb .nil), hq⟩

theorem eval_sub_iff {left right : Expr} {q : ℚ} :
    eval env (.node .sub [left, right]) = some q ↔
      ∃ a b, eval env left = some a ∧ eval env right = some b ∧ a - b = q := by
  simp only [eval_pair_iff, Op.rational?, Option.some.injEq]

theorem eval_div_iff {left right : Expr} {q : ℚ} :
    eval env (.node .div [left, right]) = some q ↔
      ∃ a b, eval env left = some a ∧ eval env right = some b ∧ b ≠ 0 ∧ a / b = q := by
  simp only [eval_pair_iff, Op.rational?, Option.ite_none_left_eq_some, Option.some.injEq, ne_eq]

variable (env) in
/-- The value of a quotient of numerals. -/
theorem eval_div_num (a : Numeral) {b : Numeral} (nonzero : b.value ≠ 0) :
    eval env (.node .div [.num a, .num b]) = some (a.value / b.value : ℚ) :=
  eval_div_iff.2 ⟨_, _, eval_num env a, eval_num env b, Int.cast_ne_zero.2 nonzero, rfl⟩

theorem eval_pow_iff {left right : Expr} {q : ℚ} :
    eval env (.node .pow [left, right]) = some q ↔
      ∃ a b, eval env left = some a ∧ eval env right = some b ∧ rationalPower? a b = some q := by
  simp only [eval_pair_iff, Op.rational?]

/-- A power with a natural exponent always has a value. -/
theorem rationalPower?_natCast (a : ℚ) (n : ℕ) : rationalPower? a n = some (a ^ n) := by
  simp [rationalPower?]

end Eval

/-! ## Refinement -/

/-- `e'` has the value of `e` wherever `e` has one. -/
def Refines (e e' : Expr) : Prop :=
  ∀ (env : String → ℚ) (q : ℚ), eval env e = some q → eval env e' = some q

theorem Refines.refl (e : Expr) : Refines e e := fun _ _ h => h

theorem Refines.trans {a b c : Expr} (hab : Refines a b) (hbc : Refines b c) : Refines a c :=
  fun env q h => hbc env q (hab env q h)

theorem Refines.evalAll {env : String → ℚ} {es es' : List Expr} {qs : List ℚ}
    (h : List.Forall₂ Refines es es') (hqs : List.Forall₂ (fun e q => eval env e = some q) es qs) :
    List.Forall₂ (fun e q => eval env e = some q) es' qs := by
  induction h generalizing qs with
  | nil => exact hqs
  | cons first _ ih =>
    cases hqs with
    | cons he hes => exact .cons (first env _ he) (ih hes)

/-- Arguments may be refined. -/
theorem Refines.node (op : Op) {args args' : List Expr} (h : List.Forall₂ Refines args args') :
    Refines (.node op args) (.node op args') := by
  intro env q hq
  obtain ⟨qs, hqs, hq⟩ := eval_node_iff.1 hq
  exact eval_node_iff.2 ⟨qs, Refines.evalAll h hqs, hq⟩

end Expr

end ArithTree
