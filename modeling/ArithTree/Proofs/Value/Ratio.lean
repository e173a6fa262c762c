import ArithTree.Proofs.Simplify.WellFormed
import ArithTree.Proofs.Value.Eval
import Mathlib.Algebra.Group.Basic
import Mathlib.Algebra.BigOperators.Group.List.Lemmas
import Mathlib.Algebra.Order.Field.Rat

/-!
# Ratios

A ratio is a rational number, or infinite, as `1 / 0` is, or undefined, as `0 / 0` is.
Multiplication and division are total on ratios and follow the usual laws, with the exception that a
ratio need not cancel (`Ratio` is a `DivisionCommMonoid`).

`Expr.ratio` gives every expression a ratio. Products and quotients are those of ratios, while all
other operators need rational numbers. So an expression that has a value has it as its ratio
(`ratio_of_eval`). The converse fails only for quotients that divide by zero inside the divisor of
another quotient: `1 / (2 / 0)` has the ratio 0 and no value (`eval_of_ratio`).
-/

namespace ArithTree

/-- A rational number, infinity, or neither. -/
inductive Ratio where
  | finite (q : ℚ)
  | infinite
  | undefined

namespace Ratio

def mul : Ratio → Ratio → Ratio
  | .finite a, .finite b => .finite (a * b)
  | .finite a, .infinite | .infinite, .finite a => if a = 0 then .undefined else .infinite
  | .infinite, .infinite => .infinite
  | .undefined, _ | _, .undefined => .undefined

def inv : Ratio → Ratio
  | .finite a => if a = 0 then .infinite else .finite a⁻¹
  | .infinite => .finite 0
  | .undefined => .undefined

instance : Mul Ratio := ⟨mul⟩

instance : Inv Ratio := ⟨inv⟩

instance : One Ratio := ⟨.finite 1⟩

theorem one_def : (1 : Ratio) = finite 1 := rfl

@[simp, grind =] theorem finite_mul_finite (a b : ℚ) : finite a * finite b = finite (a * b) := rfl

@[simp, grind =] theorem finite_mul_infinite (a : ℚ) :
    finite a * infinite = if a = 0 then undefined else infinite := rfl

@[simp, grind =] theorem infinite_mul_finite (a : ℚ) :
    infinite * finite a = if a = 0 then undefined else infinite := rfl

@[simp, grind =] theorem infinite_mul_infinite : infinite * infinite = infinite := rfl

@[simp, grind =] theorem undefined_mul (r : Ratio) : undefined * r = undefined := by
  cases r <;> rfl

@[simp, grind =] theorem mul_undefined (r : Ratio) : r * undefined = undefined := by
  cases r <;> rfl

@[simp, grind =] theorem inv_finite (a : ℚ) :
    (finite a)⁻¹ = if a = 0 then infinite else finite a⁻¹ := rfl

@[simp, grind =] theorem inv_infinite : infinite⁻¹ = finite 0 := rfl

@[simp, grind =] theorem inv_undefined : undefined⁻¹ = undefined := rfl

protected theorem mul_comm (r s : Ratio) : r * s = s * r := by
  cases r <;> cases s <;> simp [mul_comm]

protected theorem mul_assoc (r s t : Ratio) : r * s * t = r * (s * t) := by
  cases r <;> cases s <;> cases t <;> grind

protected theorem one_mul (r : Ratio) : 1 * r = r := by
  cases r <;> simp [one_def]

protected theorem inv_inv (r : Ratio) : r⁻¹⁻¹ = r := by
  cases r <;> grind

protected theorem mul_inv (r s : Ratio) : (r * s)⁻¹ = r⁻¹ * s⁻¹ := by
  cases r <;> cases s <;> grind

protected theorem inv_eq_of_mul {r s : Ratio} (h : r * s = 1) : r⁻¹ = s := by
  cases r <;> cases s <;> grind [one_def]

instance : DivisionCommMonoid Ratio where
  mul_assoc := Ratio.mul_assoc
  mul_comm := Ratio.mul_comm
  one_mul := Ratio.one_mul
  mul_one r := by rw [Ratio.mul_comm, Ratio.one_mul]
  inv_inv := Ratio.inv_inv
  mul_inv_rev r s := by rw [Ratio.mul_inv, Ratio.mul_comm]
  inv_eq_of_mul _ _ := Ratio.inv_eq_of_mul

theorem finite_div_finite_eq_finite_iff {a b q : ℚ} :
    finite a / finite b = finite q ↔ b ≠ 0 ∧ a / b = q := by
  rw [div_eq_mul_inv, inv_finite]
  by_cases hb : b = 0
  · grind
  · simp [hb, div_eq_mul_inv]

/-- The number that a ratio is, if it is one. -/
def finite? : Ratio → Option ℚ
  | .finite q => some q
  | _ => none

def ofOption : Option ℚ → Ratio
  | some q => .finite q
  | none => .undefined

theorem ofOption_eq_finite_iff {o : Option ℚ} {q : ℚ} : ofOption o = finite q ↔ o = some q := by
  cases o <;> simp [ofOption]

theorem ofOption_ne_infinite (o : Option ℚ) : ofOption o ≠ infinite := by
  cases o <;> simp [ofOption]

theorem mapM_finite?_eq_some_iff {rs : List Ratio} {qs : List ℚ} :
    rs.mapM finite? = some qs ↔ rs = qs.map finite := by
  induction rs generalizing qs with
  | nil => simp [eq_comm]
  | cons r rs ih =>
    simp only [List.mapM_cons, bind, pure, Option.bind_eq_some_iff, ih]
    constructor
    · rintro ⟨q, hq, qs', rfl, ⟨⟩⟩
      cases r <;> cases hq
      rfl
    · intro h
      cases qs with
      | nil => cases h
      | cons q qs =>
        cases h
        exact ⟨q, rfl, qs, rfl, rfl⟩

theorem prod_finite (qs : List ℚ) : (qs.map finite).prod = finite qs.prod := by
  induction qs with
  | nil => rfl
  | cons q qs ih => rw [List.map_cons, List.prod_cons, ih, finite_mul_finite, List.prod_cons]

/-- A product is finite only if its factors are. -/
theorem exists_of_prod_eq_finite {rs : List Ratio} {q : ℚ} (h : rs.prod = finite q) :
    ∃ qs : List ℚ, rs = qs.map finite := by
  induction rs generalizing q with
  | nil => exact ⟨[], rfl⟩
  | cons r rs ih =>
    rw [List.prod_cons] at h
    cases r with
    | finite a =>
      cases hp : rs.prod with
      | finite b =>
        obtain ⟨qs, rfl⟩ := ih hp
        exact ⟨a :: qs, rfl⟩
      | infinite => grind
      | undefined => grind
    | infinite => cases hp : rs.prod <;> grind
    | undefined => grind

/-- A product is infinite only if one of its factors is. -/
theorem infinite_mem_of_prod {rs : List Ratio} (h : rs.prod = infinite) : infinite ∈ rs := by
  induction rs with
  | nil => cases h
  | cons r rs ih =>
    rw [List.prod_cons] at h
    cases r with
    | infinite => exact List.mem_cons_self
    | finite a =>
      cases hp : rs.prod with
      | infinite => exact List.mem_cons_of_mem _ (ih hp)
      | finite b => grind
      | undefined => grind
    | undefined => grind

end Ratio

/-- The ratio of an operator's application. -/
def Op.ratio : Op → List Ratio → Ratio
  | .mul, rs => rs.prod
  | .div, [a, b] => a / b
  | op, rs => .ofOption ((rs.mapM Ratio.finite?).bind op.rational?)

namespace Op

open Ratio

/-- On rational numbers, an operator has the ratio that its value is. -/
theorem ratio_finite_iff {op : Op} {qs : List ℚ} {q : ℚ} :
    op.ratio (qs.map finite) = finite q ↔ op.rational? qs = some q := by
  unfold Op.ratio
  split
  · rw [prod_finite]
    simp [Op.rational?]
  · next a b h =>
    obtain ⟨x, _, rfl, rfl, tail⟩ := List.map_eq_cons_iff.1 h
    obtain ⟨y, _, rfl, rfl, nil⟩ := List.map_eq_cons_iff.1 tail
    cases List.map_eq_nil_iff.1 nil
    rw [finite_div_finite_eq_finite_iff]
    simp [Op.rational?]
  · rw [mapM_finite?_eq_some_iff.2 rfl, Option.bind_some, ofOption_eq_finite_iff]

/-- An application is finite only if its arguments are, or if it divides by infinity. -/
theorem arguments_of_ratio_finite {op : Op} {rs : List Ratio} {q : ℚ} (h : op.ratio rs = finite q) :
    (∃ qs : List ℚ, rs = qs.map finite) ∨ op = .div ∧ ∃ r, rs = [r, infinite] := by
  unfold Op.ratio at h
  split at h
  · exact .inl (exists_of_prod_eq_finite h)
  · next a b =>
    rw [div_eq_mul_inv] at h
    cases b with
    | finite y =>
      cases a with
      | finite x => exact .inl ⟨[x, y], rfl⟩
      | infinite | undefined => grind
    | infinite => exact .inr ⟨rfl, a, rfl⟩
    | undefined => grind
  · rw [ofOption_eq_finite_iff, Option.bind_eq_some_iff] at h
    obtain ⟨qs, hqs, _⟩ := h
    exact .inl ⟨qs, mapM_finite?_eq_some_iff.1 hqs⟩

/-- An application is infinite only if it is a product with an infinite factor, or a quotient of an
infinite numerator or with the divisor zero. -/
theorem arguments_of_ratio_infinite {op : Op} {rs : List Ratio} (h : op.ratio rs = infinite) :
    op = .mul ∧ infinite ∈ rs ∨
      op = .div ∧ ∃ r s, rs = [r, s] ∧ (r = infinite ∨ s = finite 0) := by
  unfold Op.ratio at h
  split at h
  · exact .inl ⟨rfl, infinite_mem_of_prod h⟩
  · next a b =>
    rw [div_eq_mul_inv] at h
    refine .inr ⟨rfl, a, b, rfl, ?_⟩
    cases a <;> cases b <;> grind
  · exact absurd h (ofOption_ne_infinite _)

end Op

/-! ## Ratios of expressions -/

namespace Expr

variable (env : String → ℚ)

mutual

/-- The ratio of an expression. -/
def ratio : Expr → Ratio
  | .num n => .finite n.value
  | .var x => .finite (env x)
  | .node op args => op.ratio (ratioAll args)

/-- The ratios of all expressions of a list. -/
def ratioAll : List Expr → List Ratio
  | [] => []
  | e :: es => ratio e :: ratioAll es

end

@[simp] theorem ratio_num (n : Numeral) : ratio env (.num n) = .finite n.value := by rw [ratio]

@[simp] theorem ratio_ofInt (n : Int) : ratio env (ofInt n) = .finite n := ratio_num env _

@[simp] theorem ratio_var (x : String) : ratio env (.var x) = .finite (env x) := by rw [ratio]

theorem ratioAll_eq_map (es : List Expr) : ratioAll env es = es.map (ratio env) := by
  induction es with
  | nil => simp [ratioAll]
  | cons e es ih => rw [ratioAll, ih, List.map_cons]

theorem ratio_node (op : Op) (args : List Expr) :
    ratio env (.node op args) = op.ratio (args.map (ratio env)) := by
  rw [ratio, ratioAll_eq_map]

theorem ratio_mul (args : List Expr) :
    ratio env (.node .mul args) = (args.map (ratio env)).prod := ratio_node env .mul args

theorem ratio_div (left right : Expr) :
    ratio env (.node .div [left, right]) = ratio env left / ratio env right :=
  ratio_node env .div [left, right]

variable {env}

theorem map_ratio_eq_iff {es : List Expr} {qs : List ℚ} :
    es.map (ratio env) = qs.map .finite ↔
      List.Forall₂ (fun e q => ratio env e = .finite q) es qs := by
  rw [← List.forall₂_map_left_iff (f := ratio env) (R := fun r q => r = Ratio.finite q),
    ← List.forall₂_map_right_iff (f := Ratio.finite) (R := Eq), List.forall₂_eq_eq_eq]

/-- The value of an expression is its ratio. -/
theorem ratio_of_eval {e : Expr} {q : ℚ} (h : eval env e = some q) : ratio env e = .finite q := by
  induction e using Expr.induction generalizing q with
  | num n =>
    cases (eval_num env n).symm.trans h
    exact ratio_num env n
  | var x =>
    cases (eval_var env x).symm.trans h
    exact ratio_var env x
  | node op args ih =>
    obtain ⟨qs, hqs, hq⟩ := eval_node_iff.1 h
    have ratios : args.map (ratio env) = qs.map .finite := by
      rw [map_ratio_eq_iff]
      exact ((List.forall₂_and_left args qs).2 ⟨fun e he q => @ih e he q, hqs⟩).imp
        fun _ _ h => h.1 _ h.2
    rw [ratio_node, ratios]
    exact Op.ratio_finite_iff.2 hq

/-- `d` is a divisor in the product or quotient `e`: that of `e` itself, or one in a factor, a
numerator or a divisor that is a product or a quotient. -/
inductive DividesIn (d : Expr) : Expr → Prop where
  | divisor (numer : Expr) : DividesIn d (.node .div [numer, d])
  | part {op : Op} (chain : op = .mul ∨ op = .div) {args : List Expr} {e : Expr} (he : e ∈ args)
      (h : DividesIn d e) : DividesIn d (.node op args)

@[simp] theorem not_dividesIn_num (d : Expr) (n : Numeral) : ¬ DividesIn d (.num n) := nofun

@[simp] theorem not_dividesIn_var (d : Expr) (x : String) : ¬ DividesIn d (.var x) := nofun

@[simp] theorem dividesIn_node {d : Expr} {op : Op} {args : List Expr} :
    DividesIn d (.node op args) ↔ (op = .div ∧ ∃ numer, args = [numer, d]) ∨
      (op = .mul ∨ op = .div) ∧ ∃ e ∈ args, DividesIn d e := by
  constructor
  · rintro (⟨numer⟩ | ⟨chain, he, h⟩)
    · exact .inl ⟨rfl, numer, rfl⟩
    · exact .inr ⟨chain, _, he, h⟩
  · rintro (⟨rfl, numer, rfl⟩ | ⟨chain, e, he, h⟩)
    · exact .divisor numer
    · exact .part chain he h

/-- No quotient in the divisor of another one divides by zero, as far as the divisor is a product or
a quotient. -/
def NonzeroInDivisors (env : String → ℚ) : Expr → Prop :=
  Everywhere fun op args => ∀ left right, op = .div → args = [left, right] →
    ∀ d, DividesIn d right → eval env d ≠ some 0

/-- If no quotient divides by zero in the divisor of another one, an expression has every number
that is its ratio as its value. For the ratio not to be infinite, there must be no quotient that
divides by zero in the expression itself. -/
theorem eval_of_ratio {e : Expr} (nonzero : NonzeroInDivisors env e) :
    (∀ q, ratio env e = .finite q → eval env e = some q) ∧
      ((∀ d, DividesIn d e → eval env d ≠ some 0) → ratio env e ≠ .infinite) := by
  induction e using Expr.induction with
  | num n => simp
  | var x => simp
  | node op args ih =>
    obtain ⟨divisors, nonzero⟩ := (everywhere_node _).1 nonzero
    have value e (he : e ∈ args) := (ih e he (nonzero e he)).1
    have notInfinite e (he : e ∈ args) := (ih e he (nonzero e he)).2
    rw [ratio_node]
    constructor
    · intro q hq
      rcases Op.arguments_of_ratio_finite hq with ⟨qs, hqs⟩ | ⟨rfl, r, hr⟩
      · rw [hqs, Op.ratio_finite_iff] at hq
        refine eval_node_iff.2 ⟨qs, ?_, hq⟩
        exact ((List.forall₂_and_left args qs).2 ⟨value, map_ratio_eq_iff.1 hqs⟩).imp
          fun _ _ h => h.1 _ h.2
      · obtain ⟨left, right, rfl⟩ := List.length_eq_two.1 (show args.length = 2 by
          simpa using congrArg List.length hr)
        simp only [List.map_cons, List.map_nil, List.cons.injEq, and_true] at hr
        exact absurd hr.2 (notInfinite right (by simp) (divisors left right rfl rfl))
    · intro outer hinfinite
      rcases Op.arguments_of_ratio_infinite hinfinite with ⟨rfl, hmem⟩ | ⟨rfl, r, s, hrs, cause⟩
      · obtain ⟨e, he, hr⟩ := List.mem_map.1 hmem
        exact notInfinite e he (fun d hd => outer d (.part (.inl rfl) he hd)) hr
      · obtain ⟨left, right, rfl⟩ := List.length_eq_two.1 (show args.length = 2 by
          simpa using congrArg List.length hrs)
        simp only [List.map_cons, List.map_nil, List.cons.injEq, and_true] at hrs
        rcases cause with rfl | rfl
        · exact notInfinite left (by simp) (fun d hd => outer d (.part (.inr rfl) (by simp) hd)) hrs.1
        · exact outer right (.divisor left) (by simpa using value right (by simp) 0 hrs.2)

end Expr

end ArithTree
