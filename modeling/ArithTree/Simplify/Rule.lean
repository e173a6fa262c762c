import ArithTree.Arithmetic
import ArithTree.Fault
import ArithTree.Simplify.Chain

/-!
# The rules of simplification

One rule for each operator, applied to its arguments and not inside them.

* A difference becomes a sum with the negative of its right argument.
* A sum becomes one chain, in which like terms are collected.
* A product with a quotient among its factors becomes one quotient; any other product becomes one
  chain, in which like factors are collected.
* A quotient of a quotient, on one side alone, becomes one quotient; a quotient of integers is
  brought to lowest terms.
* A power of integers is computed if it is sure to be compact.

Differences, quotients and powers, and a quotient that a rule takes apart, must have two arguments.

How a rule fails, and how it comes by the values of operators on integers, is up to an `Evaluator`.
A rule can ask it only for values that exist.
-/

namespace ArithTree

/-- The expression for a value. -/
def Value.toExpr : Value → Expr
  | .whole n => .ofInt n
  | .fraction p q => .node .div [.ofInt p, .ofInt q]

/-- What the rules are told: how to fail, and the values of operators that have one. -/
structure Evaluator (ε : Type) where
  fault : Fault → ε
  value (op : Op) (a b : Int) : op.Defined b → Except ε Value

/-- Gives exact values, so that a rule fails by no more than a fault. -/
def Evaluator.exact : Evaluator Fault where
  fault := id
  value op a b h := .ok (op.exact a b h)

namespace Expr

section Rules

variable {ε : Type} (k : Evaluator ε)

/-- The rule for `left - right`. -/
def differenceRule (left right : Expr) : Expr :=
  .node .add [left, .node .mul [.ofInt (-1), right]]

/-- The rule for a sum. -/
def sumRule (args : List Expr) : Expr := Chain.sum.collect (chainTermsAll .add args)

/-- The rule for a product. The first quotient among the factors takes the other factors into its
numerator, before what stood there. -/
def productRule (args : List Expr) : Except ε Expr :=
  match args.dropWhile (!isNode .div ·) with
  | .node .div [numer, denom] :: after =>
    .ok (.node .div [.node .mul (args.takeWhile (!isNode .div ·) ++ after ++ [numer]), denom])
  | .node .div parts :: _ => .error (k.fault (.arity .div parts.length))
  | _ => .ok (Chain.product.collect (chainTermsAll .mul args))

/-- The rule for `left / right`. -/
def quotientRule (left right : Expr) : Except ε Expr :=
  match left, right with
  -- A quotient of two quotients has no rule.
  | .node .div _, .node .div _ => .ok (.node .div [left, right])
  | .node .div [a, b], _ => .ok (.node .div [a, .node .mul [b, right]])
  | .node .div parts, _ => .error (k.fault (.arity .div parts.length))
  | _, .node .div [b, c] => .ok (.node .div [.node .mul [left, c], b])
  | _, .node .div parts => .error (k.fault (.arity .div parts.length))
  | .num a, .num b =>
    -- Division by zero is left for the reader to see.
    if h : b.value = 0 then .ok (.node .div [left, right])
    else (k.value .div a.value b.value h).map Value.toExpr
  | _, _ => .ok (.node .div [left, right])

/-- The rule for `base ^ exponent`. -/
def powerRule (base exponent : Expr) : Except ε Expr :=
  match base, exponent with
  | .num b, .num e =>
    if h : 0 ≤ e.value ∧ PowerCompact b.value e.value.toNat then
      (k.value .pow b.value e.value h.1).map Value.toExpr
    else .ok (.node .pow [base, exponent])
  | _, _ => .ok (.node .pow [base, exponent])

/-- The rule for an operator's application to `args`. -/
def applyRuleWith (op : Op) (args : List Expr) : Except ε Expr :=
  match op, args with
  | .add, args => .ok (sumRule args)
  | .mul, args => productRule k args
  | .sub, [left, right] => .ok (differenceRule left right)
  | .div, [left, right] => quotientRule k left right
  | .pow, [base, exponent] => powerRule k base exponent
  | op, args => .error (k.fault (.arity op args.length))

end Rules

/-- The rule for an operator's application to `args`, with exact values. -/
def applyRule (op : Op) (args : List Expr) : Except Fault Expr := applyRuleWith .exact op args

end Expr

end ArithTree
