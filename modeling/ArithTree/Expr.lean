import ArithTree.Numeral
import ArithTree.Op

/-!
# Expression trees

An expression is a numeral, a variable or an operator over a list of arguments. Reading an
expression gives two arguments to every operator; simplification gives any number of them to sums
and products.

Equality of expressions is decidable (`Expr.decEq`); it compares the texts of numerals too.
`Expr.induction` is induction over all arguments at once.
-/

namespace ArithTree

/-- An arithmetic expression. -/
inductive Expr where
  | num (n : Numeral)
  | var (name : String)
  | node (op : Op) (args : List Expr)

namespace Expr

/-- An integer that was computed, as an expression. -/
def ofInt (n : Int) : Expr := .num (.ofInt n)

/-- Is the expression an application of `op`? -/
def isNode (op : Op) : Expr → Bool
  | .node o _ => o == op
  | _ => false

/-- What holds of numerals and variables, and of an operator over arguments of which it holds, holds
of every expression. -/
theorem induction {motive : Expr → Prop} (num : ∀ n, motive (.num n)) (var : ∀ x, motive (.var x))
    (node : ∀ op args, (∀ e ∈ args, motive e) → motive (.node op args)) : ∀ e, motive e
  | .num n => num n
  | .var x => var x
  | .node op args => node op args fun e _ => induction num var node e

mutual

/-- Equality of expressions is decided argument by argument. -/
def decEq : (a b : Expr) → Decidable (a = b)
  | .num m, .num n =>
    if h : m = n then .isTrue (congrArg _ h) else .isFalse (by simp [h])
  | .var x, .var y =>
    if h : x = y then .isTrue (congrArg _ h) else .isFalse (by simp [h])
  | .node o as, .node p bs =>
    if ho : o = p then
      match decEqList as bs with
      | .isTrue h => .isTrue (by rw [ho, h])
      | .isFalse h => .isFalse (by simp [h])
    else .isFalse (by simp [ho])
  | .num _, .var _ | .num _, .node _ _ | .var _, .num _ | .var _, .node _ _ | .node _ _, .num _
  | .node _ _, .var _ => .isFalse (by simp)

/-- Equality of lists of expressions. -/
def decEqList : (as bs : List Expr) → Decidable (as = bs)
  | [], [] => .isTrue rfl
  | [], _ :: _ | _ :: _, [] => .isFalse (by simp)
  | a :: as, b :: bs =>
    match decEq a b with
    | .isTrue h =>
      match decEqList as bs with
      | .isTrue hs => .isTrue (by rw [h, hs])
      | .isFalse hs => .isFalse (by simp [hs])
    | .isFalse h => .isFalse (by simp [h])

end

instance : DecidableEq Expr := decEq

end Expr

end ArithTree
