import ArithTree.Arithmetic
import ArithTree.Expr

/-!
# Sums and products of many terms

Sums and products are chains: the terms of nested ones are those of one long chain
(`chainTermsAll`). Like terms of a chain are collected: its constants are folded
(`Chain.foldConstants`), and the occurrences of each variable are counted (`Expr.occurrences?`,
`tally`) and written as one term (`Expr.multiple`). `Chain.collected` puts what results into a
fixed order: constants, repeated variables, all else, single variables.

A chain is given by two operators, the one between its terms and the one that repeats a term. Only
for sums and products does collecting like terms keep the value, but it is defined for any two.
-/

namespace ArithTree

/-! ## Terms -/

namespace Expr

mutual

/-- The terms of an expression as a chain of `op`: those of its arguments if it is an application of
`op`, else the expression itself. -/
def chainTerms (op : Op) : Expr → List Expr
  | .node o args => if o = op then chainTermsAll op args else [.node o args]
  | .num n => [.num n]
  | .var x => [.var x]

/-- The terms of several expressions as one chain of `op`. -/
def chainTermsAll (op : Op) : List Expr → List Expr
  | [] => []
  | e :: es => e.chainTerms op ++ chainTermsAll op es

end

/-- The value of a numeral. -/
def constant? : Expr → Option Int
  | .num n => some n.value
  | _ => none

/-- A variable and how often it occurs in a term: once in the variable itself, and `k` times in the
repetition of `v` by `k`, for `k` greater than one. If terms are repeated by multiplication, the
number may also stand first. -/
def occurrences? (repetition : Op) : Expr → Option (String × Int)
  | .var v => some (v, 1)
  | .node op [.var v, .num k] =>
    if op = repetition ∧ 1 < k.value then some (v, k.value) else none
  | .node .mul [.num k, .var v] =>
    if repetition = .mul ∧ 1 < k.value then some (v, k.value) else none
  | _ => none

/-- The term for `n` occurrences of a variable: a product if terms are repeated by multiplication,
else a power. -/
def multiple (repetition : Op) (v : String) (n : Int) : Expr :=
  if repetition = .mul then .node .mul [ofInt n, .var v] else .node .pow [.var v, ofInt n]

/-- What stands for many occurrences of a variable is read as just as many. -/
theorem occurrences?_multiple {repetition : Op} (h : repetition = .mul ∨ repetition = .pow)
    (v : String) {n : Int} (hn : 1 < n) :
    occurrences? repetition (multiple repetition v n) = some (v, n) := by
  rcases h with rfl | rfl <;> simp [multiple, occurrences?, ofInt, Numeral.ofInt, hn]

end Expr

/-! ## Chains -/

/-- How like terms are collected: the operator between the terms, and the one that repeats a
term. -/
structure Chain where
  op : Op
  repetition : Op
deriving DecidableEq

/-- How often a variable occurs in a list of counted occurrences. -/
def total (v : String) : List (String × Int) → Int
  | [] => 0
  | (w, n) :: ts => if w = v then n + total v ts else total v ts

/-- Each variable of a list of counted occurrences, with its total, in the order of their first
occurrences. -/
def tally (ts : List (String × Int)) : List (String × Int) :=
  (ts.map (·.1)).eraseDups.map fun v => (v, total v ts)

namespace Chain

/-- The chain of a sum: a term is repeated by multiplication. -/
def sum : Chain := ⟨.add, .mul⟩

/-- The chain of a product: a factor is repeated by a power. -/
def product : Chain := ⟨.mul, .pow⟩

@[simp] theorem op_sum : sum.op = .add := rfl

@[simp] theorem op_product : product.op = .mul := rfl

@[simp] theorem repetition_sum : sum.repetition = .mul := rfl

@[simp] theorem repetition_product : product.repetition = .pow := rfl

/-! ### Constants -/

/-- The constant that two constants of a chain fold into: their value, if it is a compact
integer. -/
def fold? (c : Chain) (a b : Int) : Option Int :=
  match c.op.value a b with
  | .ok (.whole n) => if Compact n then some n else none
  | _ => none

theorem fold?_sum (a b : Int) :
    sum.fold? a b = if Compact (a + b) then some (a + b) else none := rfl

theorem fold?_product (a b : Int) :
    product.fold? a b = if Compact (a * b) then some (a * b) else none := rfl

/-- Folds constants onto `first`, and starts again from the first one that does not fold. -/
def foldOnto (c : Chain) (first : Int) : List Int → List Int
  | [] => [first]
  | n :: ns =>
    match c.fold? first n with
    | some folded => foldOnto c folded ns
    | none => first :: foldOnto c n ns

/-- The constants of a chain, folded from left to right as far as they do. -/
def foldConstants (c : Chain) : List Int → List Int
  | [] => []
  | n :: ns => foldOnto c n ns

/-! ### Collecting like terms -/

/-- The variables of a chain, each with the number of its occurrences. -/
def counts (c : Chain) (args : List Expr) : List (String × Int) :=
  tally (args.filterMap (Expr.occurrences? c.repetition))

/-- The constants of a chain, folded. -/
def constants (c : Chain) (args : List Expr) : List Int :=
  c.foldConstants (args.filterMap Expr.constant?)

/-- What is neither a constant nor counts as a variable. -/
def others (c : Chain) (args : List Expr) : List Expr :=
  args.filter fun e => e.constant?.isNone && (e.occurrences? c.repetition).isNone

/-- The terms of a chain when like terms have been collected. Repeated variables stand before all
that is not counted, and single ones after it, so that the order is the same when the result is
collected again. -/
def collected (c : Chain) (args : List Expr) : List Expr :=
  let counted := c.counts args
  let repeats := (counted.filter (1 < ·.2)).map fun (v, n) => Expr.multiple c.repetition v n
  let singles := (counted.filter (·.2 == 1)).map fun (v, _) => .var v
  (c.constants args).map .ofInt ++ repeats ++ c.others args ++ singles

/-- The chain of given terms, like terms collected. -/
def collect (c : Chain) (args : List Expr) : Expr := .node c.op (c.collected args)

end Chain

example : Chain.collect .product [.var "a", .ofInt 2, .var "b", .var "a", .ofInt 3] =
    .node .mul [.ofInt 6, .node .pow [.var "a", .ofInt 2], .var "b"] := by
  decide +kernel

end ArithTree
