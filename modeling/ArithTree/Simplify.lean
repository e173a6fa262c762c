import ArithTree.Simplify.Pass

/-!
# Simplification

An expression is simplified by passes until one of them changes nothing, or until a given number of
passes has been made. `Simplified` holds the expression that is left and the events that led to it.

The number of passes that may be made is an integer, and is reported as it was given; one that is
not positive allows none.
-/

namespace ArithTree

/-- What happens in the course of a simplification. -/
inductive Event where
  /-- The pass with this number changed the expression to `result`. -/
  | pass (number : Nat) (result : Expr)
  /-- After this many passes, another one would change nothing. -/
  | fixedPoint (passes : Nat) (result : Expr)
  /-- As many passes as were allowed have been made, and it is not known whether another one would
  change anything. -/
  | gaveUp (allowed : Int) (result : Expr)
deriving DecidableEq

/-- A simplified expression, and what happened on the way to it. -/
structure Simplified where
  expr : Expr
  events : List Event
deriving DecidableEq

namespace Expr

/-- Goes on with a simplification of which `done` passes have been made and `left` are left. -/
def simplifyFrom (allowed : Int) (done : Nat) (e : Expr) : (left : Nat) → Except Fault Simplified
  | 0 => .ok ⟨e, [.gaveUp allowed e]⟩
  | left + 1 => do
    let next ← e.pass
    if next = e then
      return ⟨e, [.fixedPoint done e]⟩
    else
      let r ← simplifyFrom allowed (done + 1) next left
      return ⟨r.expr, .pass (done + 1) next :: r.events⟩

/-- Simplifies an expression by at most `allowed` passes. -/
def simplifyWithin (allowed : Int) (e : Expr) : Except Fault Simplified :=
  simplifyFrom allowed 0 e allowed.toNat

/-- Simplifies an expression by at most `maxPasses` passes. -/
def simplify (e : Expr) : Except Fault Simplified := simplifyWithin (Int.ofNat maxPasses) e

/-- The expression that is left when an expression is simplified. -/
def simplified (e : Expr) : Except Fault Expr := e.simplify.map (·.expr)

/-- The expression after a number of passes, and those on the way to it. -/
def passes (e : Expr) : Nat → Except Fault (List Expr)
  | 0 => .ok []
  | n + 1 => do
    let next ← e.pass
    let rest ← passes next n
    return next :: rest

end Expr

end ArithTree
