/-!
# The five operators

An operator has a symbol, a precedence and a side to which it associates. `Op.bindsBefore` draws the
one conclusion that reading an expression needs: of two operators with an operand between them, is
the earlier one applied first?
-/

namespace ArithTree

/-- The binary operators of arithmetic. -/
inductive Op where
  | add
  | sub
  | mul
  | div
  | pow
deriving DecidableEq

/-- The side to which a run of operators of one precedence is grouped. -/
inductive Side where
  | left
  | right
deriving DecidableEq

namespace Op

/-- The character that an operator is written with. -/
def symbol : Op → Char
  | .add => '+'
  | .sub => '-'
  | .mul => '*'
  | .div => '/'
  | .pow => '^'

/-- The name of an operator in messages to programmers. -/
def describe (o : Op) : String := "op('" ++ o.symbol.toString ++ "')"

/-- An operator of higher precedence binds its operands more tightly. -/
def precedence : Op → Nat
  | .add | .sub => 2
  | .mul | .div => 3
  | .pow => 4

/-- Powers are grouped to the right, all other operators to the left. -/
def side : Op → Side
  | .pow => .right
  | _ => .left

/-- The operator that is written with a given character. -/
def ofSymbol? : Char → Option Op
  | '+' => some .add
  | '-' => some .sub
  | '*' => some .mul
  | '/' => some .div
  | '^' => some .pow
  | _ => none

/-- In `a earlier b later c`, the earlier operator takes `b` as its operand if it binds more
tightly, or equally tightly and the later one is grouped to the left. -/
def bindsBefore (earlier later : Op) : Bool :=
  later.precedence < earlier.precedence ||
    (earlier.precedence == later.precedence && later.side == .left)

theorem ofSymbol?_symbol (o : Op) : ofSymbol? o.symbol = some o := by
  cases o <;> rfl

/-- No two operators are written alike. -/
theorem symbol_injective {a b : Op} (h : a.symbol = b.symbol) : a = b := by
  have := congrArg ofSymbol? h
  simpa [ofSymbol?_symbol] using this

theorem symbol_of_ofSymbol? {c : Char} {o : Op} (h : ofSymbol? c = some o) : o.symbol = c := by
  unfold ofSymbol? at h
  split at h <;> cases h <;> rfl

end Op

end ArithTree
