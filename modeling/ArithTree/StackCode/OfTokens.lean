import ArithTree.StackCode
import ArithTree.Token

/-!
# From tokens to stack code

Infix tokens are turned into stack code by holding operators back until both of their operands have
been pushed (the shunting-yard method). An operand is pushed at once. An operator first releases the
operators that bind before it, and is held itself. A closing parenthesis releases the operators back
to its opening parenthesis, and the end of the tokens releases them all.

A parenthesis without a partner or a token that no expression contains stops this: the code is then
what came before it, followed by the error. The two must be told apart from an error that running
the code meets earlier, so `Program` keeps both.
-/

namespace ArithTree

/-! ## Operators that are held back -/

/-- What is held back: an operator, or an opening parenthesis that keeps the operators before it
from being released. -/
inductive Held where
  | op (o : Op)
  | opening
deriving DecidableEq

/-! ## Programs -/

/-- Stack code, and the error that follows it if the tokens were not read to their end. -/
structure Program where
  code : List Instr
  error : Option ParseError
deriving DecidableEq

namespace Program

/-- A program with more code at its front. -/
def after (front : List Instr) (p : Program) : Program := { p with code := front ++ p.code }

/-- The operators that bind before `next`, applied, and what stays held. -/
def release (next : Op) : List Held → List Instr × List Held
  | .op o :: held =>
    if o.bindsBefore next then
      let (code, rest) := release next held
      (.apply o :: code, rest)
    else ([], .op o :: held)
  | held => ([], held)

/-- The operators back to the last opening parenthesis, applied, and what was held before it; none
if there is no opening parenthesis. -/
def close : List Held → List Instr × Option (List Held)
  | [] => ([], none)
  | .opening :: held => ([], some held)
  | .op o :: held =>
    let (code, rest) := close held
    (.apply o :: code, rest)

/-- All operators that are held, applied. A parenthesis among them has no partner. -/
def finish : List Held → Program
  | [] => ⟨[], none⟩
  | .opening :: _ => ⟨[], some .unbalanced⟩
  | .op o :: held => (finish held).after [.apply o]

/-- The code for the rest of the tokens while operators are held, the latest first. -/
def ofTokensFrom (held : List Held) : List Token → Program
  | [] => finish held
  | .num n :: ts => (ofTokensFrom held ts).after [.push (.num n)]
  | .var x :: ts => (ofTokensFrom held ts).after [.push (.var x)]
  | .op o :: ts =>
    let (code, rest) := release o held
    (ofTokensFrom (.op o :: rest) ts).after code
  | .opening :: ts => ofTokensFrom (.opening :: held) ts
  | .closing :: ts =>
    match close held with
    | (code, some rest) => (ofTokensFrom rest ts).after code
    | (code, none) => ⟨code, some .unbalanced⟩
  | .tooLong word :: _ | .unknown word :: _ => ⟨[], some (.unexpected word)⟩

/-- The stack code of infix tokens. -/
def ofTokens (ts : List Token) : Program := ofTokensFrom [] ts

end Program

example : (Program.ofTokens (tokens "a - b * c - d")).code =
    [.push (.var "a"), .push (.var "b"), .push (.var "c"), .apply .mul, .apply .sub,
      .push (.var "d"), .apply .sub] := by
  decide +kernel

end ArithTree
