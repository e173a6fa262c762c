import ArithTree.Simplify.Weight

/-!
# One pass of simplification

A pass applies the rule of the outermost operator first and then goes on inside the arguments that
the rule made. An application to one argument is replaced by that argument. The pass fails only
where a rule does, for an operator with a number of arguments that it cannot have.

Main statement: `pass_node` says what a pass does to an application, in terms of the passes over its
new arguments.
-/

namespace ArithTree.Expr

/-- The application of an operator to arguments; of one argument, the argument itself. -/
def collapse (op : Op) : List Expr → Expr
  | [e] => e
  | es => .node op es

section PassWith

variable {ε : Type} (k : Evaluator ε)

/-- One pass over an expression, from the outside in, with the values that an evaluator gives. -/
def passWith : Expr → Except ε Expr
  | .num n => .ok (.num n)
  | .var x => .ok (.var x)
  | .node op args =>
    match _h : applyRuleWith k op args with
    | .error failure => .error failure
    | .ok (.num n) => .ok (.num n)
    | .ok (.var x) => .ok (.var x)
    | .ok (.node op' args') => do
      let args'' ← args'.attach.mapM fun ⟨e, _⟩ => passWith e
      return collapse op' args''
termination_by e => e.weight
decreasing_by exact weight_lt_of_applyRuleWith _h ‹_›

theorem passWith_num (n : Numeral) : passWith k (.num n) = .ok (.num n) := by rw [passWith]

theorem passWith_var (x : String) : passWith k (.var x) = .ok (.var x) := by rw [passWith]

theorem passWith_node (op : Op) (args : List Expr) :
    passWith k (.node op args) =
      (applyRuleWith k op args).bind fun
        | .node op' args' => (args'.mapM (passWith k)).map (collapse op')
        | e => .ok e := by
  rw [passWith]
  split
  · next h => rw [h]; rfl
  · next h => rw [h]; rfl
  · next h => rw [h]; rfl
  · next op' args' h =>
    rw [h, List.mapM_subtype fun _ _ => rfl, List.unattach_attach]
    show _ = (args'.mapM (passWith k)).map (collapse op')
    cases args'.mapM (passWith k) <;> rfl

end PassWith

/-- One pass over an expression, with exact values. -/
def pass (e : Expr) : Except Fault Expr := passWith .exact e

@[simp] theorem pass_num (n : Numeral) : pass (.num n) = .ok (.num n) := passWith_num _ n

@[simp] theorem pass_var (x : String) : pass (.var x) = .ok (.var x) := passWith_var _ x

/-- A pass applies the rule of an application and goes on with the arguments that this gives. -/
theorem pass_node (op : Op) (args : List Expr) :
    pass (.node op args) =
      (applyRule op args).bind fun
        | .node op' args' => (args'.mapM pass).map (collapse op')
        | e => .ok e := passWith_node _ op args

end ArithTree.Expr
