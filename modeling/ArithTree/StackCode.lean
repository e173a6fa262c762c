import ArithTree.Expr
import ArithTree.Fault

/-!
# Stack code

Stack code builds expressions on a stack: `push` puts an expression on top, `apply` replaces the two
topmost ones by an operator's application to them. Every application passes through a function
`adjust`, which may simplify it, and whose result goes onto the stack.

An instruction is a computation that changes a stack (`StackM`). If it fails, the stack is left as
it was when it failed, and may have been changed by then. `Stack.run` stops at the first instruction
that fails, `Stack.history` goes on with the stack that it has left, and `Stack.built` lists the
applications that `adjust` is called with.
-/

namespace ArithTree

/-- One instruction of stack code. -/
inductive Instr where
  | push (e : Expr)
  | apply (op : Op)
deriving DecidableEq

/-- Expressions, the topmost first. -/
abbrev Stack := List Expr

/-! ## Computations on a stack -/

/-- A computation on a stack, with the effects of `m`. It leaves a stack even if it fails. -/
abbrev StackM (m : Type → Type) : Type → Type := ExceptT Fault (StateT Stack m)

namespace StackM

variable {m : Type → Type} [Monad m] {α β : Type}

/-- What a computation gives on a stack, and the stack that it leaves. -/
def on (x : StackM m α) (stack : Stack) : m (Except Fault α × Stack) := x.run.run stack

/-- A computation that does not use the stack. -/
def ofExceptT (x : ExceptT Fault m α) : StackM m α := ExceptT.mk (StateT.lift x.run)

theorem on_throw (fault : Fault) (stack : Stack) :
    (throw fault : StackM m α).on stack = pure (.error fault, stack) := rfl

/-- Goes on with another computation on the stack that one has left, unless that has failed. -/
def goOn (f : α → StackM m β) : Except Fault α × Stack → m (Except Fault β × Stack)
  | (.ok a, next) => (f a).on next
  | (.error fault, next) => pure (.error fault, next)

theorem on_bind (x : StackM m α) (f : α → StackM m β) (stack : Stack) :
    (x >>= f).on stack = x.on stack >>= goOn f := by
  unfold on
  rw [ExceptT.run_bind, StateT.run_bind]
  congr 1
  funext ⟨result, next⟩
  cases result <;> rfl

variable [LawfulMonad m]

theorem on_get (stack : Stack) :
    (get : StackM m Stack).on stack = pure (.ok stack, stack) :=
  (StateT.run_map ..).trans (map_pure ..)

theorem on_modify (f : Stack → Stack) (stack : Stack) :
    (modify f : StackM m Unit).on stack = pure (.ok (), f stack) :=
  (StateT.run_map ..).trans (map_pure ..)

theorem on_ofExceptT (x : ExceptT Fault m α) (stack : Stack) :
    (ofExceptT x).on stack = (·, stack) <$> x.run :=
  (StateT.run_lift ..).trans (bind_pure_comp ..)

/-- The stack that a computation leaves, unless it fails. -/
def result (x : StackM Id Unit) (stack : Stack) : Except Fault Stack :=
  match x.on stack with
  | (.ok _, next) => .ok next
  | (.error fault, _) => .error fault

end StackM

namespace Stack

/-! ## Instructions -/

section Instructions

variable {m : Type → Type} [Monad m] (adjust : Expr → ExceptT Fault m Expr)

/-- Replaces the two topmost expressions by the application of an operator to them, when `adjust`
has made something of it. The topmost one is the right argument. An operator that finds fewer than
two expressions is out of place. -/
def apply (op : Op) : StackM m Unit := do
  if (← get).length < 2 then throw (.parse (.unexpected op.symbol.toString))
  let e ← .ofExceptT (adjust (.node op ((← get).take 2).reverse))
  modify fun stack => e :: stack.drop 2

/-- Carries out an instruction. -/
def execute : Instr → StackM m Unit
  | .push e => modify (e :: ·)
  | .apply op => apply adjust op

/-- Carries out instructions in their order, until one fails. -/
def executeAll : List Instr → StackM m Unit
  | [] => pure ()
  | i :: code => do
    execute adjust i
    executeAll code

end Instructions

section Code

variable (adjust : Expr → Except Fault Expr)

/-- The stack that an instruction leaves, and the fault if it fails. -/
def attempt (stack : Stack) (i : Instr) : Stack × Option Fault :=
  match (execute (m := Id) adjust i).on stack with
  | (.ok _, next) => (next, none)
  | (.error fault, next) => (next, some fault)

/-- The stack after an instruction, unless it fails. -/
def step (stack : Stack) (i : Instr) : Except Fault Stack :=
  StackM.result (execute (m := Id) adjust i) stack

/-- The stack after all of the code, or the fault of the first instruction that fails. -/
def run (stack : Stack) (code : List Instr) : Except Fault Stack :=
  StackM.result (executeAll (m := Id) adjust code) stack

/-- The stack after each instruction, and the fault of an instruction that failed. The next
instruction is carried out on the stack that it has left. -/
def history (stack : Stack) : List Instr → List (Stack × Option Fault)
  | [] => []
  | i :: code =>
    let entry := attempt adjust stack i
    entry :: history entry.1 code

/-- `adjust`, keeping a list of the applications that it is called with. -/
def recorded (e : Expr) : ExceptT Fault (StateM (List Expr)) Expr := do
  modify (· ++ [e])
  ofExcept (adjust e)

/-- The applications that `adjust` is called with, in order, until an instruction fails. -/
def built (stack : Stack) (code : List Instr) : List Expr :=
  (((executeAll (recorded adjust) code).on stack).run []).2

end Code

end Stack

end ArithTree
