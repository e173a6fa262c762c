import ArithTree.StackCode

/-!
# What an instruction does

An operator takes two expressions from the stack after it has been applied to them and the
application has been adjusted, not before (`Stack.execute_apply`). So an instruction that fails
leaves the stack as it is.

`Stack.Executes` has one case for each way in which an instruction can end, with the stack that it
leaves, as a whole, and the fault if it fails. It is all that is ever needed to know about a step:
an instruction ends in one of these ways (`Stack.executes_attempt`), and in one only
(`Stack.Executes.attempt_eq`).
-/

namespace ArithTree.Stack

/-! ## With any effects -/

section Effects

variable {m : Type → Type} [Monad m] [LawfulMonad m] (adjust : Expr → ExceptT Fault m Expr)

theorem execute_push (e : Expr) (stack : Stack) :
    (execute adjust (.push e)).on stack = pure (.ok (), e :: stack) :=
  StackM.on_modify _ _

theorem execute_apply (op : Op) (right left : Expr) (rest : Stack) :
    (execute adjust (.apply op)).on (right :: left :: rest) = (do
      match ← (adjust (.node op [left, right])).run with
      | .ok e => pure (.ok (), e :: rest)
      | .error fault => pure (.error fault, right :: left :: rest)) := by
  have enough : ¬ (right :: left :: rest).length < 2 := by simp
  simp only [execute, apply, StackM.on_bind, StackM.on_get, StackM.on_ofExceptT, pure_bind,
    StackM.goOn, if_neg enough, bind_map_left]
  congr 1
  funext adjusted
  cases adjusted with
  | ok e => exact StackM.on_modify _ _
  | error fault => rfl

theorem execute_short (op : Op) {stack : Stack} (few : stack.length < 2) :
    (execute adjust (.apply op)).on stack =
      pure (.error (.parse (.unexpected op.symbol.toString)), stack) := by
  simp only [execute, apply, StackM.on_bind, StackM.on_get, StackM.on_throw, pure_bind,
    StackM.goOn, if_pos few]

omit [LawfulMonad m] in
theorem executeAll_cons (i : Instr) (code : List Instr) (stack : Stack) :
    (executeAll adjust (i :: code)).on stack =
      (execute adjust i).on stack >>= StackM.goOn fun _ => executeAll adjust code :=
  StackM.on_bind _ _ _

end Effects

/-! ## One instruction -/

variable {adjust : Expr → Except Fault Expr} {stack next : Stack} {i : Instr}
  {entry : Stack × Option Fault}

/-- How an instruction ends on a stack. If it fails, it leaves the stack as it is; an operator that
is applied replaces the two topmost expressions, and those below stay. -/
inductive Executes (adjust : Expr → Except Fault Expr) :
    Stack → Instr → Stack × Option Fault → Prop where
  | pushed (stack : Stack) (e : Expr) : Executes adjust stack (.push e) (e :: stack, none)
  | applied {op : Op} {left right e : Expr} (rest : Stack)
      (adjusted : adjust (.node op [left, right]) = .ok e) :
    Executes adjust (right :: left :: rest) (.apply op) (e :: rest, none)
  | refused {op : Op} {left right : Expr} {fault : Fault} (rest : Stack)
      (failed : adjust (.node op [left, right]) = .error fault) :
    Executes adjust (right :: left :: rest) (.apply op) (right :: left :: rest, some fault)
  | short {stack : Stack} (op : Op) (few : stack.length < 2) :
    Executes adjust stack (.apply op) (stack, some (.parse (.unexpected op.symbol.toString)))

theorem exists_executes (adjust : Expr → Except Fault Expr) (stack : Stack) (i : Instr) :
    ∃ entry, Executes adjust stack i entry := by
  cases i with
  | push e => exact ⟨_, .pushed stack e⟩
  | apply op =>
    rcases stack with _ | ⟨right, _ | ⟨left, rest⟩⟩
    · exact ⟨_, .short op (by simp)⟩
    · exact ⟨_, .short op (by simp)⟩
    · cases adjusted : adjust (.node op [left, right]) with
      | ok e => exact ⟨_, .applied rest adjusted⟩
      | error fault => exact ⟨_, .refused rest adjusted⟩

/-- What an operator that is applied to two expressions does depends on how the application is
adjusted. -/
theorem execute_apply_id (adjust : Expr → Except Fault Expr) (op : Op) (right left : Expr)
    (rest : Stack) :
    (execute (m := Id) adjust (.apply op)).on (right :: left :: rest) =
      match adjust (.node op [left, right]) with
      | .ok e => (.ok (), e :: rest)
      | .error fault => (.error fault, right :: left :: rest) := by
  rw [execute_apply]
  rfl

theorem Executes.attempt_eq (h : Executes adjust stack i entry) :
    attempt adjust stack i = entry := by
  cases h with
  | pushed => rw [attempt, execute_push]; rfl
  | applied rest adjusted => rw [attempt, execute_apply_id, adjusted]
  | refused rest failed => rw [attempt, execute_apply_id, failed]
  | short op few => rw [attempt, execute_short _ op few]; rfl

theorem executes_attempt (adjust : Expr → Except Fault Expr) (stack : Stack) (i : Instr) :
    Executes adjust stack i (attempt adjust stack i) := by
  obtain ⟨entry, executes⟩ := exists_executes adjust stack i
  rwa [executes.attempt_eq]

/-- A step is an attempt of which nothing is kept if it fails. -/
theorem step_eq (adjust : Expr → Except Fault Expr) (stack : Stack) (i : Instr) :
    step adjust stack i =
      match attempt adjust stack i with
      | (next, none) => .ok next
      | (_, some fault) => .error fault := by
  unfold step StackM.result attempt
  split <;> rfl

theorem step_apply (adjust : Expr → Except Fault Expr) (op : Op) (right left : Expr)
    (rest : Stack) :
    step adjust (right :: left :: rest) (.apply op) =
      (adjust (.node op [left, right])).map (· :: rest) := by
  rw [step_eq]
  cases adjusted : adjust (.node op [left, right]) with
  | ok e => rw [(Executes.applied rest adjusted).attempt_eq]; rfl
  | error fault => rw [(Executes.refused rest adjusted).attempt_eq]; rfl

theorem executes_of_ok (h : step adjust stack i = .ok next) :
    Executes adjust stack i (next, none) := by
  have executes := executes_attempt adjust stack i
  rw [step_eq] at h
  split at h
  · next same =>
    cases h
    rwa [same] at executes
  · cases h

theorem executes_of_error {fault : Fault} (h : step adjust stack i = .error fault) :
    Executes adjust stack i (stack, some fault) := by
  have executes := executes_attempt adjust stack i
  rw [step_eq] at h
  split at h
  · cases h
  · next same =>
    cases h
    rw [same] at executes
    cases executes with
    | refused rest failed => exact .refused rest failed
    | short op few => exact .short op few

/-! ## Code -/

@[simp] theorem run_nil (adjust : Expr → Except Fault Expr) (stack : Stack) :
    run adjust stack [] = .ok stack := rfl

theorem run_cons (adjust : Expr → Except Fault Expr) (stack : Stack) (i : Instr)
    (code : List Instr) :
    run adjust stack (i :: code) = (step adjust stack i).bind (run adjust · code) := by
  unfold run step StackM.result
  rw [executeAll_cons]
  obtain ⟨result, next⟩ := (execute (m := Id) adjust i).on stack
  cases result <;> rfl

/-- Code may be run in two parts. -/
theorem run_append (adjust : Expr → Except Fault Expr) (stack : Stack) (code more : List Instr) :
    run adjust stack (code ++ more) = (run adjust stack code).bind (run adjust · more) := by
  induction code generalizing stack with
  | nil => rfl
  | cons i code ih =>
    rw [List.cons_append, run_cons, run_cons]
    cases step adjust stack i with
    | error fault => rfl
    | ok stack' => exact ih stack'

/-! ## Calls -/

section Calls

variable (adjust : Expr → Except Fault Expr)

theorem run_recorded (e : Expr) (calls : List Expr) :
    (recorded adjust e).run.run calls = (adjust e, calls ++ [e]) := by
  unfold recorded
  cases adjust e <;> rfl

theorem on_recorded_push (stack : Stack) (e : Expr) (code : List Instr) (calls : List Expr) :
    ((executeAll (recorded adjust) (.push e :: code)).on stack).run calls =
      ((executeAll (recorded adjust) code).on (e :: stack)).run calls := by
  rw [executeAll_cons, execute_push, pure_bind]
  rfl

theorem on_recorded_apply (op : Op) (right left : Expr) (rest : Stack) (code : List Instr)
    (calls : List Expr) :
    ((executeAll (recorded adjust) (.apply op :: code)).on (right :: left :: rest)).run calls =
      match adjust (.node op [left, right]) with
      | .ok e => ((executeAll (recorded adjust) code).on (e :: rest)).run
          (calls ++ [.node op [left, right]])
      | .error fault =>
        ((.error fault, right :: left :: rest), calls ++ [.node op [left, right]]) := by
  rw [executeAll_cons, execute_apply]
  simp only [StateT.run_bind, run_recorded]
  cases adjust (.node op [left, right]) <;> rfl

theorem on_recorded_short (op : Op) {stack : Stack} (few : stack.length < 2) (code : List Instr)
    (calls : List Expr) :
    ((executeAll (recorded adjust) (.apply op :: code)).on stack).run calls =
      ((.error (.parse (.unexpected op.symbol.toString)), stack), calls) := by
  rw [executeAll_cons, execute_short _ op few, pure_bind]
  rfl

/-- Code does the same if the calls of `adjust` are recorded, and they are added to those that have
been recorded before. -/
theorem on_recorded (stack : Stack) (code : List Instr) (calls : List Expr) :
    ((executeAll (recorded adjust) code).on stack).run calls =
      ((executeAll (m := Id) adjust code).on stack, calls ++ built adjust stack code) := by
  induction code generalizing stack calls with
  | nil =>
    show _ = (_, calls ++ [])
    rw [List.append_nil]
    rfl
  | cons i code ih =>
    unfold built
    rw [executeAll_cons (m := Id)]
    obtain ⟨entry, executes⟩ := exists_executes adjust stack i
    cases executes with
    | pushed =>
      rw [on_recorded_push, on_recorded_push, execute_push, ih, ih]
      rfl
    | applied rest adjusted =>
      simp only [on_recorded_apply, execute_apply_id, adjusted]
      rw [ih, ih, List.append_assoc]
      rfl
    | refused rest failed =>
      simp only [on_recorded_apply, execute_apply_id, failed]
      rfl
    | short op few =>
      rw [on_recorded_short _ op few, on_recorded_short _ op few, execute_short _ op few,
        List.append_nil]
      rfl

theorem built_nil (stack : Stack) : built adjust stack [] = [] := rfl

theorem built_push (stack : Stack) (e : Expr) (code : List Instr) :
    built adjust stack (.push e :: code) = built adjust (e :: stack) code := by
  rw [built, on_recorded_push, built]

variable {adjust}

theorem built_of_applied {op : Op} {left right e : Expr} (rest : Stack)
    (adjusted : adjust (.node op [left, right]) = .ok e) (code : List Instr) :
    built adjust (right :: left :: rest) (.apply op :: code) =
      .node op [left, right] :: built adjust (e :: rest) code := by
  rw [built, on_recorded_apply]
  simp only [adjusted, on_recorded]
  rfl

end Calls

end ArithTree.Stack
