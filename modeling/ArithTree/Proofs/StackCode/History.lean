import ArithTree.Proofs.Reading.Conservation
import ArithTree.Proofs.Simplify.Faults

/-!
# Stack code that goes on after failures

An instruction either does all that it has to do or leaves the stack as it is, because nothing is
taken from the stack before everything that can fail has been done (`Stack.Executes`). A history is
made of such steps, each of which goes on from the stack that the one before it left, whether or not
it failed (`Stack.history_cons`). So what every step keeps holds of the stacks of a history: their
height is what was pushed less what was applied (`Stack.length_after`), and if applications are left
as they are, the leaves stay in the order in which they were pushed (`Stack.leavesAll_after`).

If applications are simplified, one is refused if and only if an argument of it is not well-formed
(`exists_simplified_iff`), which then is an expression that was pushed (`Stack.mem_after`).

Main statement: `Stack.history_is_atomic`.
-/

namespace ArithTree

open ArithTree.Expr

namespace Stack

variable {adjust : Expr → Except Fault Expr} {stack : Stack} {i : Instr}
  {entry : Stack × Option Fault}

/-! ## One instruction -/

/-- An instruction adds one expression if it is a push, and takes one away if it is an operator that
was applied. -/
theorem Executes.length_eq (h : Executes adjust stack i entry) :
    entry.1.length + (if i.op?.isSome && entry.2.isNone then 1 else 0) =
      stack.length + i.pushed?.toList.length := by
  cases h <;> simp [Instr.op?, Instr.pushed?]

/-- Without adjustments, the leaves on the stack stay in their order, the ones pushed last behind
all others. -/
theorem Executes.leavesAll_eq (h : Executes .ok stack i entry) :
    leavesAll entry.1.reverse = leavesAll stack.reverse ++ leavesAll i.pushed?.toList := by
  cases h with
  | pushed => simp [Instr.pushed?]
  | applied rest adjusted =>
    cases adjusted
    simp [Instr.pushed?]
  | refused rest failed => cases failed
  | short => simp [Instr.pushed?]

/-- An instruction that fails leaves the stack as it is. -/
theorem Executes.stack_eq (h : Executes adjust stack i entry) (failed : entry.2.isSome) :
    entry.1 = stack := by
  cases h with
  | pushed | applied => cases failed
  | refused | short => rfl

theorem Executes.mem_cases (h : Executes simplified stack i entry) {e : Expr} (he : e ∈ entry.1) :
    WellFormed e ∨ i = .push e ∨ e ∈ stack := by
  cases h with
  | pushed =>
    rcases List.mem_cons.1 he with rfl | he
    · exact .inr (.inl rfl)
    · exact .inr (.inr he)
  | applied rest adjusted =>
    rcases List.mem_cons.1 he with rfl | he
    · exact .inl (wellFormed_of_simplified adjusted)
    · exact .inr (.inr (List.mem_cons_of_mem _ (List.mem_cons_of_mem _ he)))
  | refused | short => exact .inr (.inr he)

/-! ## Histories -/

theorem history_cons (adjust : Expr → Except Fault Expr) (stack : Stack) (i : Instr)
    (code : List Instr) :
    history adjust stack (i :: code) =
      attempt adjust stack i :: history adjust (attempt adjust stack i).1 code := rfl

/-- The last stack of a history. -/
def after (adjust : Expr → Except Fault Expr) (stack : Stack) (code : List Instr) : Stack :=
  ((history adjust stack code).map (·.1)).getLastD stack

@[simp] theorem after_nil (adjust : Expr → Except Fault Expr) (stack : Stack) :
    after adjust stack [] = stack := rfl

theorem after_cons (adjust : Expr → Except Fault Expr) (stack : Stack) (i : Instr)
    (code : List Instr) :
    after adjust stack (i :: code) = after adjust (attempt adjust stack i).1 code := by
  rw [after, history_cons, List.map_cons, List.getLastD_cons, after]

/-- A history goes on from its last stack. -/
theorem history_append (adjust : Expr → Except Fault Expr) (stack : Stack)
    (code more : List Instr) :
    history adjust stack (code ++ more) =
      history adjust stack code ++ history adjust (after adjust stack code) more := by
  induction code generalizing stack with
  | nil => rfl
  | cons i code ih =>
    rw [List.cons_append, history_cons, ih, history_cons, after_cons, List.cons_append]

theorem filterMap_pushed?_cons (i : Instr) (code : List Instr) :
    (i :: code).filterMap Instr.pushed? = i.pushed?.toList ++ code.filterMap Instr.pushed? := by
  cases i <;> rfl

/-- How many operators are applied in the course of a history. -/
def successes (adjust : Expr → Except Fault Expr) (stack : Stack) (code : List Instr) : Nat :=
  (code.zip (history adjust stack code)).countP fun x => x.1.op?.isSome && x.2.2.isNone

theorem successes_cons (adjust : Expr → Except Fault Expr) (stack : Stack) (i : Instr)
    (code : List Instr) :
    successes adjust stack (i :: code) = successes adjust (attempt adjust stack i).1 code +
      if i.op?.isSome && (attempt adjust stack i).2.isNone then 1 else 0 := by
  rw [successes, history_cons, List.zip_cons_cons, List.countP_cons, successes]

/-- The height of the last stack is that of the first one and what was pushed, less what was
applied. -/
theorem length_after (adjust : Expr → Except Fault Expr) (stack : Stack) (code : List Instr) :
    (after adjust stack code).length + successes adjust stack code =
      stack.length + (code.filterMap Instr.pushed?).length := by
  induction code generalizing stack with
  | nil => rfl
  | cons i code ih =>
    have first := (executes_attempt adjust stack i).length_eq
    have rest := ih (attempt adjust stack i).1
    rw [after_cons, successes_cons, filterMap_pushed?_cons, List.length_append]
    omega

/-- Without adjustments, the leaves on the last stack are those on the first one and those that were
pushed, in this order. -/
theorem leavesAll_after (stack : Stack) (code : List Instr) :
    leavesAll (after .ok stack code).reverse =
      leavesAll stack.reverse ++ leavesAll (code.filterMap Instr.pushed?) := by
  induction code generalizing stack with
  | nil => simp
  | cons i code ih =>
    have first := (executes_attempt .ok stack i).leavesAll_eq
    rw [after_cons, ih, first, filterMap_pushed?_cons, leavesAll_append, List.append_assoc]

/-- What is not well-formed was there before or has been pushed. -/
theorem mem_after {code : List Instr} {e : Expr} (he : e ∈ after simplified stack code) :
    WellFormed e ∨ .push e ∈ code ∨ e ∈ stack := by
  induction code generalizing stack with
  | nil => exact .inr (.inr he)
  | cons i code ih =>
    rw [after_cons] at he
    rcases ih he with wf | pushed | before
    · exact .inl wf
    · exact .inr (.inl (List.mem_cons_of_mem _ pushed))
    · rcases (executes_attempt simplified stack i).mem_cases before with wf | rfl | before
      · exact .inl wf
      · exact .inr (.inl List.mem_cons_self)
      · exact .inr (.inr before)

/-- A history is made of instructions that are executed one after another, each on the stack that
the one before it left, and an instruction that fails leaves the stack as it was. Therefore the
height of the stack is always what was pushed less what was applied. Without adjustments, the leaves
on the stack are those that were pushed, in their order. If applications are simplified, one is
refused if and only if an argument of it is not well-formed, because of a number of arguments; and
such an argument has been pushed. -/
theorem history_is_atomic :
    (∀ adjust before i later, ∃ entry, Executes adjust (after adjust [] before) i entry ∧
      (entry.2.isSome → entry.1 = after adjust [] before) ∧
      history adjust [] (before ++ i :: later) =
        history adjust [] before ++ entry :: history adjust entry.1 later) ∧
      (∀ adjust code, (after adjust [] code).length + successes adjust [] code =
        (code.filterMap Instr.pushed?).length) ∧
      (∀ code, leavesAll (after .ok [] code).reverse =
        leavesAll (code.filterMap Instr.pushed?)) ∧
      (∀ op left right, (∃ e, simplified (.node op [left, right]) = .ok e) ↔
        WellFormed left ∧ WellFormed right) ∧
      (∀ e fault, simplified e = .error fault →
        ∃ op count, ¬ op.Admits count ∧ fault = .arity op count) ∧
      ∀ code, ∀ e ∈ after simplified [] code, WellFormed e ∨ Instr.push e ∈ code := by
  refine ⟨?_, ?_, ?_, ?_, fun _ _ => arity_of_simplified, ?_⟩
  · intro adjust before i later
    have executes := executes_attempt adjust (after adjust [] before) i
    refine ⟨_, executes, executes.stack_eq, ?_⟩
    rw [history_append, history_cons]
  · intro adjust code
    have height := length_after adjust [] code
    rwa [List.length_nil, Nat.zero_add] at height
  · intro code
    exact leavesAll_after [] code
  · intro op left right
    rw [exists_simplified_iff, wellFormed_pair]
  · intro code e he
    rcases mem_after he with wf | pushed | before
    · exact .inl wf
    · exact .inr pushed
    · cases before

/-- A quotient with one argument stays on the stack, and so does what is above it. -/
theorem history_is_atomic_of_short_quotient :
    let short : Expr := .node .div [.var "b"]
    let twice : Expr := .node .mul [ofInt 2, .var "c"]
    let code := [.apply .mul, .push short, .push (.var "c"), .push (.var "c"), .apply .add,
      .apply .sub]
    history simplified [] code = [([], some (.parse (.unexpected "*"))), ([short], none),
        ([.var "c", short], none), ([.var "c", .var "c", short], none), ([twice, short], none),
        ([twice, short], some (.arity .div 1))] ∧
      (after simplified [] code).length + successes simplified [] code = 3 ∧
      leavesAll (after .ok [] code).reverse = [.inr "b", .inr "c", .inr "c"] := by
  intro short twice code
  obtain ⟨_, heights, leaves, _⟩ := history_is_atomic
  refine ⟨by decide +kernel, heights simplified code, (leaves code).trans ?_⟩
  show leavesAll [short, .var "c", .var "c"] = _
  simp [short]

end Stack

end ArithTree
