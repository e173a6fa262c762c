import ArithTree.Proofs.Reading.Sentences
import ArithTree.Proofs.Simplify.Idempotence
import ArithTree.Proofs.Value.Preserved

/-!
# Reading with adjustments is a fold

An expression that is read while every application is adjusted is the one that is read without,
built up again from its leaves with every application adjusted (`Expr.foldM`, and `Expr.fold` if
adjusting cannot fail). The reason is that stack code which leaves one expression is the code of
that expression (`Stack.codes_of_run`): the code determines in which order the applications are
made, whatever becomes of them.

Main statement: `reading_folds`.
-/

namespace ArithTree

/-! ## Folds -/

namespace Expr

section Fold

variable (f : Expr → Expr)

mutual

/-- An expression built up again from its leaves, with `f` applied to every application once it has
been applied to those inside. -/
def fold : Expr → Expr
  | .num n => .num n
  | .var x => .var x
  | .node op args => f (.node op (foldAll args))

/-- All expressions of a list built up again. -/
def foldAll : List Expr → List Expr
  | [] => []
  | e :: es => fold e :: foldAll es

end

@[simp] theorem fold_num (n : Numeral) : fold f (.num n) = .num n := by rw [fold]

@[simp] theorem fold_var (x : String) : fold f (.var x) = .var x := by rw [fold]

theorem foldAll_eq_map (es : List Expr) : foldAll f es = es.map (fold f) := by
  induction es with
  | nil => rw [foldAll, List.map_nil]
  | cons e es ih => rw [foldAll, ih, List.map_cons]

theorem fold_node (op : Op) (args : List Expr) :
    fold f (.node op args) = f (.node op (args.map (fold f))) := by
  rw [fold, foldAll_eq_map]

/-- An application whose arguments have been built up again. -/
def foldArguments : Expr → Expr
  | .node op args => .node op (args.map (fold f))
  | e => e

end Fold

section FoldM

variable (adjust : Expr → Except Fault Expr)

mutual

/-- An expression built up again from its leaves, with every application adjusted once those inside
have been, from left to right. It ends with the first fault. -/
def foldM : Expr → Except Fault Expr
  | .num n => .ok (.num n)
  | .var x => .ok (.var x)
  | .node op args => do adjust (.node op (← foldMAll args))

/-- All expressions of a list built up again, from left to right. -/
def foldMAll : List Expr → Except Fault (List Expr)
  | [] => .ok []
  | e :: es => do
    let first ← foldM e
    let rest ← foldMAll es
    return first :: rest

end

theorem foldM_pair (op : Op) (left right : Expr) :
    foldM adjust (.node op [left, right]) =
      (foldM adjust left).bind fun left' => (foldM adjust right).bind fun right' =>
        adjust (.node op [left', right']) := by
  rw [foldM, foldMAll, foldMAll, foldMAll]
  cases foldM adjust left with
  | error fault => rfl
  | ok left' => cases foldM adjust right <;> rfl

/-- If adjusting cannot fail, nothing can. -/
theorem foldM_of_total (f : Expr → Expr) (e : Expr) :
    foldM (fun e => .ok (f e)) e = .ok (fold f e) := by
  have all {es : List Expr} (h : ∀ e ∈ es, foldM (fun e => .ok (f e)) e = .ok (fold f e)) :
      foldMAll (fun e => .ok (f e)) es = .ok (foldAll f es) := by
    induction es with
    | nil => rw [foldMAll, foldAll]
    | cons e es ih =>
      rw [List.forall_mem_cons] at h
      rw [foldMAll, h.1, ih h.2, foldAll]
      rfl
  induction e using Expr.induction with
  | num n => rw [foldM, fold_num]
  | var x => rw [foldM, fold_var]
  | node op args ih =>
    rw [foldM, all ih, fold]
    rfl

end FoldM

/-! ## Applications in their order -/

mutual

/-- The applications in an expression, each one after those inside it, from left to right. -/
def applications : Expr → List Expr
  | .num _ => []
  | .var _ => []
  | .node op args => applicationsAll args ++ [.node op args]

/-- The applications in all expressions of a list. -/
def applicationsAll : List Expr → List Expr
  | [] => []
  | e :: es => applications e ++ applicationsAll es

end

theorem applications_pair (op : Op) (left right : Expr) :
    (Expr.node op [left, right]).applications =
      left.applications ++ right.applications ++ [.node op [left, right]] := by
  rw [applications, applicationsAll, applicationsAll, applicationsAll, List.append_nil]

/-- The operator of an application. -/
def root? : Expr → Option Op
  | .node op _ => some op
  | _ => none

theorem root?_foldArguments (f : Expr → Expr) (e : Expr) :
    (foldArguments f e).root? = e.root? := by
  cases e <;> rfl

end Expr

open ArithTree.Expr

/-! ## The code of an expression -/

section Code

/-- Code with which expressions are built on the stack, the lowest one first. -/
def Stack.codes (stack : Stack) : List Instr := stack.reverse.flatMap Expr.code

/-- Code that leaves expressions on a stack builds them: what was run, after the code of what was
there, is the code of what is left. -/
theorem Stack.codes_of_run {code : List Instr}
    (push : ∀ e, Instr.push e ∈ code → e.code = [.push e]) {stack out : Stack}
    (h : Stack.run .ok stack code = .ok out) : stack.codes ++ code = out.codes := by
  induction code generalizing stack with
  | nil =>
    cases h
    rw [List.append_nil]
  | cons i code ih =>
    rw [Stack.run_cons] at h
    obtain ⟨next, hstep, hrest⟩ := ok_of_bind h
    have later := ih (fun e he => push e (List.mem_cons_of_mem _ he)) hrest
    rw [← later, ← List.singleton_append, ← List.append_assoc]
    congr 1
    cases Stack.executes_of_ok hstep with
    | pushed stack e => simp [codes, push e List.mem_cons_self]
    | applied rest adjusted =>
      cases adjusted
      simp [codes, Expr.code]

theorem Expr.IsLeafOf.code_eq {ts : List Token} {e : Expr} (h : e.IsLeafOf ts) :
    e.code = [.push e] := by
  rcases h with ⟨n, _, rfl⟩ | ⟨x, _, rfl⟩
  · rw [Expr.code]
    simp
  · rw [Expr.code]
    simp

/-- Code that is made of tokens is the code of the expressions that it leaves. -/
theorem Program.ReadsTo.codes_eq {ts : List Token} {code : List Instr} (h : ReadsTo [] ts code)
    {out : Stack} (hrun : Stack.run .ok [] code = .ok out) : code = out.codes :=
  Stack.codes_of_run (fun _ he => (h.isLeafOf he).code_eq) hrun

/-- The code that reads an expression is the code of the expression. -/
theorem code_of_parseTokens {ts : List Token} {e : Expr} (h : parseTokens .ok ts = .ok e) :
    Program.ofTokens ts = ⟨e.code, none⟩ := by
  obtain ⟨hrun, herror⟩ := Program.eval_eq_ok.1 h
  have codes : (Program.ofTokens ts).code = Stack.codes [e] :=
    (Program.readsTo_of_error herror).codes_eq hrun
  rw [Stack.codes, List.reverse_singleton, List.flatMap_singleton] at codes
  rw [← codes, ← herror]

theorem binary_of_parseTokens {ts : List Token} {e : Expr} (h : parseTokens .ok ts = .ok e) :
    Binary e := everywhere_of_parseTokens (fun _ _ _ => rfl) h

/-- The code of an expression builds it up again, whatever becomes of its applications. -/
theorem Stack.run_code_adjusted (adjust : Expr → Except Fault Expr) {e : Expr} (binary : Binary e)
    (stack : Stack) :
    Stack.run adjust stack e.code = (e.foldM adjust).map (· :: stack) := by
  induction binary using Binary.induction generalizing stack with
  | num n =>
    rw [Expr.foldM]
    rfl
  | var x =>
    rw [Expr.foldM]
    rfl
  | pair op left right _ _ ihl ihr =>
    rw [Expr.code, Stack.run_append, Stack.run_append, ihl, foldM_pair]
    cases left.foldM adjust with
    | error fault => rfl
    | ok left' =>
      show (Stack.run adjust (left' :: stack) right.code).bind _ = _
      rw [ihr]
      cases right.foldM adjust with
      | error fault => rfl
      | ok right' =>
        show Stack.run adjust (right' :: left' :: stack) [.apply op] =
          (adjust (.node op [left', right'])).map _
        rw [Stack.run_cons, Stack.step_apply]
        cases adjust (.node op [left', right']) <;> rfl

/-- What is read with adjustments is built up again from what is read without. -/
theorem parseTokens_eq_foldM {ts : List Token} {e : Expr} (h : parseTokens .ok ts = .ok e)
    (adjust : Expr → Except Fault Expr) : parseTokens adjust ts = e.foldM adjust := by
  rw [parseTokens, code_of_parseTokens h]
  show ((Stack.run adjust [] e.code).bind _) = _
  rw [Stack.run_code_adjusted adjust (binary_of_parseTokens h)]
  cases e.foldM adjust <;> rfl

/-- Adjusting applications does not make more tokens readable. -/
theorem exists_parseTokens {adjust : Expr → Except Fault Expr} {ts : List Token} {e : Expr}
    (h : parseTokens adjust ts = .ok e) : ∃ e', parseTokens .ok ts = .ok e' := by
  have simulates : Simulates (fun _ _ => True) adjust .ok :=
    fun _ {_ _ _ _ _} _ _ _ => ⟨_, rfl, trivial⟩
  obtain ⟨e', read, _⟩ := parseTokens_related simulates (fun _ _ => trivial) h
  exact ⟨e', read⟩

/-! ## What is adjusted -/

/-- The code of an expression hands its applications to `f` in their order, with arguments that have
been built up again. -/
theorem Stack.built_code_append (f : Expr → Expr) {e : Expr} (binary : Binary e) (stack : Stack)
    (more : List Instr) :
    Stack.built (fun e => .ok (f e)) stack (e.code ++ more) =
      e.applications.map (foldArguments f) ++
        Stack.built (fun e => .ok (f e)) (e.fold f :: stack) more := by
  induction binary using Binary.induction generalizing stack more with
  | num n =>
    rw [fold_num, applications]
    exact Stack.built_push _ _ _ _
  | var x =>
    rw [fold_var, applications]
    exact Stack.built_push _ _ _ _
  | pair op left right _ _ ihl ihr =>
    have applied := @Stack.built_of_applied (fun e => .ok (f e)) op (left.fold f) (right.fold f) _
      stack rfl more
    rw [Expr.code, List.append_assoc, List.append_assoc, ihl, ihr, applications_pair, fold_node,
      List.singleton_append, applied]
    simp only [List.map_append, List.map_cons, List.map_nil, List.append_assoc, foldArguments,
      List.singleton_append]

theorem builtTokens_eq_applications {ts : List Token} {e : Expr} (h : parseTokens .ok ts = .ok e)
    (f : Expr → Expr) :
    builtTokens (fun e => .ok (f e)) ts = e.applications.map (foldArguments f) := by
  have built := Stack.built_code_append f (binary_of_parseTokens h) [] []
  rw [List.append_nil] at built
  rw [builtTokens, code_of_parseTokens h, built, Stack.built_nil, List.append_nil]

end Code

/-! ## Operators -/

/-- The operator that a token stands for. -/
def Token.op? : Token → Option Op
  | .op o => some o
  | _ => none

/-- The operator that is held. -/
def Held.op? : Held → Option Op
  | .op o => some o
  | .opening => none

/-- The operator that an instruction applies. -/
def Instr.op? : Instr → Option Op
  | .push _ => none
  | .apply o => some o

theorem filterMap_op?_applied (spine : List Op) : (applied spine).filterMap Instr.op? = spine := by
  rw [applied, List.filterMap_map]
  exact List.filterMap_some

theorem filterMap_op?_held (spine : List Op) : (spine.map Held.op).filterMap Held.op? = spine := by
  rw [List.filterMap_map]
  exact List.filterMap_some

/-- The code of tokens that are read to their end applies each of their operators once, and each of
those that were held. -/
theorem Program.ReadsTo.ops_perm {held : List Held} {ts : List Token} {code : List Instr}
    (h : ReadsTo held ts code) :
    (code.filterMap Instr.op?).Perm (held.filterMap Held.op? ++ ts.filterMap Token.op?) := by
  induction h with
  | done spine =>
    rw [filterMap_op?_applied, filterMap_op?_held]
    simp
  | @leaf t e ht _ _ _ _ ih =>
    cases t with
    | num | var => exact ih
    | _ => cases ht
  | op o spine _ ih =>
    simp only [List.filterMap_append, filterMap_op?_applied, filterMap_op?_held, List.append_assoc]
    exact (ih.append_left spine).trans ((List.perm_middle.symm).append_left spine)
  | opening _ ih => exact ih
  | closing spine _ ih =>
    simp only [List.filterMap_append, filterMap_op?_applied, filterMap_op?_held, List.append_assoc]
    exact ih.append_left spine

/-- The code of an expression applies the operators of its applications in their order. -/
theorem map_root?_applications {e : Expr} (binary : Binary e) :
    e.applications.map root? = (e.code.filterMap Instr.op?).map some := by
  induction binary using Binary.induction with
  | num n =>
    rw [applications]
    rfl
  | var x =>
    rw [applications]
    rfl
  | pair op left right _ _ ihl ihr =>
    rw [applications_pair, Expr.code]
    simp only [List.map_append, List.filterMap_append, ihl, ihr]
    rfl

/-! ## Reading -/

/-- Reading with adjustments. If `f` is applied to every application, what is read is the fold of
what is read without; `f` is applied to the applications in their order, with arguments to which it
has been applied, and once for each operator among the tokens. If every application is simplified
while a text is read, what is read is that fold as well. -/
theorem reading_folds :
    (∀ (f : Expr → Expr) (ts : List Token),
      ((∃ r, parseTokens (fun e => .ok (f e)) ts = .ok r) ↔ ∃ e, parseTokens .ok ts = .ok e) ∧
      ∀ e, parseTokens .ok ts = .ok e →
        parseTokens (fun e => .ok (f e)) ts = .ok (e.fold f) ∧
        builtTokens (fun e => .ok (f e)) ts = e.applications.map (foldArguments f) ∧
        ((builtTokens (fun e => .ok (f e)) ts).map root?).Perm
          ((ts.filterMap Token.op?).map some)) ∧
    ∀ s : String,
      ((∃ r, read .eager s = .ok r) ↔ ∃ e, parse s = .ok e) ∧
      ∀ e, parse s = .ok e →
        read .eager s = e.foldM simplified ∧ ∃ r, e.foldM simplified = .ok r := by
  refine ⟨fun f ts => ⟨⟨?_, ?_⟩, ?_⟩, fun s => ⟨⟨?_, ?_⟩, ?_⟩⟩
  · rintro ⟨r, h⟩
    exact exists_parseTokens h
  · rintro ⟨e, h⟩
    exact ⟨e.fold f, (parseTokens_eq_foldM h _).trans (foldM_of_total f e)⟩
  · intro e h
    have built := builtTokens_eq_applications h f
    refine ⟨(parseTokens_eq_foldM h _).trans (foldM_of_total f e), built, ?_⟩
    have error : (Program.ofTokensFrom [] ts).error = none := (Program.eval_eq_ok.1 h).2
    have ops := (Program.readsTo_of_error error).ops_perm.map some
    change (((Program.ofTokens ts).code.filterMap Instr.op?).map some).Perm _ at ops
    rw [code_of_parseTokens h] at ops
    rw [built, List.map_map]
    simp only [Function.comp_def, root?_foldArguments]
    rw [map_root?_applications (binary_of_parseTokens h)]
    exact ops
  · rintro ⟨r, h⟩
    exact exists_parseTokens h
  · rintro ⟨e, h⟩
    obtain ⟨r, eager, _⟩ := exists_eager_refines h
    exact ⟨r, eager⟩
  · intro e h
    obtain ⟨r, eager, _⟩ := exists_eager_refines h
    have folded : read .eager s = e.foldM simplified := parseTokens_eq_foldM h simplified
    exact ⟨folded, r, folded.symm.trans eager⟩

/-- Exchanging the arguments of every application while `a - b * c - d` is read. -/
theorem reading_folds_of_difference :
    let f : Expr → Expr := fun e => match e with
      | .node op args => .node op args.reverse
      | e => e
    let product := node .mul [.var "b", .var "c"]
    let product' := node .mul [.var "c", .var "b"]
    let e := node .sub [node .sub [.var "a", product], .var "d"]
    let ts := tokens "a - b * c - d"
    parse "a - b * c - d" = .ok e ∧
      parseTokens (fun e => .ok (f e)) ts =
        .ok (node .sub [.var "d", node .sub [product', .var "a"]]) ∧
      builtTokens (fun e => .ok (f e)) ts =
        [product, node .sub [.var "a", product'],
          node .sub [node .sub [product', .var "a"], .var "d"]] ∧
      read .eager "a - b * c - d" = e.foldM simplified := by
  intro f product product' e ts
  have hparse : parse "a - b * c - d" = .ok e := by decide +kernel
  obtain ⟨folded, built, _⟩ := (reading_folds.1 f ts).2 e hparse
  refine ⟨hparse, folded.trans ?_, built.trans ?_, ((reading_folds.2 _).2 e hparse).1⟩
  · decide +kernel
  · decide +kernel

end ArithTree
