import ArithTree.Expr.Parser
import ArithTree.Proofs.Reading.Spine
import ArithTree.Proofs.StackCode.Steps
import Mathlib.Data.List.Forall2

/-!
# Reading with adjustments

An expression is read by stack code that pushes numerals and variables and applies operators, and
every application may be adjusted. Two ways of adjusting are compared here: if they make related
expressions out of related arguments, then reading the same tokens gives related expressions
(`parseTokens_related`). One step of the stack code keeps two stacks related (`Stack.step_related`),
and so does all of it (`Stack.run_related`).
-/

namespace ArithTree

open ArithTree.Expr

/-- Takes a computation apart that ended well. -/
theorem ok_of_bind {α β : Type} {x : Except Fault α} {f : α → Except Fault β} {b : β}
    (h : x.bind f = .ok b) : ∃ a, x = .ok a ∧ f a = .ok b := by
  cases x with
  | error fault => cases h
  | ok a => exact ⟨a, rfl, h⟩

/-! ## Stack code -/

section Related

variable {R : Expr → Expr → Prop} {adjust adjust' : Expr → Except Fault Expr}

/-- The two ways of adjusting an application make related expressions out of related arguments,
whenever the first one succeeds. -/
def Simulates (R : Expr → Expr → Prop) (adjust adjust' : Expr → Except Fault Expr) : Prop :=
  ∀ op {left left' right right' e}, R left left' → R right right' →
    adjust (.node op [left, right]) = .ok e →
    ∃ e', adjust' (.node op [left', right']) = .ok e' ∧ R e e'

theorem Stack.step_related (simulates : Simulates R adjust adjust') {i : Instr}
    (push : ∀ e, i = .push e → R e e) {stack stack' next : Stack}
    (h : List.Forall₂ R stack stack') (hstep : Stack.step adjust stack i = .ok next) :
    ∃ next', Stack.step adjust' stack' i = .ok next' ∧ List.Forall₂ R next next' := by
  cases Stack.executes_of_ok hstep with
  | pushed stack e => exact ⟨_, rfl, .cons (push e rfl) h⟩
  | applied rest adjusted =>
    obtain ⟨right', below, right, lower, rfl⟩ := List.forall₂_cons_left_iff.1 h
    obtain ⟨left', rest', left, rest, rfl⟩ := List.forall₂_cons_left_iff.1 lower
    obtain ⟨e', adjusted', related⟩ := simulates _ left right adjusted
    exact ⟨_, by rw [Stack.step_apply, adjusted']; rfl, .cons related rest⟩

/-- All of the code keeps two stacks related. -/
theorem Stack.run_related (simulates : Simulates R adjust adjust') {code : List Instr}
    (push : ∀ e, Instr.push e ∈ code → R e e) {stack stack' out : Stack}
    (h : List.Forall₂ R stack stack') (hrun : Stack.run adjust stack code = .ok out) :
    ∃ out', Stack.run adjust' stack' code = .ok out' ∧ List.Forall₂ R out out' := by
  induction code generalizing stack stack' with
  | nil =>
    cases hrun
    exact ⟨stack', rfl, h⟩
  | cons i code ih =>
    rw [Stack.run_cons] at hrun
    obtain ⟨next, hstep, hrest⟩ := ok_of_bind hrun
    have first : ∀ e, i = .push e → R e e := by
      intro e he
      exact push e (he ▸ List.mem_cons_self)
    obtain ⟨next', hstep', hnext⟩ := Stack.step_related simulates first h hstep
    have rest : ∀ e, Instr.push e ∈ code → R e e := by
      intro e he
      exact push e (List.mem_cons_of_mem _ he)
    obtain ⟨out', hrest', hout⟩ := ih rest hnext hrest
    refine ⟨out', ?_, hout⟩
    rw [Stack.run_cons, hstep']
    exact hrest'

/-- Reading leaves the only expression of a stack. -/
theorem Stack.sole_eq_ok {stack : Stack} {e : Expr} : stack.sole = .ok e ↔ stack = [e] := by
  constructor
  · intro h
    unfold Stack.sole at h
    split at h
    · next last =>
      cases h
      exact List.reverse_eq_iff.1 last
    · cases h
    · obtain ⟨_, _, impossible⟩ := ok_of_bind h
      cases impossible
  · rintro rfl
    rfl

theorem Program.eval_eq_ok {p : Program} {e : Expr} :
    p.eval adjust = .ok e ↔ Stack.run adjust [] p.code = .ok [e] ∧ p.error = none := by
  constructor
  · intro h
    obtain ⟨stack, hrun, h⟩ := ok_of_bind h
    cases herror : p.error with
    | some error =>
      rw [herror] at h
      cases h
    | none =>
      rw [herror] at h
      rw [Stack.sole_eq_ok.1 h] at hrun
      exact ⟨hrun, rfl⟩
  · rintro ⟨hrun, herror⟩
    unfold Program.eval
    rw [hrun, herror]
    rfl

end Related

/-! ## What is pushed -/

/-- A numeral or a variable that stands among the tokens. -/
def Expr.IsLeafOf (ts : List Token) (e : Expr) : Prop :=
  (∃ n, .num n ∈ ts ∧ e = .num n) ∨ ∃ x, .var x ∈ ts ∧ e = .var x

theorem Expr.IsLeafOf.cons {ts : List Token} {e : Expr} (h : e.IsLeafOf ts) (t : Token) :
    e.IsLeafOf (t :: ts) := by
  rcases h with ⟨n, hn, rfl⟩ | ⟨x, hx, rfl⟩
  · exact .inl ⟨n, List.mem_cons_of_mem t hn, rfl⟩
  · exact .inr ⟨x, List.mem_cons_of_mem t hx, rfl⟩

theorem Expr.isLeafOf_of_leaf? {t : Token} {e : Expr} (h : t.leaf? = some e) (ts : List Token) :
    e.IsLeafOf (t :: ts) := by
  cases t with
  | num n =>
    cases h
    exact .inl ⟨n, List.mem_cons_self, rfl⟩
  | var x =>
    cases h
    exact .inr ⟨x, List.mem_cons_self, rfl⟩
  | _ => cases h

/-- All that is pushed are numerals and variables that stand among the tokens. -/
theorem Program.ReadsTo.isLeafOf {held : List Held} {ts : List Token} {code : List Instr}
    (h : ReadsTo held ts code) {e : Expr} (he : Instr.push e ∈ code) : e.IsLeafOf ts := by
  have push (spine : List Op) : Instr.push e ∉ applied spine := by simp [applied]
  induction h with
  | done spine => exact absurd he (push spine)
  | leaf ht _ ih =>
    rcases List.mem_cons.1 he with he | he
    · cases he
      exact isLeafOf_of_leaf? ht _
    · exact (ih he).cons _
  | op o spine _ ih | closing spine _ ih =>
    exact (ih ((List.mem_append.1 he).resolve_left (push spine))).cons _
  | opening _ ih => exact (ih he).cons _

/-! ## Tokens and texts -/

/-- Related ways of adjusting read related expressions from the same tokens. -/
theorem parseTokens_related {R : Expr → Expr → Prop} {adjust adjust' : Expr → Except Fault Expr}
    (simulates : Simulates R adjust adjust') {ts : List Token}
    (leaf : ∀ e, e.IsLeafOf ts → R e e) {e : Expr} (h : parseTokens adjust ts = .ok e) :
    ∃ e', parseTokens adjust' ts = .ok e' ∧ R e e' := by
  obtain ⟨hrun, herror⟩ := Program.eval_eq_ok.1 h
  have push : ∀ e, Instr.push e ∈ (Program.ofTokens ts).code → R e e := by
    intro e he
    exact leaf e ((Program.readsTo_of_error herror).isLeafOf he)
  obtain ⟨out', hrun', related⟩ := Stack.run_related simulates push .nil hrun
  obtain ⟨e', _, hroot, hnil, rfl⟩ := List.forall₂_cons_left_iff.1 related
  cases hnil
  exact ⟨e', Program.eval_eq_ok.2 ⟨hrun', herror⟩, hroot⟩

/-- Related ways of adjusting read related expressions from the same text. -/
theorem Expr.parseWith_related {R : Expr → Expr → Prop}
    {adjust adjust' : Expr → Except Fault Expr} (simulates : Simulates R adjust adjust')
    {s : String} (leaf : ∀ e, e.IsLeafOf (tokens s) → R e e) {e : Expr}
    (h : parseWith adjust s = .ok e) :
    ∃ e', parseWith adjust' s = .ok e' ∧ R e e' :=
  parseTokens_related simulates leaf h

end ArithTree
