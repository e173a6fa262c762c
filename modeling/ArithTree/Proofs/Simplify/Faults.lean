import ArithTree.Proofs.Simplify.Iteration
import ArithTree.Proofs.Simplify.Several

/-!
# When a pass fails

A pass looks into every application of an expression: if a rule acts, and the arguments that it
makes are well-formed, then so were those that it was given (`Rewrites.wellFormed_of_arguments`).
Therefore a pass fails if and only if a difference, quotient or power somewhere in the expression
does not have two arguments, and it fails for no other reason.

In particular, no rule asks an operator for a value that it does not have. `Op.value` says which
these are: it has an error for a quotient by zero and for a power with a negative exponent. With
rules that get their values from it, and end with such an error, a pass is the same
(`passByValue_eq`).

Main statement: `pass_fails_iff`.
-/

namespace ArithTree.Expr

/-! ## Arguments that are not well-formed -/

theorem wellFormed_of_chainTermsAll {op : Op} (chain : op = .add ∨ op = .mul) {es : List Expr}
    (h : ∀ t ∈ chainTermsAll op es, WellFormed t) : ∀ e ∈ es, WellFormed e := by
  refine chainTermsAll_induction (motive := fun es ts => (∀ t ∈ ts, WellFormed t) →
    ∀ e ∈ es, WellFormed e) ?nil ?single ?splice es h
  case nil => simp
  case single =>
    intro e es ts _ ih h
    rw [List.forall_mem_cons] at h ⊢
    exact ⟨h.1, ih h.2⟩
  case splice =>
    intro args es ts ts' ihargs ihes h
    rw [List.forall_mem_append] at h
    rw [List.forall_mem_cons, wellFormed_node]
    exact ⟨⟨chain.imp_right .inl, ihargs h.1⟩, ihes h.2⟩

/-- Collecting terms drops none but numerals and what counts as a variable. -/
theorem wellFormed_of_collected {c : Chain} {args : List Expr}
    (h : ∀ e ∈ c.collected args, WellFormed e) : ∀ a ∈ args, WellFormed a := by
  intro a ha
  cases constant : a.constant? with
  | some n =>
    cases a with
    | num m => exact everywhere_num _ m
    | var | node => cases constant
  | none =>
    cases counted : a.occurrences? c.repetition with
    | some t =>
      rcases Chain.occurrences?_eq_some counted with ⟨rfl, _⟩ | ⟨k, _, _, rfl | ⟨_, rfl⟩⟩
      · exact everywhere_var _ _
      · exact wellFormed_pair.2 ⟨everywhere_var _ _, everywhere_num _ k⟩
      · exact wellFormed_pair.2 ⟨everywhere_num _ k, everywhere_var _ _⟩
    | none =>
      have other : a ∈ c.others args := List.mem_filter.2 ⟨ha, by simp [constant, counted]⟩
      apply h
      rw [Chain.collected_eq]
      simp [other]

/-- A rule acts on a well-formed application only, if the arguments that it makes are
well-formed. -/
theorem Rewrites.wellFormed_of_arguments {op : Op} {args : List Expr} {r : Expr}
    (h : Rewrites op args r)
    (wf : ∀ op' args', r = .node op' args' → ∀ e ∈ args', WellFormed e) :
    WellFormed (.node op args) := by
  cases h with
  | difference left right =>
    have wf := wf _ _ rfl
    simp only [List.forall_mem_cons, wellFormed_pair] at wf
    exact wellFormed_pair.2 ⟨wf.1, wf.2.1.2⟩
  | sum =>
    exact wellFormed_add.2
      (wellFormed_of_chainTermsAll (.inl rfl) (wellFormed_of_collected (wf _ _ rfl)))
  | product =>
    exact wellFormed_mul.2
      (wellFormed_of_chainTermsAll (.inr rfl) (wellFormed_of_collected (wf _ _ rfl)))
  | hoist after numer denom =>
    have wf := wf _ _ rfl
    simp only [List.forall_mem_cons, wellFormed_mul, List.forall_mem_append] at wf
    simp only [wellFormed_mul, List.forall_mem_append, List.forall_mem_cons, wellFormed_pair]
    exact ⟨wf.1.1.1, ⟨wf.1.2.1, wf.2.1⟩, wf.1.1.2⟩
  | leftQuotient a b =>
    have wf := wf _ _ rfl
    simp only [List.forall_mem_cons, wellFormed_pair] at wf
    exact wellFormed_pair.2 ⟨wellFormed_pair.2 ⟨wf.1, wf.2.1.1⟩, wf.2.1.2⟩
  | rightQuotient b c =>
    have wf := wf _ _ rfl
    simp only [List.forall_mem_cons, wellFormed_pair] at wf
    exact wellFormed_pair.2 ⟨wf.1.1, wellFormed_pair.2 ⟨wf.2.1, wf.1.2⟩⟩
  | whole | fraction | evaluated =>
    exact wellFormed_pair.2 ⟨everywhere_num _ _, everywhere_num _ _⟩
  | quotient | power =>
    have wf := wf _ _ rfl
    simp only [List.forall_mem_cons] at wf
    exact wellFormed_pair.2 ⟨wf.1, wf.2.1⟩

/-! ## Passes -/

/-- A pass over an application ends well if its rule acts and the passes over the new
arguments do. -/
theorem pass_node_eq_ok {op : Op} {args : List Expr} {e' : Expr}
    (h : pass (.node op args) = .ok e') :
    ∃ r, applyRule op args = .ok r ∧
      ∀ op' args', r = .node op' args' → ∀ a ∈ args', ∃ a', pass a = .ok a' := by
  rw [pass_node] at h
  obtain ⟨r, applied, h⟩ := ok_of_bind h
  refine ⟨r, applied, ?_⟩
  rintro op' args' rfl a ha
  change (args'.mapM pass).map (collapse op') = .ok e' at h
  cases passed : args'.mapM pass with
  | error fault =>
    rw [passed] at h
    cases h
  | ok results =>
    obtain ⟨front, back, rfl⟩ := List.append_of_mem ha
    obtain ⟨_, rest, _, hback, _⟩ := forall₂_append_left (mapM_ok_iff.1 passed)
    obtain ⟨a', _, hpass, _, _⟩ := List.forall₂_cons_left_iff.1 hback
    exact ⟨a', hpass⟩

/-- A pass that does not fail was made over a well-formed expression. -/
theorem wellFormed_of_pass {e e' : Expr} (h : pass e = .ok e') : WellFormed e := by
  induction hw : e.weight using Nat.strongRecOn generalizing e e' with
  | ind w ih =>
    cases e with
    | num n => exact everywhere_num _ n
    | var x => exact everywhere_var _ x
    | node op args =>
      obtain ⟨r, applied, passed⟩ := pass_node_eq_ok h
      apply (rewrites_of_applyRule applied).wellFormed_of_arguments
      rintro op' args' rfl a ha
      obtain ⟨a', ha'⟩ := passed op' args' rfl a ha
      exact ih a.weight (hw ▸ weight_lt_of_applyRule applied ha) ha' rfl

theorem mapM_error {args : List Expr} {fault : Fault} (h : args.mapM pass = .error fault) :
    ∃ a ∈ args, pass a = .error fault := by
  induction args with
  | nil => cases h
  | cons a as ih =>
    rw [List.mapM_cons] at h
    cases ha : pass a with
    | error fault' =>
      rw [ha] at h
      cases h
      exact ⟨a, List.mem_cons_self, ha⟩
    | ok b =>
      cases has : as.mapM pass with
      | error fault' =>
        rw [ha, has] at h
        cases h
        obtain ⟨a', ha', failed⟩ := ih has
        exact ⟨a', List.mem_cons_of_mem a ha', failed⟩
      | ok bs =>
        rw [ha, has] at h
        cases h

/-- A pass fails for no other reason than a number of arguments. -/
theorem arity_of_pass {e : Expr} {fault : Fault} (h : pass e = .error fault) :
    ∃ op count, ¬ op.Admits count ∧ fault = .arity op count := by
  induction hw : e.weight using Nat.strongRecOn generalizing e with
  | ind w ih =>
    cases e with
    | num n => cases h.symm.trans (pass_num n)
    | var x => cases h.symm.trans (pass_var x)
    | node op args =>
      rw [pass_node] at h
      cases applied : applyRule op args with
      | error fault' =>
        rw [applied] at h
        cases h
        cases refuses_of_applyRule applied with
        | application misfit => exact ⟨op, _, misfit, rfl⟩
        | argument _ two => exact ⟨.div, _, by simp [Op.Admits, two], rfl⟩
      | ok r =>
        rw [applied] at h
        cases r with
        | num n => cases h
        | var x => cases h
        | node op' args' =>
          change (args'.mapM pass).map (collapse op') = .error fault at h
          cases passed : args'.mapM pass with
          | ok results =>
            rw [passed] at h
            cases h
          | error fault' =>
            rw [passed] at h
            cases h
            obtain ⟨a, ha, failed⟩ := mapM_error passed
            exact ih a.weight (hw ▸ weight_lt_of_applyRule applied ha) failed rfl

/-! ## When a simplification fails -/

theorem arity_of_passTimes {e : Expr} {n : Nat} {fault : Fault}
    (h : e.passTimes n = .error fault) : ∃ op count, ¬ op.Admits count ∧ fault = .arity op count := by
  induction n generalizing e with
  | zero => cases h
  | succ n ih =>
    rw [passTimes] at h
    cases passed : pass e with
    | error fault' =>
      rw [passed] at h
      cases h
      exact arity_of_pass passed
    | ok next =>
      rw [passed] at h
      exact ih h

/-- An expression can be simplified if and only if it is well-formed. -/
theorem exists_simplified_iff {e : Expr} : (∃ e', simplified e = .ok e') ↔ WellFormed e := by
  constructor
  · rintro ⟨e', h⟩
    -- There is a first pass, and it looks into all of the expression.
    obtain ⟨left, hleft⟩ : ∃ left, maxPasses = left + 1 := ⟨999, rfl⟩
    rw [simplified_eq_passTimes, hleft, passTimes] at h
    cases passed : pass e with
    | error fault =>
      rw [passed] at h
      cases h
    | ok next => exact wellFormed_of_pass passed
  · intro wf
    obtain ⟨e', times, _⟩ := exists_passTimes (fun _ => exists_pass) wf maxPasses
    exact ⟨e', by rw [simplified_eq_passTimes, times]⟩

theorem wellFormed_of_simplified {e e' : Expr} (h : simplified e = .ok e') : WellFormed e' := by
  have wf : WellFormed e := exists_simplified_iff.1 ⟨e', h⟩
  obtain ⟨_, times, wf'⟩ := exists_passTimes (fun _ => exists_pass) wf maxPasses
  rw [simplified_eq_passTimes, times] at h
  cases h
  exact wf'

/-- A simplification fails for no other reason than a pass does. -/
theorem arity_of_simplified {e : Expr} {fault : Fault} (h : simplified e = .error fault) :
    ∃ op count, ¬ op.Admits count ∧ fault = .arity op count := by
  rw [simplified_eq_passTimes] at h
  exact arity_of_passTimes h

/-! ## Values that are asked for -/

/-- Why a pass that asks operators for their values has no result. -/
inductive Failure where
  | fault (fault : Fault)
  | arithmetic (error : ArithmeticError)
deriving DecidableEq

/-- Asks operators for their values, whether they have one or not. -/
def asking : Evaluator Failure where
  fault := .fault
  value op a b _ := (op.value a b).mapError .arithmetic

/-- One pass over an expression, with rules that ask operators for their values. -/
def passByValue (e : Expr) : Except Failure Expr := passWith asking e

section Faithful

variable {ε : Type} {k : Evaluator ε}

theorem mapM_mapError {es : List Expr} (h : ∀ e ∈ es, passWith k e = (pass e).mapError k.fault) :
    es.mapM (passWith k) = (es.mapM pass).mapError k.fault := by
  induction es with
  | nil => rfl
  | cons e es ih =>
    rw [List.forall_mem_cons] at h
    rw [List.mapM_cons, List.mapM_cons, h.1, ih h.2]
    cases pass e with
    | error fault => rfl
    | ok e' => cases es.mapM pass <;> rfl

variable (faithful : ∀ op a b h, k.value op a b h = .ok (op.exact a b h))

include faithful

theorem value_mapError (op : Op) (a b : Int) (h : op.Defined b) :
    (k.value op a b h).map Value.toExpr =
      ((Evaluator.exact.value op a b h).map Value.toExpr).mapError k.fault := by
  rw [faithful]
  rfl

theorem quotientRule_mapError (left right : Expr) :
    quotientRule k left right = (quotientRule .exact left right).mapError k.fault := by
  unfold quotientRule
  split
  case h_6 a b =>
    by_cases zero : b.value = 0
    · rw [dif_pos zero, dif_pos zero]
      rfl
    · rw [dif_neg zero, dif_neg zero]
      exact value_mapError faithful .div a.value b.value zero
  all_goals rfl

theorem powerRule_mapError (base exponent : Expr) :
    powerRule k base exponent = (powerRule .exact base exponent).mapError k.fault := by
  unfold powerRule
  split
  · next b e =>
    by_cases h : 0 ≤ e.value ∧ PowerCompact b.value e.value.toNat
    · rw [dif_pos h, dif_pos h]
      exact value_mapError faithful .pow b.value e.value h.1
    · rw [dif_neg h, dif_neg h]
      rfl
  · rfl

/-- A rule that is given the values of operators acts as with exact values. -/
theorem applyRuleWith_mapError (op : Op) (args : List Expr) :
    applyRuleWith k op args = (applyRule op args).mapError k.fault := by
  show _ = (applyRuleWith .exact op args).mapError k.fault
  unfold applyRuleWith
  split
  case h_2 args =>
    unfold productRule
    split <;> rfl
  case h_4 left right => exact quotientRule_mapError faithful left right
  case h_5 base exponent => exact powerRule_mapError faithful base exponent
  all_goals rfl

/-- A pass that is given the values of operators acts as with exact values. -/
theorem passWith_mapError (e : Expr) : passWith k e = (pass e).mapError k.fault := by
  induction hw : e.weight using Nat.strongRecOn generalizing e with
  | ind w ih =>
    cases e with
    | num n => rw [passWith_num, pass_num]; rfl
    | var x => rw [passWith_var, pass_var]; rfl
    | node op args =>
      rw [passWith_node, pass_node, applyRuleWith_mapError faithful]
      cases applied : applyRule op args with
      | error fault => rfl
      | ok r =>
        cases r with
        | num n => rfl
        | var x => rfl
        | node op' args' =>
          show (args'.mapM (passWith k)).map (collapse op') =
            ((args'.mapM pass).map (collapse op')).mapError k.fault
          rw [mapM_mapError fun a ha =>
            ih a.weight (hw ▸ weight_lt_of_applyRule applied ha) a rfl]
          cases args'.mapM pass <;> rfl

end Faithful

/-- No rule asks an operator for a value that it does not have. -/
theorem passByValue_eq (e : Expr) : passByValue e = (pass e).mapError .fault := by
  refine passWith_mapError (k := asking) ?_ e
  intro op a b h
  show (op.value a b).mapError Failure.arithmetic = _
  rw [op.value_eq h]
  rfl

/-! ## Main statement -/

/-- A pass fails if and only if some application has a number of arguments that its operator cannot
have, and for no other reason; what a pass gives is well-formed. No rule asks for a value that does
not exist. Therefore no number of passes over what is read from a text fails. -/
theorem pass_fails_iff :
    (∀ e : Expr,
      ((∃ fault, pass e = .error fault) ↔ ¬ WellFormed e) ∧
      (∀ fault, pass e = .error fault →
        ∃ op count, ¬ op.Admits count ∧ fault = .arity op count) ∧
      (WellFormed e → ∃ e', pass e = .ok e' ∧ WellFormed e') ∧
      passByValue e = (pass e).mapError .fault) ∧
    ∀ (s : String) (e : Expr), parse s = .ok e →
      ∀ allowed : Int, ∃ r, simplifyWithin allowed e = .ok r := by
  refine ⟨fun e => ⟨⟨?_, ?_⟩, ?_, exists_pass, passByValue_eq e⟩, ?_⟩
  · rintro ⟨fault, failed⟩ wf
    obtain ⟨e', passed, _⟩ := exists_pass wf
    cases failed.symm.trans passed
  · intro misfit
    cases passed : pass e with
    | error fault => exact ⟨fault, rfl⟩
    | ok e' => exact absurd (wellFormed_of_pass passed) misfit
  · intro fault failed
    exact arity_of_pass failed
  · intro s e h allowed
    obtain ⟨r, simplified, _⟩ :=
      exists_simplifyFrom (fun _ => exists_pass) (wellFormed_of_parse h) allowed 0 allowed.toNat
    exact ⟨r, simplified⟩

/-- In `2 * (a / b / c)`, as one quotient of three arguments, the product cannot take the quotient
apart. The quotient by zero and the power to a negative number in `1 / 0 - 2 ^ -1` do no harm. -/
theorem pass_fails_iff_of_quotient_in_product :
    let three := node .mul [ofInt 2, node .div [.var "a", .var "b", .var "c"]]
    let zero := node .sub [node .div [ofInt 1, ofInt 0], node .pow [ofInt 2, ofInt (-1)]]
    (¬ WellFormed three ∧ ∃ fault, pass three = .error fault ∧
      ∃ op count, ¬ op.Admits count ∧ fault = .arity op count) ∧
    (WellFormed zero ∧ ∃ e', pass zero = .ok e' ∧ WellFormed e' ∧ passByValue zero = .ok e') ∧
    parse "1 / 0 - 2 ^ -1" = .ok zero ∧ ∃ r, simplifyWithin 2 zero = .ok r := by
  intro three zero
  have misfit : ¬ WellFormed three := by decide
  have wf : WellFormed zero := by decide
  have hparse : parse "1 / 0 - 2 ^ -1" = .ok zero := by decide +kernel
  obtain ⟨fails, arity, _⟩ := pass_fails_iff.1 three
  obtain ⟨fault, failed⟩ := fails.2 misfit
  obtain ⟨_, _, passes, values⟩ := pass_fails_iff.1 zero
  obtain ⟨e', passed, wf'⟩ := passes wf
  rw [passed] at values
  exact ⟨⟨misfit, fault, failed, arity fault failed⟩, ⟨wf, e', passed, wf', values⟩, hparse,
    pass_fails_iff.2 _ zero hparse 2⟩

end ArithTree.Expr
