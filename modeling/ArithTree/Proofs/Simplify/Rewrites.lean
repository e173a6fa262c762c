import ArithTree.Proofs.Simplify.WellFormed
import Mathlib.Data.List.Forall2
import Mathlib.Data.List.TakeWhile

/-!
# Rewriting

`Rewrites op args e` says that a rule turns the application of `op` to `args` into `e`. It has one
case for each way in which a rule can act, with all that is known then, so that no proof about the
rules needs to look at their definitions again: a rule acts in one of these ways, or it cannot act
because of a number of arguments (`responds_applyRule`), it acts on every well-formed application
(`exists_rewrites`), and in one way only (`Rewrites.applied`).

Main statement: `pass_related`. What relates every application to its rewritten form, once it
relates the new arguments to what the pass makes of them, relates every well-formed expression to
what the pass makes of it. Each fact about a pass below is an instance.
-/

namespace ArithTree.Expr

/-! ## What a rule does -/

/-- The rule for `op` turns its application to the arguments into an expression. -/
inductive Rewrites : Op → List Expr → Expr → Prop where
  | difference (left right : Expr) :
    Rewrites .sub [left, right] (.node .add [left, .node .mul [ofInt (-1), right]])
  | sum (args : List Expr) :
    Rewrites .add args (.node .add (Chain.sum.collected (chainTermsAll .add args)))
  | product {args : List Expr} (noQuotient : ∀ e ∈ args, isNode .div e = false) :
    Rewrites .mul args (.node .mul (Chain.product.collected (chainTermsAll .mul args)))
  /-- The first quotient among the factors becomes the quotient of the whole product. -/
  | hoist {before : List Expr} (after : List Expr) (numer denom : Expr)
      (first : ∀ e ∈ before, isNode .div e = false) :
    Rewrites .mul (before ++ .node .div [numer, denom] :: after)
      (.node .div [.node .mul (before ++ after ++ [numer]), denom])
  | leftQuotient (a b : Expr) {c : Expr} (single : isNode .div c = false) :
    Rewrites .div [.node .div [a, b], c] (.node .div [a, .node .mul [b, c]])
  | rightQuotient {a : Expr} (b c : Expr) (single : isNode .div a = false) :
    Rewrites .div [a, .node .div [b, c]] (.node .div [.node .mul [a, c], b])
  | whole {a b : Numeral} {q : Int} (nonzero : b.value ≠ 0)
      (value : quotient a.value b.value nonzero = .whole q) :
    Rewrites .div [.num a, .num b] (ofInt q)
  | fraction {a b : Numeral} {p q : Int} (nonzero : b.value ≠ 0)
      (value : quotient a.value b.value nonzero = .fraction p q) :
    Rewrites .div [.num a, .num b] (.node .div [ofInt p, ofInt q])
  | quotient {left right : Expr} (none_or_both : isNode .div left = isNode .div right)
      (noFraction : ∀ a b, left = .num a → right = .num b → b.value = 0) :
    Rewrites .div [left, right] (.node .div [left, right])
  | evaluated {b e : Numeral} (nonneg : 0 ≤ e.value)
      (compact : PowerCompact b.value e.value.toNat) :
    Rewrites .pow [.num b, .num e] (ofInt (ArithTree.power b.value e.value.toNat))
  | power {base exponent : Expr}
      (kept : ∀ b e, base = .num b → exponent = .num e →
        ¬ (0 ≤ e.value ∧ PowerCompact b.value e.value.toNat)) :
    Rewrites .pow [base, exponent] (.node .pow [base, exponent])

/-- The rule for `op` cannot act: its application, or a quotient among the arguments, has a number
of arguments that it cannot have. -/
inductive Refuses : Op → List Expr → Fault → Prop where
  | application {op : Op} {args : List Expr} (h : ¬ op.Admits args.length) :
    Refuses op args (.arity op args.length)
  | argument {op : Op} {args parts : List Expr} (hmem : .node .div parts ∈ args)
      (h : parts.length ≠ 2) : Refuses op args (.arity .div parts.length)

/-- The rule for `op` gives `result`: it acts in one of its ways, or it cannot act. -/
def Responds (op : Op) (args : List Expr) (result : Except Fault Expr) : Prop :=
  (∃ e, result = .ok e ∧ Rewrites op args e) ∨
    ∃ fault, result = .error fault ∧ Refuses op args fault

theorem responds_productRule (args : List Expr) : Responds .mul args (productRule .exact args) := by
  -- The rule cuts the factors in front of the first quotient.
  have parts := List.takeWhile_append_dropWhile (p := (!isNode .div ·)) (l := args)
  have before : ∀ e ∈ args.takeWhile (!isNode .div ·), isNode .div e = false := by
    intro e he
    simpa using List.all_eq_true.1 List.all_takeWhile e he
  unfold productRule
  cases hd : args.dropWhile (!isNode .div ·) with
  | nil =>
    rw [hd, List.append_nil] at parts
    exact .inl ⟨_, rfl, .product (by rwa [parts] at before)⟩
  | cons e after =>
    have head : isNode .div e = true := by
      have := List.head_dropWhile_not (!isNode .div ·) (l := args) (by simp [hd])
      simpa [hd] using this
    obtain ⟨ps, rfl⟩ := isNode_iff.1 head
    by_cases two : ps.length = 2
    · obtain ⟨numer, denom, rfl⟩ := List.length_eq_two.1 two
      have := Rewrites.hoist after numer denom before
      rw [← hd, parts] at this
      exact .inl ⟨_, rfl, this⟩
    · have hmem : Expr.node .div ps ∈ args := by
        rw [← parts, hd]
        simp
      refine .inr ⟨.arity .div ps.length, ?_, .argument hmem two⟩
      split
      · next h =>
        cases h
        exact absurd rfl two
      · next h =>
        cases h
        rfl
      · next notQuotient => exact absurd rfl (notQuotient ps after)

/-! The rule for quotients, for each way in which its arguments can be quotients. -/

section Quotients

variable {ε : Type} {k : Evaluator ε}

theorem quotientRule_of_left {a b c : Expr} (h : isNode .div c = false) :
    quotientRule k (.node .div [a, b]) c = .ok (.node .div [a, .node .mul [b, c]]) := by
  cases c with
  | num | var => rfl
  | node op args =>
    cases op with
    | div => simp [isNode] at h
    | _ => rfl

theorem quotientRule_of_right {a b c : Expr} (h : isNode .div a = false) :
    quotientRule k a (.node .div [b, c]) = .ok (.node .div [.node .mul [a, c], b]) := by
  cases a with
  | num | var => rfl
  | node op args =>
    cases op with
    | div => simp [isNode] at h
    | _ => rfl

theorem quotientRule_of_same {left right : Expr} (same : isNode .div left = isNode .div right)
    (h : ∀ a b, left = .num a → right = .num b → b.value = 0) :
    quotientRule k left right = .ok (.node .div [left, right]) := by
  cases il : isNode .div left with
  | true =>
    obtain ⟨ps, rfl⟩ := isNode_iff.1 il
    obtain ⟨qs, rfl⟩ := isNode_iff.1 (same.symm.trans il)
    rfl
  | false =>
    have ir := same.symm.trans il
    unfold quotientRule
    split
    · simp [isNode] at il
    · simp [isNode] at il
    · simp [isNode] at il
    · simp [isNode] at ir
    · simp [isNode] at ir
    · next a b => rw [dif_pos (h a b rfl rfl)]
    · rfl

theorem quotientRule_of_parts {left right : Expr} {parts : List Expr} (two : parts.length ≠ 2)
    (h : left = .node .div parts ∧ isNode .div right = false ∨
      isNode .div left = false ∧ right = .node .div parts) :
    quotientRule k left right = .error (k.fault (.arity .div parts.length)) := by
  rcases h with ⟨rfl, ir⟩ | ⟨il, rfl⟩
  all_goals
    unfold quotientRule
    split
    all_goals simp_all [isNode]

end Quotients

/-- A quotient of integers other than by zero has an exact value. -/
theorem quotientRule_exact {a b : Numeral} (nonzero : b.value ≠ 0) :
    quotientRule .exact (.num a) (.num b) = .ok (quotient a.value b.value nonzero).toExpr :=
  dif_neg nonzero

/-- A power of integers has an exact value if it is sure to be compact. -/
theorem powerRule_exact {b e : Numeral} (nonneg : 0 ≤ e.value)
    (compact : PowerCompact b.value e.value.toNat) :
    powerRule .exact (.num b) (.num e) = .ok (ofInt (ArithTree.power b.value e.value.toNat)) :=
  dif_pos ⟨nonneg, compact⟩

theorem responds_quotientRule (left right : Expr) :
    Responds .div [left, right] (quotientRule .exact left right) := by
  -- Which sides are quotients decides which equation of the rule applies.
  cases il : isNode .div left <;> cases ir : isNode .div right
  case true.true =>
    have fr : ∀ a b, left = .num a → right = .num b → b.value = 0 := by
      rintro a b rfl
      simp [isNode] at il
    exact .inl ⟨_, quotientRule_of_same (il.trans ir.symm) fr, .quotient (il.trans ir.symm) fr⟩
  case true.false =>
    obtain ⟨ps, rfl⟩ := isNode_iff.1 il
    by_cases two : ps.length = 2
    · obtain ⟨a, b, rfl⟩ := List.length_eq_two.1 two
      exact .inl ⟨_, quotientRule_of_left ir, .leftQuotient a b ir⟩
    · exact .inr ⟨_, quotientRule_of_parts two (.inl ⟨rfl, ir⟩), .argument (by simp) two⟩
  case false.true =>
    obtain ⟨ps, rfl⟩ := isNode_iff.1 ir
    by_cases two : ps.length = 2
    · obtain ⟨b, c, rfl⟩ := List.length_eq_two.1 two
      exact .inl ⟨_, quotientRule_of_right il, .rightQuotient b c il⟩
    · exact .inr ⟨_, quotientRule_of_parts two (.inr ⟨il, rfl⟩), .argument (by simp) two⟩
  case false.false =>
    by_cases fr : ∀ a b, left = .num a → right = .num b → b.value = 0
    · exact .inl ⟨_, quotientRule_of_same (il.trans ir.symm) fr, .quotient (il.trans ir.symm) fr⟩
    · push Not at fr
      obtain ⟨a, b, rfl, rfl, nonzero⟩ := fr
      cases value : quotient a.value b.value nonzero with
      | whole q =>
        exact .inl ⟨ofInt q, by rw [quotientRule_exact nonzero, value, Value.toExpr],
          .whole nonzero value⟩
      | fraction p q =>
        exact .inl ⟨.node .div [ofInt p, ofInt q],
          by rw [quotientRule_exact nonzero, value, Value.toExpr], .fraction nonzero value⟩

theorem responds_powerRule (base exponent : Expr) :
    Responds .pow [base, exponent] (powerRule .exact base exponent) := by
  unfold powerRule
  split
  · next b e =>
    split
    · next h => exact .inl ⟨_, rfl, .evaluated h.1 h.2⟩
    · next h =>
      refine .inl ⟨_, rfl, .power ?_⟩
      rintro b' e' ⟨⟩ ⟨⟩
      exact h
  · next h => exact .inl ⟨_, rfl, .power fun b e hb he => absurd he (h b e hb)⟩

/-- A rule acts in one of its ways, or it cannot act. -/
theorem responds_applyRule (op : Op) (args : List Expr) : Responds op args (applyRule op args) := by
  have pair (hadd : op ≠ .add) (hmul : op ≠ .mul) :
      (∃ left right, args = [left, right]) ∨
        applyRule op args = .error (.arity op args.length) ∧ ¬ op.Admits args.length := by
    match args with
    | [left, right] => exact .inl ⟨left, right, rfl⟩
    | [] | [_] | _ :: _ :: _ :: _ =>
      right
      cases op <;> simp_all [applyRule, applyRuleWith, Evaluator.exact, Op.Admits]
  cases op with
  | add => exact .inl ⟨_, rfl, .sum args⟩
  | mul => exact responds_productRule args
  | sub =>
    rcases pair (by simp) (by simp) with ⟨left, right, rfl⟩ | ⟨failed, misfit⟩
    · exact .inl ⟨_, rfl, .difference left right⟩
    · exact .inr ⟨_, failed, .application misfit⟩
  | div =>
    rcases pair (by simp) (by simp) with ⟨left, right, rfl⟩ | ⟨failed, misfit⟩
    · exact responds_quotientRule left right
    · exact .inr ⟨_, failed, .application misfit⟩
  | pow =>
    rcases pair (by simp) (by simp) with ⟨left, right, rfl⟩ | ⟨failed, misfit⟩
    · exact responds_powerRule left right
    · exact .inr ⟨_, failed, .application misfit⟩

/-- What a rule cannot act on is not well-formed. -/
theorem Refuses.not_wellFormed {op : Op} {args : List Expr} {fault : Fault}
    (h : Refuses op args fault) : ¬ WellFormed (.node op args) := by
  rw [wellFormed_node]
  rintro ⟨admits, wf⟩
  cases h with
  | application misfit => exact misfit admits
  | argument hmem two =>
    have := (wellFormed_node.1 (wf _ hmem)).1
    simp [Op.Admits, two] at this

/-- A rule acts on every well-formed application. -/
theorem exists_rewrites {op : Op} {args : List Expr} (h : WellFormed (.node op args)) :
    ∃ e, applyRule op args = .ok e ∧ Rewrites op args e := by
  rcases responds_applyRule op args with acts | ⟨fault, _, refuses⟩
  · exact acts
  · exact absurd h refuses.not_wellFormed

/-- The ways in which a rule can act exclude one another, so each is the one that it takes. -/
theorem Rewrites.applied {op : Op} {args : List Expr} {e : Expr} (h : Rewrites op args e) :
    applyRule op args = .ok e := by
  cases h with
  | difference | sum => rfl
  | product noQuotient =>
    have none : args.dropWhile (!isNode .div ·) = [] :=
      List.dropWhile_eq_nil_iff.2 (by simpa using noQuotient)
    show productRule .exact args = _
    unfold productRule
    rw [none]
    rfl
  | @hoist before after numer denom first =>
    have others : ∀ a ∈ before, (!isNode .div a) = true := by simpa using first
    show productRule .exact _ = _
    unfold productRule
    rw [List.dropWhile_append_of_pos others, List.takeWhile_append_of_pos others]
    simp [isNode]
  | leftQuotient a b single => exact quotientRule_of_left single
  | rightQuotient b c single => exact quotientRule_of_right single
  | whole nonzero value | fraction nonzero value =>
    refine (quotientRule_exact nonzero).trans ?_
    rw [value, Value.toExpr]
  | quotient none_or_both noFraction => exact quotientRule_of_same none_or_both noFraction
  | evaluated nonneg compact => exact powerRule_exact nonneg compact
  | @power base exponent kept =>
    show powerRule .exact base exponent = _
    unfold powerRule
    split
    · next b e => rw [dif_neg (kept b e rfl rfl)]
    · rfl

/-- A rule that has a result acted. -/
theorem rewrites_of_applyRule {op : Op} {args : List Expr} {e : Expr}
    (h : applyRule op args = .ok e) : Rewrites op args e := by
  rcases responds_applyRule op args with ⟨_, acted, rewrites⟩ | ⟨_, failed, _⟩
  · cases h.symm.trans acted
    exact rewrites
  · cases h.symm.trans failed

/-- A rule that fails could not act. -/
theorem refuses_of_applyRule {op : Op} {args : List Expr} {fault : Fault}
    (h : applyRule op args = .error fault) : Refuses op args fault := by
  rcases responds_applyRule op args with ⟨_, acted, _⟩ | ⟨_, failed, refuses⟩
  · cases h.symm.trans acted
  · cases h.symm.trans failed
    exact refuses

theorem Rewrites.wellFormed {op : Op} {args : List Expr} {e : Expr} (h : Rewrites op args e)
    (wf : ∀ a ∈ args, WellFormed a) : WellFormed e := by
  cases h with
  | difference left right =>
    simp only [List.forall_mem_cons] at wf
    exact wellFormed_pair.2 ⟨wf.1, wellFormed_pair.2 ⟨wellFormed_ofInt _, wf.2.1⟩⟩
  | sum =>
    exact wellFormed_add.2 fun e he =>
      everywhere_of_mem_collected (fun _ _ _ => Op.admits_pair _ _ _)
        (fun _ _ _ => Op.admits_pair _ _ _) (everywhere_of_mem_chainTermsAll wf) he
  | product =>
    exact wellFormed_mul.2 fun e he =>
      everywhere_of_mem_collected (fun _ _ _ => Op.admits_pair _ _ _)
        (fun _ _ _ => Op.admits_pair _ _ _) (everywhere_of_mem_chainTermsAll wf) he
  | @hoist before after numer denom =>
    simp only [List.forall_mem_append, List.forall_mem_cons, wellFormed_pair] at wf
    refine wellFormed_pair.2 ⟨wellFormed_mul.2 ?_, wf.2.1.2⟩
    simp only [List.forall_mem_append, List.forall_mem_singleton]
    exact ⟨⟨wf.1, wf.2.2⟩, wf.2.1.1⟩
  | leftQuotient =>
    simp only [List.forall_mem_cons, wellFormed_pair] at wf
    exact wellFormed_pair.2 ⟨wf.1.1, wellFormed_pair.2 ⟨wf.1.2, wf.2.1⟩⟩
  | rightQuotient =>
    simp only [List.forall_mem_cons, wellFormed_pair] at wf
    exact wellFormed_pair.2 ⟨wellFormed_pair.2 ⟨wf.1, wf.2.1.2⟩, wf.2.1.1⟩
  | whole => exact wellFormed_ofInt _
  | fraction => exact wellFormed_pair.2 ⟨wellFormed_ofInt _, wellFormed_ofInt _⟩
  | quotient =>
    simp only [List.forall_mem_cons] at wf
    exact wellFormed_pair.2 ⟨wf.1, wf.2.1⟩
  | evaluated => exact wellFormed_ofInt _
  | power =>
    simp only [List.forall_mem_cons] at wf
    exact wellFormed_pair.2 ⟨wf.1, wf.2.1⟩

/-! ## Related lists -/

section Forall₂

variable {α β : Type} {R : α → β → Prop}

theorem exists_forall₂ {as : List α} (h : ∀ a ∈ as, ∃ b, R a b) : ∃ bs, List.Forall₂ R as bs := by
  induction as with
  | nil => exact ⟨[], .nil⟩
  | cons a as ih =>
    rw [List.forall_mem_cons] at h
    obtain ⟨b, first⟩ := h.1
    obtain ⟨bs, rest⟩ := ih h.2
    exact ⟨b :: bs, .cons first rest⟩

theorem exists_of_mem_right {as : List α} {bs : List β} (h : List.Forall₂ R as bs) {b : β}
    (hb : b ∈ bs) : ∃ a ∈ as, R a b := by
  induction h with
  | nil => simp at hb
  | cons first _ ih =>
    rcases List.mem_cons.1 hb with rfl | hb
    · exact ⟨_, List.mem_cons_self, first⟩
    · obtain ⟨a, ha, related⟩ := ih hb
      exact ⟨a, List.mem_cons_of_mem _ ha, related⟩

theorem forall₂_append_left {as as' : List α} {bs : List β} (h : List.Forall₂ R (as ++ as') bs) :
    ∃ front back, List.Forall₂ R as front ∧ List.Forall₂ R as' back ∧ bs = front ++ back := by
  induction as generalizing bs with
  | nil => exact ⟨[], bs, .nil, h, rfl⟩
  | cons a as ih =>
    obtain ⟨b, rest, first, hrest, rfl⟩ := List.forall₂_cons_left_iff.1 h
    obtain ⟨front, back, hfront, hback, rfl⟩ := ih hrest
    exact ⟨b :: front, back, .cons first hfront, hback, rfl⟩

end Forall₂

/-! ## What a pass does -/

theorem mapM_ok_iff {args args' : List Expr} :
    args.mapM pass = .ok args' ↔ List.Forall₂ (fun a a' => pass a = .ok a') args args' := by
  induction args generalizing args' with
  | nil => simp [pure, Except.pure, eq_comm]
  | cons a as ih =>
    rw [List.mapM_cons]
    cases ha : pass a with
    | error => simp [bind, Except.bind, List.forall₂_cons_left_iff, ha]
    | ok b =>
      cases has : as.mapM pass with
      | error fault =>
        simp [bind, Except.bind, List.forall₂_cons_left_iff, ha, ← ih, has]
      | ok bs =>
        simp only [bind, Except.bind, pure, Except.pure, List.forall₂_cons_left_iff, ha, ← ih, has,
          Except.ok.injEq]
        constructor
        · rintro rfl
          exact ⟨b, bs, rfl, rfl, rfl⟩
        · rintro ⟨_, _, rfl, rfl, rfl⟩
          rfl

theorem Rewrites.pass_num {op : Op} {args : List Expr} {n : Numeral}
    (h : Rewrites op args (.num n)) : pass (.node op args) = .ok (.num n) := by
  rw [pass_node, h.applied]
  rfl

/-- A pass puts together what it makes of the new arguments. -/
theorem Rewrites.pass_node {op op' : Op} {args args' results : List Expr}
    (h : Rewrites op args (.node op' args'))
    (passed : List.Forall₂ (fun a a' => pass a = .ok a') args' results) :
    pass (.node op args) = .ok (collapse op' results) := by
  rw [Expr.pass_node, h.applied]
  show (args'.mapM pass).map (collapse op') = _
  rw [mapM_ok_iff.2 passed]
  rfl

/-- A pass over a well-formed expression has a result, and is related to it by every relation that
holds for numerals and variables, for what a rule evaluates, and for what a rule gives new arguments
if it holds for those. The induction is on the weight, for the new arguments need not be parts of
the expression. -/
theorem pass_related {R : Expr → Expr → Prop} (num : ∀ n, R (.num n) (.num n))
    (var : ∀ x, R (.var x) (.var x))
    (evaluated : ∀ {op args n}, Rewrites op args (.num n) → R (.node op args) (.num n))
    (node : ∀ {op args op' args' results}, WellFormed (.node op args) →
      Rewrites op args (.node op' args') →
      List.Forall₂ (fun e e' => pass e = .ok e' ∧ R e e') args' results →
      R (.node op args) (collapse op' results))
    {e : Expr} (wf : WellFormed e) : ∃ e', pass e = .ok e' ∧ R e e' := by
  induction hw : e.weight using Nat.strongRecOn generalizing e with
  | ind w ih =>
    cases e with
    | num n => exact ⟨_, pass_num n, num n⟩
    | var x => exact ⟨_, pass_var x, var x⟩
    | node op args =>
      obtain ⟨r, applied, rewrites⟩ := exists_rewrites wf
      cases r with
      | num n => exact ⟨_, rewrites.pass_num, evaluated rewrites⟩
      | var x => cases rewrites
      | node op' args' =>
        have wf' := (wellFormed_node.1 (rewrites.wellFormed (wellFormed_node.1 wf).2)).2
        -- The new arguments are lighter than the application, wherever the rule took them from.
        obtain ⟨results, related⟩ := exists_forall₂ fun e he =>
          ih e.weight (hw ▸ weight_lt_of_applyRule applied he) (wf' e he) rfl
        exact ⟨collapse op' results, rewrites.pass_node (related.imp fun _ _ h => h.1),
          node wf rewrites related⟩

end ArithTree.Expr
