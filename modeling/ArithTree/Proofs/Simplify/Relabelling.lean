import ArithTree.Proofs.Simplify.Iteration

/-!
# Relabelling leaves

A relabelling gives other texts to numerals and other names to variables. It keeps the values of
numerals, and different variables stay different. Rules look at no more than that: they act on the
relabelled arguments in the same way (`Rewrites.relabelled`). So a pass commutes with every
relabelling (`exists_pass_relabel`), and so does any number of passes
(`exists_simplifiedWithin_relabel`). The events of a simplification are relabelled with it only if
the relabelling keeps different numerals apart, since expressions are compared to find a fixed point
(`exists_simplifyFrom_relabel`).
-/

namespace ArithTree

/-- Other texts for numerals and other names for variables. -/
structure Relabelling where
  numeral : Numeral → Numeral
  name : String → String
  value_numeral : ∀ n, (numeral n).value = n.value
  /-- An integer that was computed has no text to be changed. -/
  numeral_ofInt : ∀ n, numeral (.ofInt n) = .ofInt n
  name_injective : Function.Injective name

namespace Expr

variable (l : Relabelling)

mutual

/-- An expression with its leaves relabelled. -/
def relabel : Expr → Expr
  | .num n => .num (l.numeral n)
  | .var x => .var (l.name x)
  | .node op args => .node op (relabelAll args)

/-- All expressions of a list with their leaves relabelled. -/
def relabelAll : List Expr → List Expr
  | [] => []
  | e :: es => relabel e :: relabelAll es

end

@[simp] theorem relabel_num (n : Numeral) : relabel l (.num n) = .num (l.numeral n) := by
  rw [relabel]

@[simp] theorem relabel_var (x : String) : relabel l (.var x) = .var (l.name x) := by rw [relabel]

@[simp] theorem relabel_node (op : Op) (args : List Expr) :
    relabel l (.node op args) = .node op (args.map (relabel l)) := by
  have all (es : List Expr) : relabelAll l es = es.map (relabel l) := by
    induction es with
    | nil => rw [relabelAll, List.map_nil]
    | cons e es ih => rw [relabelAll, ih, List.map_cons]
  rw [relabel, all]

@[simp] theorem relabel_ofInt (n : Int) : relabel l (ofInt n) = ofInt n := by
  rw [ofInt, relabel_num, l.numeral_ofInt]

/-! ## What rules look at -/

@[simp] theorem isNode_relabel (op : Op) (e : Expr) : isNode op (relabel l e) = isNode op e := by
  cases e <;> simp [isNode]

@[simp] theorem constant?_relabel (e : Expr) : (relabel l e).constant? = e.constant? := by
  cases e <;> simp [constant?, l.value_numeral]

theorem relabel_eq_num_iff {e : Expr} {n : Numeral} :
    relabel l e = .num n ↔ ∃ m, e = .num m ∧ l.numeral m = n := by
  cases e <;> simp

/-- What holds of the values of two numerals holds of those of the relabelled ones. -/
theorem forall_numerals_relabel {P : Int → Int → Prop} {left right : Expr}
    (h : ∀ a b, left = .num a → right = .num b → P a.value b.value) :
    ∀ a b, relabel l left = .num a → relabel l right = .num b → P a.value b.value := by
  intro a b ha hb
  obtain ⟨a, rfl, rfl⟩ := (relabel_eq_num_iff l).1 ha
  obtain ⟨b, rfl, rfl⟩ := (relabel_eq_num_iff l).1 hb
  rw [l.value_numeral, l.value_numeral]
  exact h a b rfl rfl

theorem quotient_numeral {a b : Numeral} (nonzero : b.value ≠ 0)
    (nonzero' : (l.numeral b).value ≠ 0) :
    quotient (l.numeral a).value (l.numeral b).value nonzero' =
      quotient a.value b.value nonzero := by
  simp only [l.value_numeral]

theorem occurrences?_relabel (repetition : Op) (e : Expr) :
    (relabel l e).occurrences? repetition =
      (e.occurrences? repetition).map (Prod.map l.name id) := by
  match e with
  | .num _ => simp [occurrences?]
  | .var _ => simp [occurrences?]
  | .node _ [] | .node _ [_] | .node _ (_ :: _ :: _ :: _) => simp [occurrences?]
  | .node op [a, b] =>
    -- Only a variable and a numeral together can be counted.
    cases a with
    | num k =>
      cases b with
      | var v => cases op <;> simp [occurrences?, l.value_numeral, apply_ite]
      | num | node => simp [occurrences?]
    | var v =>
      cases b with
      | num k => simp [occurrences?, l.value_numeral, apply_ite]
      | var | node => simp [occurrences?]
    | node => cases b <;> simp [occurrences?]

theorem relabel_multiple (repetition : Op) (v : String) (n : Int) :
    relabel l (multiple repetition v n) = multiple repetition (l.name v) n := by
  unfold multiple
  split <;> simp

theorem chainTermsAll_relabel (op : Op) (es : List Expr) :
    chainTermsAll op (es.map (relabel l)) = (chainTermsAll op es).map (relabel l) := by
  apply chainTermsAll_map (isNode_relabel l op)
  intro args
  rw [relabel_node, chainTerms, if_pos rfl]

theorem collected_relabel (c : Chain) (args : List Expr) :
    c.collected (args.map (relabel l)) = (c.collected args).map (relabel l) :=
  c.collected_map l.name_injective (relabel_ofInt l) (relabel_var l)
    (relabel_multiple l c.repetition) (fun a _ => constant?_relabel l a)
    fun a _ => occurrences?_relabel l c.repetition a

theorem relabel_collapse (op : Op) (es : List Expr) :
    relabel l (collapse op es) = collapse op (es.map (relabel l)) := by
  match es with
  | [] | [_] | _ :: _ :: _ => simp [collapse]

/-! ## Rules and passes -/

/-- A rule acts on relabelled arguments as it does on the others. -/
theorem Rewrites.relabelled {op : Op} {args : List Expr} {e : Expr} (h : Rewrites op args e) :
    Rewrites op (args.map (relabel l)) (relabel l e) := by
  cases h with
  | difference left right => simpa using Rewrites.difference (relabel l left) (relabel l right)
  | sum args =>
    rw [relabel_node, ← collected_relabel, ← chainTermsAll_relabel]
    exact .sum _
  | product noQuotient =>
    rw [relabel_node, ← collected_relabel, ← chainTermsAll_relabel]
    exact .product (by simpa using noQuotient)
  | @hoist before after numer denom first =>
    have first' : ∀ a ∈ before.map (relabel l), isNode .div a = false := by simpa using first
    simpa using Rewrites.hoist (after.map (relabel l)) (relabel l numer) (relabel l denom) first'
  | @leftQuotient a b c single =>
    have single' : isNode .div (relabel l c) = false := by simpa using single
    simpa using Rewrites.leftQuotient (relabel l a) (relabel l b) single'
  | @rightQuotient a b c single =>
    have single' : isNode .div (relabel l a) = false := by simpa using single
    simpa using Rewrites.rightQuotient (relabel l b) (relabel l c) single'
  | @whole a b q nonzero value =>
    have nonzero' : (l.numeral b).value ≠ 0 := by rwa [l.value_numeral]
    have value' := (quotient_numeral l nonzero nonzero').trans value
    simpa using Rewrites.whole nonzero' value'
  | @fraction a b p q nonzero value =>
    have nonzero' : (l.numeral b).value ≠ 0 := by rwa [l.value_numeral]
    have value' := (quotient_numeral l nonzero nonzero').trans value
    simpa using Rewrites.fraction nonzero' value'
  | @quotient left right none_or_both noFraction =>
    have none_or_both' : isNode .div (relabel l left) = isNode .div (relabel l right) := by
      simpa using none_or_both
    have noFraction' := forall_numerals_relabel l (P := fun _ n => n = 0) noFraction
    simpa using Rewrites.quotient none_or_both' noFraction'
  | @evaluated b e nonneg compact =>
    rw [← l.value_numeral] at nonneg
    rw [← l.value_numeral b, ← l.value_numeral e] at compact
    simpa [l.value_numeral] using Rewrites.evaluated nonneg compact
  | @power base exponent kept =>
    have kept' := forall_numerals_relabel l
      (P := fun b e => ¬ (0 ≤ e ∧ PowerCompact b e.toNat)) kept
    simpa using Rewrites.power kept'

/-- A pass commutes with relabelling. -/
theorem exists_pass_relabel {e : Expr} (wf : WellFormed e) :
    ∃ e', pass e = .ok e' ∧ pass (relabel l e) = .ok (relabel l e') := by
  refine pass_related (R := fun e e' => pass (relabel l e) = .ok (relabel l e'))
    ?num ?var ?evaluated ?node wf
  case num =>
    intro n
    rw [relabel_num, pass_num]
  case var =>
    intro x
    rw [relabel_var, pass_var]
  case evaluated =>
    intro op args n rewrites
    have rewrites' := rewrites.relabelled l
    rw [relabel_num] at rewrites'
    rw [relabel_node, relabel_num, rewrites'.pass_num]
  case node =>
    intro op args op' args' results _ rewrites related
    have rewrites' := rewrites.relabelled l
    rw [relabel_node] at rewrites'
    have passed : List.Forall₂ (fun a a' => pass a = .ok a') (args'.map (relabel l))
        (results.map (relabel l)) := by
      rw [List.forall₂_map_left_iff, List.forall₂_map_right_iff]
      exact related.imp fun _ _ h => h.2
    rw [relabel_node, rewrites'.pass_node passed, relabel_collapse]

/-- So does any number of passes. -/
theorem exists_simplifiedWithin_relabel {e : Expr} (wf : WellFormed e) (allowed : Int) :
    ∃ e', simplifiedWithin allowed e = .ok e' ∧
      simplifiedWithin allowed (relabel l e) = .ok (relabel l e') := by
  rw [simplifiedWithin_eq_passTimes, simplifiedWithin_eq_passTimes]
  refine exists_passTimes_map ?_ wf allowed.toNat
  intro e wf
  exact exists_pass_and (exists_pass wf) (exists_pass_relabel l wf)

end Expr

/-! ## Events -/

/-- The event with `f` applied to its expression. -/
def Event.mapExpr (f : Expr → Expr) : Event → Event
  | .pass number result => .pass number (f result)
  | .fixedPoint passes result => .fixedPoint passes (f result)
  | .gaveUp allowed result => .gaveUp allowed (f result)

/-- The outcome of a simplification with `f` applied to every expression in it. -/
def Simplified.mapExpr (f : Expr → Expr) (r : Simplified) : Simplified :=
  ⟨f r.expr, r.events.map (Event.mapExpr f)⟩

namespace Expr

/-- A relabelling that keeps different numerals apart keeps different expressions apart. -/
theorem relabel_injective {l : Relabelling} (apart : Function.Injective l.numeral) :
    Function.Injective (relabel l) := by
  have all {es : List Expr} (h : ∀ e ∈ es, ∀ e', relabel l e = relabel l e' → e = e')
      {es' : List Expr} (same : es.map (relabel l) = es'.map (relabel l)) : es = es' := by
    induction es generalizing es' with
    | nil => exact (List.map_eq_nil_iff.1 same.symm).symm
    | cons e es ih =>
      obtain ⟨e', rest, rfl, first, same⟩ := List.map_eq_cons_iff.1 same.symm
      rw [List.forall_mem_cons] at h
      rw [h.1 e' first.symm, ih h.2 same.symm]
  intro e
  induction e using Expr.induction with
  | num n =>
    intro e' same
    obtain ⟨m, rfl, hm⟩ := (relabel_eq_num_iff l).1 (same.symm.trans (relabel_num l n))
    rw [apart hm]
  | var x =>
    intro e' same
    cases e' with
    | var y => exact congrArg _ (l.name_injective (by simpa using same))
    | num | node => simp at same
  | node op args ih =>
    intro e' same
    cases e' with
    | node op' args' =>
      rw [relabel_node, relabel_node, Expr.node.injEq] at same
      rw [same.1, all ih same.2]
    | num | var => simp at same

/-- A relabelling that keeps different numerals apart commutes with simplification, and with all
that happens in its course. -/
theorem exists_simplifyFrom_relabel {l : Relabelling} (apart : Function.Injective l.numeral)
    {e : Expr} (wf : WellFormed e) (allowed : Int) (done left : Nat) :
    ∃ r, simplifyFrom allowed done e left = .ok r ∧
      simplifyFrom allowed done (relabel l e) left = .ok (r.mapExpr (relabel l)) := by
  induction left generalizing e done with
  | zero => exact ⟨_, rfl, rfl⟩
  | succ left ih =>
    obtain ⟨next, passed, wf', passed'⟩ := exists_pass_and (exists_pass wf)
      (exists_pass_relabel l wf)
    by_cases changed : next = e
    · rw [changed] at passed passed'
      exact ⟨_, simplifyFrom_of_fixed passed allowed done left,
        simplifyFrom_of_fixed passed' allowed done left⟩
    · have changed' : relabel l next ≠ relabel l e := (relabel_injective apart).ne changed
      obtain ⟨r, steps, steps'⟩ := ih wf' (done + 1)
      rw [simplifyFrom_of_changed passed changed, simplifyFrom_of_changed passed' changed', steps,
        steps']
      exact ⟨_, rfl, rfl⟩

end Expr

end ArithTree
