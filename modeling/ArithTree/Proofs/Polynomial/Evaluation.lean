import ArithTree.Proofs.Polynomial.Magnitude
import ArithTree.Proofs.Simplify.Convergence
import ArithTree.Proofs.Simplify.Idempotence
import ArithTree.Proofs.Value.Preserved

/-!
# Evaluation

A polynomial without variables is evaluated by simplification, if its magnitude is compact: a fixed
point without variables is a numeral, since a chain of numerals would be folded (`Settled.eq_num`).
As passes keep values, it is the value of the polynomial.

Main statement: `simplifies_to_value`.
-/

namespace ArithTree.Expr

/-- No operators but those of a ring: no quotients and no powers. -/
abbrev InRing : Expr → Prop := Everywhere fun op _ => op = .add ∨ op = .sub ∨ op = .mul

theorem inRing_pair {op : Op} {left right : Expr} :
    InRing (.node op [left, right]) ↔
      (op = .add ∨ op = .sub ∨ op = .mul) ∧ InRing left ∧ InRing right := by
  simp [everywhere_node]

theorem isPolynomial_of_binary {e : Expr} (binary : Binary e) (ring : InRing e) :
    IsPolynomial e := by
  refine Everywhere.imp _ ?_ ((everywhere_and _).2 ⟨binary, ring⟩)
  rintro op args ⟨two, rfl | rfl | rfl⟩
  · exact Nat.le_of_eq (Eq.symm two)
  · exact two
  · exact Nat.le_of_eq (Eq.symm two)

/-! ## Expressions without variables -/

theorem names_of_mem {es : List Expr} (closed : namesAll es = []) : ∀ e ∈ es, e.names = [] := by
  induction es with
  | nil => simp
  | cons e es ih =>
    rw [namesAll_cons, List.append_eq_nil_iff] at closed
    rw [List.forall_mem_cons]
    exact ⟨closed.1, ih closed.2⟩

/-- The only settled polynomials without variables are numerals. -/
theorem Settled.eq_num {e : Expr} (h : Settled e) (closed : e.names = []) : ∃ n, e = .num n := by
  refine h.induction (motive := fun e => e.names = [] → ∃ n, e = .num n)
    ?num ?var ?power ?chain closed
  case num =>
    intro n _
    exact ⟨n, rfl⟩
  case var =>
    intro x closed
    simp at closed
  case power =>
    intro v k _ closed
    simp at closed
  case chain =>
    intro c args settled ih closed
    rw [names_node] at closed
    have closed := names_of_mem closed
    -- Two numerals are left at least, but no more than one can be.
    match args, settled, ih, closed with
    | a :: b :: rest, settled, ih, closed =>
      simp only [List.forall_mem_cons] at ih closed
      obtain ⟨m, rfl⟩ := ih.1 closed.1
      obtain ⟨n, rfl⟩ := ih.2.1 closed.2.1
      have one := settled.constants
      simp [constant?] at one
    | [_], settled, _, _ | [], settled, _, _ =>
      have two := settled.two
      simp at two

theorem eval_isSome {e : Expr} (binary : Binary e) (ring : InRing e) (env : String → ℚ) :
    (eval env e).isSome := by
  induction binary using Binary.induction with
  | num n => simp
  | var x => simp
  | pair op left right _ _ ihl ihr =>
    obtain ⟨hop, hleft, hright⟩ := inRing_pair.1 ring
    obtain ⟨a, ha⟩ := Option.isSome_iff_exists.1 (ihl hleft)
    obtain ⟨b, hb⟩ := Option.isSome_iff_exists.1 (ihr hright)
    have total : ∃ q, op.rational? [a, b] = some q := by
      rcases hop with rfl | rfl | rfl
      · exact ⟨_, rfl⟩
      · exact ⟨_, rfl⟩
      · exact ⟨_, rfl⟩
    obtain ⟨q, hq⟩ := total
    exact Option.isSome_iff_exists.2 ⟨q, eval_pair_iff.2 ⟨a, b, ha, hb, hq⟩⟩

/-! ## Main statement -/

/-- An application made of numerals, sums, differences and products is simplified to the numeral of
its value, which has no text, if its magnitude is compact and enough passes may be made. -/
theorem simplifies_to_value {e : Expr} (root : ∃ op args, e = .node op args) (binary : Binary e)
    (ring : InRing e) (closed : e.names = []) (compact : Compact e.magnitude) :
    ∃ v : Int, (∀ env, eval env e = some (v : ℚ)) ∧
      ∃ least : Int, ∀ allowed : Int, least ≤ allowed →
        ∃ r, simplifyWithin allowed e = .ok r ∧ r.expr = ofInt v := by
  have poly := isPolynomial_of_binary binary ring
  obtain ⟨n, e', _, times, fixed⟩ := exists_passTimes_fixed poly.wellFormed
  have step : ∀ x, IsPolynomial x ∧ x.magnitude ≤ e.magnitude ∧ TextFree x ∧ x.names = [] ∧
        Refines e x →
      ∃ x', pass x = .ok x' ∧ IsPolynomial x' ∧ x'.magnitude ≤ e.magnitude ∧ TextFree x' ∧
        x'.names = [] ∧ Refines e x' := by
    rintro x ⟨poly, bounded, textFree, closed, refines⟩
    obtain ⟨x', passed, ⟨poly', lower⟩, textFree', names, refines'⟩ :=
      exists_pass_and (exists_pass_magnitude poly) (exists_pass_and (exists_pass_textFree poly)
        (exists_pass_and (exists_pass_names poly.wellFormed) (exists_pass_refines poly.wellFormed)))
    refine ⟨x', passed, poly', Nat.le_trans lower bounded, textFree' textFree, ?_,
      refines.trans refines'⟩
    rw [closed] at names
    exact (names .nil).eq_nil
  have textFree : TextFree e := by
    obtain ⟨op, args, rfl⟩ := root
    exact textFree_node op args
  obtain ⟨_, times', poly', bounded, textFree', closed', refines⟩ := exists_passTimes step
    ⟨poly, Nat.le_refl _, textFree, closed, Refines.refl e⟩ n
  cases times.symm.trans times'
  have settled : Settled e' :=
    ⟨poly', (pass_eq_self_iff poly'.wellFormed).1 fixed, compact.mono bounded⟩
  obtain ⟨v, rfl⟩ := settled.eq_num closed'
  refine ⟨v.value, ?_, n + 1, ?_⟩
  · intro env
    obtain ⟨q, hq⟩ := Option.isSome_iff_exists.1 (eval_isSome binary ring env)
    rw [hq, ← refines env q hq, eval_num]
  · intro allowed enough
    have more : n < allowed.toNat := by omega
    obtain ⟨r, simplified, result, _⟩ := simplifyFrom_of_fixedPoint times fixed allowed 0 more
    exact ⟨r, simplified, result.trans textFree'.eq_ofInt⟩

/-- `( 5 - 007 ) * ( 2 - 3 )` is simplified to 2. -/
theorem simplifies_to_value_of_product :
    let e := node .mul [node .sub [ofInt 5, .num ⟨7, some "007"⟩], node .sub [ofInt 2, ofInt 3]]
    (∃ op args, e = .node op args) ∧ Binary e ∧ InRing e ∧ e.names = [] ∧ Compact e.magnitude ∧
      ∃ least : Int, ∀ allowed : Int, least ≤ allowed →
        ∃ r, simplifyWithin allowed e = .ok r ∧ r.expr = ofInt 2 := by
  intro e
  have root : ∃ op args, e = .node op args := ⟨_, _, rfl⟩
  have binary : Binary e := by decide
  have ring : InRing e := by decide
  have closed : e.names = [] := by decide
  have compact : Compact e.magnitude := by decide
  obtain ⟨v, value, simplified⟩ := simplifies_to_value root binary ring closed compact
  have two : eval (fun _ => 0) e = some 2 := by
    refine eval_pair_iff.2 ⟨-2, -1, eval_sub_iff.2 ⟨5, 7, ?_, ?_, by norm_num⟩,
      eval_sub_iff.2 ⟨2, 3, ?_, ?_, by norm_num⟩, by norm_num [Op.rational?]⟩
    · exact eval_num _ _
    · exact eval_num _ _
    · exact eval_num _ _
    · exact eval_num _ _
  rw [value] at two
  obtain rfl : v = 2 := by exact_mod_cast Option.some_inj.1 two
  exact ⟨root, binary, ring, closed, compact, simplified⟩

end ArithTree.Expr
