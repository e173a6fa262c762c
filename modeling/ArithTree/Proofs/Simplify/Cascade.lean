import ArithTree.Proofs.Reading.Rendering
import ArithTree.Proofs.Simplify.Idempotence
import Mathlib.Data.List.Chain
import Mathlib.Data.List.Induction

/-!
# One constant in each pass

Constants of a product fold from left to right. If zero is the last of them and no two others fold,
a pass folds zero with the constant before it, and with no other. So it takes as many passes as
there are constants until zero has absorbed all of them, and with more than `maxPasses` of them, a
simplification gives up (`gives_up_on_cascade`).
-/

namespace ArithTree.Expr

open ArithTree

/-! ## Zero as the last constant -/

/-- No two neighbours fold. -/
def Unfolding (ns : List Int) : Prop := ns.IsChain fun a b => Chain.product.fold? a b = none

theorem fold?_zero (n : Int) : Chain.product.fold? n 0 = some 0 := by
  rw [Chain.fold?_product, Int.mul_zero, if_pos (show Compact 0 by decide)]

/-- Zero absorbs the constant before it. -/
theorem foldConstants_append_zero {ns : List Int} {m : Int} (h : Unfolding (ns ++ [m])) :
    Chain.product.foldConstants (ns ++ [m, 0]) = ns ++ [0] := by
  have foldOnto (first : Int) (ns : List Int) (h : Unfolding (first :: ns ++ [m])) :
      Chain.product.foldOnto first (ns ++ [m, 0]) = first :: ns ++ [0] := by
    induction ns generalizing first with
    | nil =>
      have none := (List.isChain_cons_cons.1 h).1
      simp [Chain.foldOnto, none, fold?_zero]
    | cons n ns ih =>
      obtain ⟨none, h⟩ := List.isChain_cons_cons.1 h
      rw [List.cons_append, Chain.foldOnto, none]
      exact congrArg _ (ih n h)
  cases ns with
  | nil => simp [Chain.foldConstants, Chain.foldOnto, fold?_zero]
  | cons n ns => exact foldOnto n ns h

/-! ## Passes over products -/

/-- The product of constants. -/
def productOf (ns : List Int) : Expr := .node .mul (ns.map ofInt)

theorem productOf_inj {ms ns : List Int} (h : productOf ms = productOf ns) : ms = ns := by
  have inj : Function.Injective ofInt := by
    rintro m n ⟨⟩
    rfl
  exact inj.list_map (by simpa [productOf] using h)

theorem forall₂_pass_ofInt (ns : List Int) :
    List.Forall₂ (fun a a' => pass a = .ok a') (ns.map ofInt) (ns.map ofInt) := by
  rw [List.forall₂_same]
  intro e he
  obtain ⟨n, _, rfl⟩ := List.mem_map.1 he
  exact pass_num _

theorem collapse_productOf {ns : List Int} (many : 1 < ns.length) :
    collapse .mul (ns.map ofInt) = productOf ns :=
  collapse_of_length (by rw [List.length_map]; omega)

theorem collected_ofInt (ns : List Int) :
    Chain.product.collected (ns.map ofInt) = (Chain.product.foldConstants ns).map ofInt := by
  have constants : (ns.map ofInt).filterMap constant? = ns := by
    simp [List.filterMap_map, Function.comp_def, ofInt, constant?]
  have counts : Chain.product.counts (ns.map ofInt) = [] := by
    simp [Chain.counts, List.filterMap_map, Function.comp_def, ofInt, occurrences?, tally]
  have others : Chain.product.others (ns.map ofInt) = [] := by
    simp [Chain.others, ofInt, constant?]
  rw [Chain.collected_eq, counts, others, Chain.constants, constants]
  simp

/-- A pass only folds the constants of a product. -/
theorem pass_productOf (ns : List Int) :
    pass (productOf ns) =
      .ok (collapse .mul ((Chain.product.foldConstants ns).map ofInt)) := by
  have flat : chainTermsAll .mul (ns.map ofInt) = ns.map ofInt :=
    chainTermsAll_of_not_isNode (by simp [ofInt, isNode])
  have rewrites : Rewrites .mul (ns.map ofInt) _ := .product (by simp [ofInt, isNode])
  rw [flat, collected_ofInt] at rewrites
  exact rewrites.pass_node (forall₂_pass_ofInt _)

theorem pass_productOf_append_zero {ns : List Int} {m : Int} (h : Unfolding (ns ++ [m]))
    (nonempty : ns ≠ []) : pass (productOf (ns ++ [m, 0])) = .ok (productOf (ns ++ [0])) := by
  have many := List.length_pos_of_ne_nil nonempty
  rw [pass_productOf, foldConstants_append_zero h, collapse_productOf]
  rw [List.length_append, List.length_singleton]
  omega

/-- In as many passes as there are constants in `back`, zero absorbs these. -/
theorem passTimes_productOf {front back : List Int} (h : Unfolding (front ++ back))
    (nonempty : front ≠ []) :
    (productOf (front ++ back ++ [0])).passTimes back.length = .ok (productOf (front ++ [0])) := by
  induction back using List.reverseRecOn with
  | nil => rw [List.append_nil]; rfl
  | append_singleton back m ih =>
    rw [← List.append_assoc] at h
    have passed := pass_productOf_append_zero h (by simp [nonempty])
    rw [List.length_append, List.length_singleton, passTimes]
    rw [show front ++ (back ++ [m]) ++ [0] = front ++ back ++ [m, 0] by simp, passed]
    exact ih (List.isChain_append.1 h).1

/-- As long as there are two constants before zero, no fixed point is reached. -/
theorem not_fixedAfter_productOf {ns : List Int} (h : Unfolding ns) {n : Nat}
    (many : n + 1 < ns.length) : ¬ (productOf (ns ++ [0])).FixedAfter n := by
  -- The constants are those that are left, the one that is absorbed next, and those that have been.
  obtain ⟨front, m, back, rfl, nonempty, rfl⟩ : ∃ front m back, ns = front ++ [m] ++ back ∧
      front ≠ [] ∧ back.length = n := by
    have cut := List.take_append_drop (ns.length - n - 1) ns
    have length : (ns.drop (ns.length - n - 1)).length = n + 1 := by
      rw [List.length_drop]
      omega
    obtain ⟨m, back, hback⟩ := List.exists_cons_of_length_eq_add_one length
    rw [hback] at cut length
    refine ⟨_, m, back, by rw [List.append_assoc]; exact cut.symm, ?_, by simpa using length⟩
    apply List.ne_nil_of_length_pos
    rw [List.length_take]
    omega
  rintro ⟨e, times, fixed⟩
  have h' : Unfolding (front ++ [m]) := (List.isChain_append.1 h).1
  rw [passTimes_productOf h (by simp)] at times
  cases times
  have passed := pass_productOf_append_zero h' nonempty
  rw [show front ++ [m] ++ [0] = front ++ [m, 0] by simp, passed] at fixed
  have same := congrArg List.length (productOf_inj (Except.ok.inj fixed))
  simp at same

/-! ## A cascade -/

/-- The exponents of `2 ^ (depth + 1)` powers, of which no two neighbours fold. -/
def exponents : (depth : Nat) → List Nat
  | 0 => [1428, 1]
  | depth + 1 => exponents depth ++ exponents depth

def powerOf (base exponent : Nat) : Expr := .node .pow [ofInt base, ofInt exponent]

/-- The product of the powers of 1023 with these exponents, as a tree of little height. -/
def cascade : (depth : Nat) → Expr
  | 0 => .node .mul [powerOf 1023 1428, powerOf 1023 1]
  | depth + 1 => .node .mul [cascade depth, cascade depth]

theorem length_exponents (depth : Nat) : (exponents depth).length = 2 ^ (depth + 1) := by
  induction depth with
  | zero => rfl
  | succ depth ih => rw [exponents, List.length_append, ih, Nat.pow_succ 2 (depth + 1), Nat.mul_two]

/-- In a cascade, two neighbours have 1429 factors 1023 together. -/
theorem exponents_isChain (depth : Nat) :
    (exponents depth).IsChain (fun j k => j + k = 1429) ∧
      (exponents depth).head? = some 1428 ∧ (exponents depth).getLast? = some 1 := by
  induction depth with
  | zero => exact ⟨by simp [exponents], rfl, rfl⟩
  | succ depth ih =>
    obtain ⟨chain, first, last⟩ := ih
    refine ⟨?_, by rw [exponents, List.head?_append, first]; rfl,
      by rw [exponents, List.getLast?_append, last]; rfl⟩
    rw [exponents, List.isChain_append]
    refine ⟨chain, chain, ?_⟩
    rw [first, last]
    rintro _ ⟨⟩ _ ⟨⟩
    rfl

theorem unfolding_cascade (depth : Nat) :
    Unfolding ((exponents depth).map fun k => (1023 : Int) ^ k) := by
  rw [Unfolding, List.isChain_map]
  refine (exponents_isChain depth).1.imp ?_
  intro j k together
  have long : ¬ Compact ((1023 : Int) ^ 1429) := by
    rw [compact_iff]
    decide +kernel
  rw [Chain.fold?_product, ← Int.pow_add, together, if_neg long]

theorem exponents_le (depth : Nat) : ∀ k ∈ exponents depth, k ≤ 1428 := by
  induction depth with
  | zero => simp [exponents]
  | succ depth ih =>
    rw [exponents, List.forall_mem_append]
    exact ⟨ih, ih⟩

theorem chainTerms_cascade (depth : Nat) :
    (cascade depth).chainTerms .mul = (exponents depth).map (powerOf 1023) := by
  induction depth with
  | zero => simp [cascade, exponents, chainTerms, chainTermsAll, powerOf]
  | succ depth ih => simp [cascade, exponents, chainTerms, chainTermsAll, ih]

theorem pass_powerOf {base exponent : Nat} (compact : PowerCompact base exponent) :
    pass (powerOf base exponent) = .ok (ofInt ((base : Int) ^ exponent)) := by
  have rewrites : Rewrites .pow [ofInt base, ofInt exponent] _ :=
    .evaluated (Int.natCast_nonneg exponent) compact
  rw [Numeral.value_ofInt, Numeral.value_ofInt, Int.toNat_natCast, power_eq] at rewrites
  exact rewrites.pass_num

/-- Terms that are neither constants nor counted stay as they are. -/
theorem collected_of_others {c : Chain} {args : List Expr}
    (h : ∀ e ∈ args, e.constant? = none ∧ e.occurrences? c.repetition = none) :
    c.collected args = args := by
  have constants : args.filterMap constant? = [] :=
    List.filterMap_eq_nil_iff.2 fun e he => (h e he).1
  have occurrences : args.filterMap (occurrences? c.repetition) = [] :=
    List.filterMap_eq_nil_iff.2 fun e he => (h e he).2
  have others : c.others args = args := by
    refine List.filter_eq_self.2 fun e he => ?_
    rw [(h e he).1, (h e he).2]
    rfl
  rw [Chain.collected_eq, Chain.counts, Chain.constants, constants, occurrences, others]
  simp [Chain.foldConstants, tally]

/-- The first pass computes the powers. -/
theorem pass_product_of_powers {ts : List (Nat × Nat)} (many : 1 < ts.length)
    (compact : ∀ t ∈ ts, PowerCompact t.1 t.2) {args : List Expr}
    (noQuotient : ∀ e ∈ args, isNode .div e = false)
    (terms : chainTermsAll .mul args = ts.map fun t => powerOf t.1 t.2) :
    pass (.node .mul args) = .ok (productOf (ts.map fun t => (t.1 : Int) ^ t.2)) := by
  have collected : Chain.product.collected (ts.map fun t => powerOf t.1 t.2) =
      ts.map fun t => powerOf t.1 t.2 := by
    refine collected_of_others ?_
    rw [List.forall_mem_map]
    intro t _
    exact ⟨rfl, rfl⟩
  have passed : List.Forall₂ (fun a a' => pass a = .ok a') (ts.map fun t => powerOf t.1 t.2)
      ((ts.map fun t => (t.1 : Int) ^ t.2).map ofInt) := by
    rw [List.map_map, List.forall₂_map_left_iff, List.forall₂_map_right_iff, List.forall₂_same]
    intro t ht
    exact pass_powerOf (compact t ht)
  have rewrites := Rewrites.product noQuotient
  rw [terms, collected] at rewrites
  rw [rewrites.pass_node passed, collapse_productOf (by rwa [List.length_map])]

theorem pass_cascade (depth : Nat) :
    pass (.node .mul [cascade depth, powerOf 0 1]) =
      .ok (productOf (((exponents depth).map fun k => (1023 : Int) ^ k) ++ [0])) := by
  have length := length_exponents depth
  have pos : 0 < 2 ^ (depth + 1) := Nat.two_pow_pos _
  have noQuotient : ∀ e ∈ [cascade depth, powerOf 0 1], isNode .div e = false := by
    cases depth <;> simp [cascade, powerOf, isNode]
  have compact : ∀ t ∈ (exponents depth).map ((1023 : Nat), ·) ++ [(0, 1)],
      PowerCompact (t.1 : Nat) t.2 := by
    intro t ht
    rcases List.mem_append.1 ht with ht | ht
    · obtain ⟨k, hk, rfl⟩ := List.mem_map.1 ht
      have le := exponents_le depth k hk
      have bits : bitLength 1023 = 10 := by decide +kernel
      right
      show k * bitLength 1023 ≤ maxBits
      rw [bits, maxBits]
      omega
    · cases List.mem_singleton.1 ht
      exact .inl (by decide)
  have passed := @pass_product_of_powers ((exponents depth).map (1023, ·) ++ [(0, 1)])
    (by rw [List.length_append, List.length_map, List.length_singleton]; omega) compact _ noQuotient
    (by simp [chainTermsAll, chainTerms_cascade, chainTerms, powerOf, Function.comp_def])
  simpa [Function.comp_def] using passed

/-! ## Reading a cascade -/

/-- The words of a cascade. -/
def cascadeWords : (depth : Nat) → List (List Char)
  | 0 => ["1023".toList, ['^'], "1428".toList, ['*'], "1023".toList, ['^'], ['1']]
  | depth + 1 =>
    (['('] :: cascadeWords depth ++ [[')']]) ++ ['*'] :: (['('] :: cascadeWords depth ++ [[')']])

theorem rendering_power {b e : List Char} {base exponent : Nat}
    (hb : Spelling (.ofInt base) b) (he : Spelling (.ofInt exponent) e) :
    Rendering (some .pow) (powerOf base exponent) [b, ['^'], e] :=
  .application (.num hb) (.num he) (by simp) (by simp)

theorem spelling_1023 : Spelling (.ofInt (1023 : Nat)) "1023".toList :=
  ⟨@Spells.plain "1023".toList ⟨by decide, by simp⟩ (by decide), by decide⟩

theorem spelling_1 : Spelling (.ofInt (1 : Nat)) ['1'] :=
  ⟨@Spells.plain ['1'] ⟨by decide, by simp⟩ (by decide), by decide⟩

theorem rendering_cascade (depth : Nat) :
    Rendering (some .mul) (cascade depth) (cascadeWords depth) := by
  induction depth with
  | zero =>
    have spelling_1428 : Spelling (.ofInt (1428 : Nat)) "1428".toList :=
      ⟨@Spells.plain "1428".toList ⟨by decide, by simp⟩ (by decide), by decide⟩
    exact .application (rendering_power spelling_1023 spelling_1428)
      (rendering_power spelling_1023 spelling_1) (by simp [Op.BareLeft, Op.Tighter])
      (by simp [Op.BareRight, Op.Tighter])
  | succ depth ih => exact .application ih.parentheses ih.parentheses (by simp) (by simp)

/-- The product of a cascade and a power that is zero, and a text for it. -/
def cascadeProduct (depth : Nat) : Expr := .node .mul [cascade depth, powerOf 0 1]

def cascadeText (depth : Nat) : String :=
  String.ofList (unwords ((['('] :: cascadeWords depth ++ [[')']]) ++ [['*'], ['0'], ['^'], ['1']]))

theorem parse_cascadeText (depth : Nat) : parse (cascadeText depth) = .ok (cascadeProduct depth) := by
  have zero : Spelling (.ofInt (0 : Nat)) ['0'] :=
    ⟨@Spells.plain ['0'] ⟨by decide, by simp⟩ (by decide), by decide⟩
  have rendering : Rendering (some .mul) (cascadeProduct depth)
      ((['('] :: cascadeWords depth ++ [[')']]) ++ [['*'], ['0'], ['^'], ['1']]) :=
    .application (rendering_cascade depth).parentheses (rendering_power zero spelling_1) (by simp)
      (by simp [Op.BareRight, Op.Tighter])
  refine parse_of_rendering rendering ?_
  rw [cascadeText, String.toList_ofList]
  exact spaced_unwords rendering.isWord

/-- With more factors than there may be passes, zero does not absorb all of them. -/
theorem gives_up_of_many {depth : Nat} (many : maxPasses < 2 ^ (depth + 1)) :
    ∃ r, simplify (cascadeProduct depth) = .ok r ∧ pass r.expr ≠ .ok r.expr ∧
      simplified r.expr ≠ .ok r.expr ∧ .gaveUp (Int.ofNat maxPasses) r.expr ∈ r.events := by
  have wf := wellFormed_of_parse (parse_cascadeText depth)
  have passed := pass_cascade depth
  have unfolding := unfolding_cascade depth
  have length : ((exponents depth).map fun k => (1023 : Int) ^ k).length = 2 ^ (depth + 1) := by
    rw [List.length_map, length_exponents]
  generalize (exponents depth).map (fun k => (1023 : Int) ^ k) = ns at passed unfolding length
  have cap : maxPasses = 999 + 1 := rfl
  have never : ∀ n < maxPasses, ¬ (cascadeProduct depth).FixedAfter n := by
    intro n hn
    cases n with
    | zero =>
      rw [fixedAfter_zero, cascadeProduct, passed]
      intro same
      have fewer := congrArg List.length (Expr.node.inj (Except.ok.inj same)).2
      rw [List.length_map, List.length_append, length] at fewer
      simp only [List.length_cons, List.length_nil] at fewer
      omega
    | succ n =>
      rw [cascadeProduct, fixedAfter_succ passed]
      exact not_fixedAfter_productOf unfolding (by omega)
  obtain ⟨r, steps, times, event⟩ := simplify_of_never_fixed wf never
  have moving : pass r.expr ≠ .ok r.expr := by
    intro fixed
    have reached : (cascadeProduct depth).FixedAfter maxPasses := ⟨r.expr, times, fixed⟩
    rw [cap, cascadeProduct, fixedAfter_succ passed] at reached
    exact not_fixedAfter_productOf unfolding (show 999 + 1 < ns.length by omega) reached
  obtain ⟨_, times', wf'⟩ := exists_passTimes (fun _ => exists_pass) wf maxPasses
  cases times.symm.trans times'
  exact ⟨r, steps, moving, fun same => moving ((simplified_eq_self_iff wf').1 same), event⟩

/-- A text with 1024 factors is simplified to something that a pass still changes, as does another
simplification. -/
theorem gives_up_on_cascade :
    ∃ e r, parse (cascadeText 9) = .ok e ∧ simplify e = .ok r ∧ pass r.expr ≠ .ok r.expr ∧
      simplified r.expr ≠ .ok r.expr ∧ ¬ NeverGivesUp r := by
  obtain ⟨r, steps, moving, changed, event⟩ :=
    @gives_up_of_many 9 (by decide)
  exact ⟨cascadeProduct 9, r, parse_cascadeText 9, steps, moving, changed,
    fun never => never _ _ event⟩

end ArithTree.Expr
