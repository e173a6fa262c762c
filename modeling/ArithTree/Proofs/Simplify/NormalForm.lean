import ArithTree.Proofs.Simplify.Potential

/-!
# Normal forms

An expression is in normal form if each application in it is: it is no difference; a sum has no sum
and a product neither a product nor a quotient as an argument; the terms of a chain stand in four
groups, as `NormalTerms` says; a quotient has quotients on both sides or on none, and one of
integers is in lowest terms; a power of integers cannot be computed.

This says nothing about how the rules work. Here it is shown that no rule changes an application in
normal form (`rewrites_of_normalNode`), and therefore no pass an expression in normal form
(`pass_of_stable`).
-/

namespace ArithTree

open ArithTree.Expr

/-! ## The terms of a chain -/

/-- The terms of a chain, by the four groups in which they stand. -/
structure Groups where
  constants : List Int
  repeats : List (String × Int)
  others : List Expr
  singles : List String

namespace Groups

/-- The terms themselves. `merged v k` is the term for `k` occurrences of `v`. -/
def terms (merged : String → Int → Expr) (g : Groups) : List Expr :=
  g.constants.map ofInt ++ g.repeats.map (fun t => merged t.1 t.2) ++ g.others ++
    g.singles.map .var

/-- No two neighbouring constants fold into a compact integer, repeated variables occur more
than once, what is neither a constant nor a variable is as `other` says, and no variable has
two terms. -/
structure Separate (fold : Int → Int → Int) (other : Expr → Prop) (g : Groups) : Prop where
  constants : g.constants.IsChain fun a b => ¬ Compact (fold a b)
  repeats : ∀ t ∈ g.repeats, 1 < t.2
  others : ∀ e ∈ g.others, other e
  distinct : (g.repeats.map (·.1) ++ g.singles).Nodup

end Groups

/-- The terms of a chain are in normal form. -/
def NormalTerms (fold : Int → Int → Int) (merged : String → Int → Expr) (other : Expr → Prop)
    (args : List Expr) : Prop :=
  ∃ g : Groups, args = g.terms merged ∧ g.Separate fold other

/-! ## Reading terms back -/

section Legible

variable {c : Chain} {g : Groups}

/-- The groups can be read off the terms: a repeated variable occurs more than once, and what
stands with the others is no constant and does not count as a variable. -/
structure Groups.Legible (c : Chain) (g : Groups) : Prop where
  repeats : ∀ t ∈ g.repeats, 1 < t.2
  others : ∀ e ∈ g.others, e.constant? = none ∧ e.occurrences? c.repetition = none

theorem Groups.Legible.constants_terms (legible : g.Legible c) :
    (g.terms (multiple c.repetition)).filterMap constant? = g.constants := by
  have constants : (g.constants.map ofInt).filterMap constant? = g.constants := by
    rw [List.filterMap_map]
    exact List.filterMap_some
  have repeats :
      (g.repeats.map fun t => multiple c.repetition t.1 t.2).filterMap constant? = [] := by
    simp only [List.filterMap_eq_nil_iff, List.forall_mem_map]
    intro t _
    unfold multiple
    split <;> rfl
  have others : g.others.filterMap constant? = [] := by
    rw [List.filterMap_eq_nil_iff]
    intro e he
    exact (legible.others e he).1
  have singles : (g.singles.map Expr.var).filterMap constant? = [] := by
    simp only [List.filterMap_eq_nil_iff, List.forall_mem_map]
    intro v _
    rfl
  simp only [Groups.terms, List.filterMap_append, constants, repeats, others, singles,
    List.append_nil]

theorem Groups.Legible.occurrences_terms (h : c.repetition = .mul ∨ c.repetition = .pow)
    (legible : g.Legible c) :
    (g.terms (multiple c.repetition)).filterMap (occurrences? c.repetition) =
      g.repeats ++ g.singles.map fun v => (v, 1) := by
  have constants : (g.constants.map ofInt).filterMap (occurrences? c.repetition) = [] := by
    simp only [List.filterMap_eq_nil_iff, List.forall_mem_map]
    intro n _
    rfl
  have repeats : (g.repeats.map fun t => multiple c.repetition t.1 t.2).filterMap
      (occurrences? c.repetition) = g.repeats := by
    have each : ∀ t ∈ g.repeats,
        occurrences? c.repetition (multiple c.repetition t.1 t.2) = some t := by
      intro t ht
      exact occurrences?_multiple h t.1 (legible.repeats t ht)
    rw [List.filterMap_map]
    exact (List.filterMap_congr each).trans List.filterMap_some
  have others : g.others.filterMap (occurrences? c.repetition) = [] := by
    rw [List.filterMap_eq_nil_iff]
    intro e he
    exact (legible.others e he).2
  have singles : (g.singles.map Expr.var).filterMap (occurrences? c.repetition) =
      g.singles.map fun v => (v, 1) := by
    rw [List.filterMap_map]
    show g.singles.filterMap (fun v => some (v, 1)) = _
    rw [List.filterMap_eq_map']
  simp only [Groups.terms, List.filterMap_append, constants, repeats, others, singles,
    List.append_nil, List.nil_append]

theorem Chain.others_append (c : Chain) (as bs : List Expr) :
    c.others (as ++ bs) = c.others as ++ c.others bs :=
  List.filter_append ..

theorem Groups.Legible.others_terms (h : c.repetition = .mul ∨ c.repetition = .pow)
    (legible : g.Legible c) : c.others (g.terms (multiple c.repetition)) = g.others := by
  have constants : c.others (g.constants.map ofInt) = [] := by
    simp [Chain.others, ofInt, constant?]
  have repeats : c.others (g.repeats.map fun t => multiple c.repetition t.1 t.2) = [] := by
    simp only [Chain.others, List.filter_eq_nil_iff, List.forall_mem_map]
    intro t ht
    rw [occurrences?_multiple h t.1 (legible.repeats t ht)]
    simp
  have others : c.others g.others = g.others := by
    apply List.filter_eq_self.2
    intro e he
    obtain ⟨constant, occurrences⟩ := legible.others e he
    simp [constant, occurrences]
  have singles : c.others (g.singles.map Expr.var) = [] := by
    simp [Chain.others, occurrences?]
  simp only [Groups.terms, c.others_append, constants, repeats, others, singles, List.append_nil,
    List.nil_append]

/-- The groups that the collected terms of a chain stand in. -/
def Chain.groups (c : Chain) (args : List Expr) : Groups where
  constants := c.constants args
  repeats := (c.counts args).filter (1 < ·.2)
  others := c.others args
  singles := ((c.counts args).filter (·.2 == 1)).map (·.1)

theorem Chain.collected_eq_terms (c : Chain) (args : List Expr) :
    c.collected args = (c.groups args).terms (multiple c.repetition) := by
  rw [collected_eq, Groups.terms, groups, List.map_map]
  rfl

theorem Chain.legible_groups (c : Chain) (args : List Expr) : (c.groups args).Legible c where
  repeats t ht := by simpa using (List.mem_filter.1 ht).2
  others e he := by simpa using (List.mem_filter.1 he).2

end Legible

/-! ## Applications -/

/-- The terms of sums and products that count as a repeated variable. -/
inductive Repeats : Op → Expr → Prop where
  | left (k : Numeral) (v : String) (many : 1 < k.value) :
    Repeats .add (.node .mul [.num k, .var v])
  | right (k : Numeral) (v : String) (many : 1 < k.value) :
    Repeats .add (.node .mul [.var v, .num k])
  | power (k : Numeral) (v : String) (many : 1 < k.value) :
    Repeats .mul (.node .pow [.var v, .num k])

/-- A term that is no numeral, no variable and no repeated variable. -/
def IsOther (op : Op) (e : Expr) : Prop := (∃ o args, e = .node o args) ∧ ¬ Repeats op e

/-- An application is in normal form. What may stand in the third group of a chain of `op` is said
by `other op`. -/
def NormalNode (other : Op → Expr → Prop) : Op → List Expr → Prop
  | .add, args =>
    (∀ e ∈ args, isNode .add e = false) ∧
      NormalTerms (· + ·) (fun v k => .node .mul [ofInt k, .var v]) (other .add) args
  | .mul, args =>
    (∀ e ∈ args, isNode .mul e = false) ∧ (∀ e ∈ args, isNode .div e = false) ∧
      NormalTerms (· * ·) (fun v k => .node .pow [.var v, ofInt k]) (other .mul) args
  | .div, [left, right] =>
    isNode .div left = isNode .div right ∧
      ∀ a b, left = .num a → right = .num b → b.value ≠ 0 →
        a.text = none ∧ b.text = none ∧ Int.gcd a.value b.value = 1 ∧ 2 ≤ b.value
  | .pow, [base, exponent] =>
    ∀ b e, base = .num b → exponent = .num e →
      e.value < 0 ∨ 2 ≤ b.value.natAbs ∧ (maxBits : Int) < e.value * bitLength b.value
  | _, _ => False

/-- Every application in an expression is in normal form. -/
def Normal (other : Op → Expr → Prop) : Expr → Prop := Everywhere (NormalNode other)

/-! ## Normal terms are left as they are -/

/-- The operators of a chain do what normal forms are described by. -/
structure Chain.Follows (c : Chain) (fold : Int → Int → Int) (merged : String → Int → Expr) :
    Prop where
  repeats : c.repetition = .mul ∨ c.repetition = .pow
  folds : ∀ a b, c.fold? a b = none ↔ ¬ Compact (fold a b)
  merges : ∀ v k, multiple c.repetition v k = merged v k
  isOther : ∀ e, IsOther c.op e ↔ e.constant? = none ∧ e.occurrences? c.repetition = none

theorem not_repeats_iff {op repetition : Op}
    (h : ∀ e, Repeats op e ↔ ∃ o args, e = .node o args ∧ (e.occurrences? repetition).isSome)
    (e : Expr) : IsOther op e ↔ e.constant? = none ∧ e.occurrences? repetition = none := by
  cases e with
  | num n => simp [IsOther, constant?]
  | var v => simp [IsOther, occurrences?]
  | node o args => simp [IsOther, h, constant?]

theorem Chain.follows_sum :
    Chain.sum.Follows (· + ·) fun v k => .node .mul [ofInt k, .var v] where
  repeats := .inl rfl
  folds a b := by
    rw [Chain.fold?_sum]
    split <;> simp_all
  merges v k := rfl
  isOther := by
    apply not_repeats_iff
    intro e
    constructor
    · rintro (⟨k, v, many⟩ | ⟨k, v, many⟩)
      · exact ⟨_, _, rfl, by simp [occurrences?, many]⟩
      · exact ⟨_, _, rfl, by simp [occurrences?, many]⟩
    · rintro ⟨o, args, rfl, h⟩
      obtain ⟨t, ht⟩ := Option.isSome_iff_exists.1 h
      rcases Chain.occurrences?_eq_some ht with ⟨impossible, _⟩ | ⟨k, hk, many, h | ⟨_, h⟩⟩
      · cases impossible
      · rw [h]
        exact .right k _ (hk ▸ many)
      · rw [h]
        exact .left k _ (hk ▸ many)

theorem Chain.follows_product :
    Chain.product.Follows (· * ·) fun v k => .node .pow [.var v, ofInt k] where
  repeats := .inr rfl
  folds a b := by
    rw [Chain.fold?_product]
    split <;> simp_all
  merges v k := rfl
  isOther := by
    apply not_repeats_iff
    intro e
    constructor
    · intro h
      cases h with
      | power k v many => exact ⟨_, _, rfl, by simp [occurrences?, many]⟩
    · rintro ⟨o, args, rfl, h⟩
      obtain ⟨t, ht⟩ := Option.isSome_iff_exists.1 h
      rcases Chain.occurrences?_eq_some ht with ⟨impossible, _⟩ | ⟨k, hk, many, h | ⟨impossible, _⟩⟩
      · cases impossible
      · rw [h]
        exact .power k _ (hk ▸ many)
      · cases impossible

section Terms

variable {c : Chain} {fold : Int → Int → Int} {merged : String → Int → Expr}

theorem Chain.Follows.merged_eq (follows : c.Follows fold merged) :
    merged = multiple c.repetition := by
  funext v k
  exact (follows.merges v k).symm

theorem Groups.Separate.legible (follows : c.Follows fold merged) {g : Groups}
    (separate : g.Separate fold (IsOther c.op)) : g.Legible c where
  repeats := separate.repeats
  others e he := (follows.isOther e).1 (separate.others e he)

/-- Of terms that are in normal form, no two can be merged. -/
theorem apart_of_separate (follows : c.Follows fold merged) {g : Groups}
    (separate : g.Separate fold (IsOther c.op)) : c.Apart (g.terms merged) where
  constants := by
    rw [follows.merged_eq, (separate.legible follows).constants_terms]
    exact separate.constants.imp fun a b => (follows.folds a b).2
  counts := by
    rw [follows.merged_eq, (separate.legible follows).occurrences_terms follows.repeats]
    simpa [Function.comp_def] using separate.distinct

/-- Collecting terms that are in normal form changes nothing. -/
theorem collected_of_normalTerms (follows : c.Follows fold merged) {args : List Expr}
    (h : NormalTerms fold merged (IsOther c.op) args) : c.collected args = args := by
  obtain ⟨g, rfl, separate⟩ := h
  have apart := apart_of_separate follows separate
  have legible := separate.legible follows
  obtain rfl := follows.merged_eq
  have constants : c.constants (g.terms (multiple c.repetition)) = g.constants :=
    apart.constants_eq.trans legible.constants_terms
  have counts : c.counts (g.terms (multiple c.repetition)) =
      g.repeats ++ g.singles.map fun v => (v, 1) :=
    apart.counts_eq.trans (legible.occurrences_terms follows.repeats)
  have many : (c.counts (g.terms (multiple c.repetition))).filter (1 < ·.2) = g.repeats := by
    rw [counts, List.filter_append, List.filter_eq_self.2 (by simpa using separate.repeats)]
    simp
  have once : (c.counts (g.terms (multiple c.repetition))).filter (·.2 == 1) =
      g.singles.map fun v => (v, 1) := by
    have none : g.repeats.filter (·.2 == 1) = [] := by
      rw [List.filter_eq_nil_iff]
      intro t ht
      have := separate.repeats t ht
      simp only [beq_iff_eq]
      omega
    rw [counts, List.filter_append, none, List.nil_append]
    simp
  have same : c.groups (g.terms (multiple c.repetition)) = g := by
    simp only [Chain.groups, constants, many, once, legible.others_terms follows.repeats]
    simp [Function.comp_def]
  rw [c.collected_eq_terms, same]

end Terms

namespace Expr

/-! ## Rules and passes -/

/-- A power of integers is not computed if its exponent is negative, or if its base is not small and
the bits of the base, times the exponent, are too many. -/
theorem not_computed_iff {b e : Int} :
    ¬ (0 ≤ e ∧ PowerCompact b e.toNat) ↔
      e < 0 ∨ 2 ≤ b.natAbs ∧ (maxBits : Int) < e * bitLength b := by
  by_cases neg : e < 0
  · exact iff_of_true (by omega) (.inl neg)
  · have bits : ((e.toNat * bitLength b : Nat) : Int) = e * bitLength b := by
      rw [Int.natCast_mul, Int.toNat_of_nonneg (by omega)]
    unfold PowerCompact
    omega

/-- No rule changes an application in normal form. -/
theorem rewrites_of_normalNode {op : Op} {args : List Expr} (h : NormalNode IsOther op args) :
    Rewrites op args (.node op args) := by
  unfold NormalNode at h
  split at h
  next =>
    obtain ⟨flat, terms⟩ := h
    have sum := Rewrites.sum args
    rwa [chainTermsAll_of_not_isNode flat, collected_of_normalTerms Chain.follows_sum terms] at sum
  next =>
    obtain ⟨flat, noQuotient, terms⟩ := h
    have product := Rewrites.product noQuotient
    rwa [chainTermsAll_of_not_isNode flat,
      collected_of_normalTerms Chain.follows_product terms] at product
  next left right =>
    obtain ⟨same, lowest⟩ := h
    -- A fraction in lowest terms is made anew by the rule, all else it leaves as it is.
    by_cases fraction : ∃ a b, left = .num a ∧ right = .num b ∧ b.value ≠ 0
    · obtain ⟨⟨p, _⟩, ⟨q, _⟩, rfl, rfl, nonzero⟩ := fraction
      obtain ⟨rfl, rfl, coprime, denom⟩ := lowest _ _ rfl rfl nonzero
      exact .fraction nonzero (quotient_of_coprime denom coprime)
    · apply Rewrites.quotient same
      intro a b ha hb
      by_contra nonzero
      exact fraction ⟨a, b, ha, hb, nonzero⟩
  next base exponent => exact .power fun b e hb he => not_computed_iff.2 (h b e hb he)
  next => cases h

theorem collapse_of_length {op : Op} {args : List Expr} (h : args.length ≠ 1) :
    collapse op args = .node op args := by
  unfold collapse
  split
  · exact absurd rfl h
  · rfl

/-- An application in normal form that is not replaced by its only argument. -/
def Stable (op : Op) (args : List Expr) : Prop := NormalNode IsOther op args ∧ args.length ≠ 1

/-- A pass does not change an expression in normal form. -/
theorem pass_of_stable {e : Expr} (h : Everywhere Stable e) : pass e = .ok e := by
  induction e using Expr.induction with
  | num n => exact pass_num n
  | var x => exact pass_var x
  | node op args ih =>
    obtain ⟨⟨normal, length⟩, inner⟩ := (everywhere_node _).1 h
    have passed : List.Forall₂ (fun a a' => pass a = .ok a') args args := by
      rw [List.forall₂_same]
      intro e he
      exact ih e he (inner e he)
    rw [(rewrites_of_normalNode normal).pass_node passed, collapse_of_length length]

end Expr

end ArithTree
