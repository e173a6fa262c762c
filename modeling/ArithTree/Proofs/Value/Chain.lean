import ArithTree.Proofs.Value.Eval
import ArithTree.Proofs.Value.Interpretation
import Mathlib.Algebra.BigOperators.Ring.List
import Mathlib.Algebra.Group.TypeTags.Basic
import Mathlib.Algebra.GroupWithZero.WithZero

/-!
# Values of sums and products of many terms

Sums and products are alike here: the value of a chain is the product of the values of its terms in
a commutative monoid, which for sums is that of the rationals under addition. `Chain.Reads` says
what the operators of a chain have to do with such a monoid. If a zero is added to it, for
expressions that have no value, it interprets the chain (`valueOrZero_chain`).

Main statement: collecting the terms of a chain refines it (`refines_collected`).
-/

namespace ArithTree

open ArithTree.Expr

/-- The values that a chain's operators give are products, once rational numbers are taken into a
commutative monoid. -/
structure Chain.Reads {M : Type} [CommMonoid M] (c : Chain) (into : ℚ → M) : Prop where
  repeats : c.repetition = .mul ∨ c.repetition = .pow
  operator : ∀ qs q, c.op.rational? qs = some q ↔ into q = (qs.map into).prod
  folded : ∀ a b n : Int, c.fold? a b = some n → into n = into a * into b
  counted : ∀ env e v n, occurrences? c.repetition e = some (v, n) →
    ∃ q, eval env e = some q ∧ into q = into (env v) ^ n.toNat

/-! ## The two chains -/

theorem natCast_toNat {n : Int} (h : 0 ≤ n) : ((n.toNat : ℕ) : ℚ) = (n : ℚ) := by
  rw [← Int.cast_natCast, Int.toNat_of_nonneg h]

theorem Chain.reads_sum : Chain.sum.Reads Multiplicative.ofAdd where
  repeats := .inl rfl
  operator qs q := by
    have : (qs.map Multiplicative.ofAdd).prod = Multiplicative.ofAdd qs.sum := by
      induction qs with
      | nil => rfl
      | cons q qs ih => rw [List.map_cons, List.prod_cons, ih, List.sum_cons, ofAdd_add]
    rw [this]
    exact Option.some_inj.trans eq_comm
  folded a b n h := by
    rw [Chain.fold?_sum] at h
    split at h
    · cases h
      rw [Int.cast_add, ofAdd_add]
    · cases h
  counted env e v n h := by
    rcases occurrences?_eq_some h with ⟨rfl, rfl⟩ | ⟨k, rfl, hk, rfl | ⟨_, rfl⟩⟩
    · exact ⟨env v, eval_var env v, by simp⟩
    · refine ⟨env v * k.value, ?_, ?_⟩
      · exact eval_pair_iff.2 ⟨_, _, eval_var env v, eval_num env k, by simp [Op.rational?]⟩
      · rw [← ofAdd_nsmul, nsmul_eq_mul, natCast_toNat (by omega), mul_comm]
    · refine ⟨k.value * env v, ?_, ?_⟩
      · exact eval_pair_iff.2 ⟨_, _, eval_num env k, eval_var env v, by simp [Op.rational?]⟩
      · rw [← ofAdd_nsmul, nsmul_eq_mul, natCast_toNat (by omega)]

theorem Chain.reads_product : Chain.product.Reads (id : ℚ → ℚ) where
  repeats := .inr rfl
  operator qs q := by
    rw [List.map_id]
    exact Option.some_inj.trans eq_comm
  folded a b n h := by
    rw [Chain.fold?_product] at h
    split at h
    · cases h
      exact Int.cast_mul a b
    · cases h
  counted env e v n h := by
    rcases occurrences?_eq_some h with ⟨rfl, rfl⟩ | ⟨k, rfl, hk, rfl | ⟨impossible, _⟩⟩
    · exact ⟨env v, eval_var env v, by simp⟩
    · refine ⟨env v ^ k.value.toNat, ?_, rfl⟩
      refine eval_pow_iff.2 ⟨_, _, eval_var env v, eval_num env k, ?_⟩
      rw [← natCast_toNat (by omega)]
      exact rationalPower?_natCast _ _
    · cases impossible

/-! ## Products of values -/

section Chain

/-- The value of an expression, taken into a monoid. -/
def valueIn {M : Type} (into : ℚ → M) (env : String → ℚ) (e : Expr) : M :=
  into ((eval env e).getD 0)

variable {env : String → ℚ}

theorem valueIn_of_eval {M : Type} {into : ℚ → M} {e : Expr} {q : ℚ} (h : eval env e = some q) :
    valueIn into env e = into q := by
  rw [valueIn, h, Option.getD_some]

theorem forall₂_eval_iff {es : List Expr} {qs : List ℚ} :
    List.Forall₂ (fun e q => eval env e = some q) es qs ↔
      (∀ e ∈ es, (eval env e).isSome) ∧ qs = es.map fun e => (eval env e).getD 0 := by
  induction es generalizing qs with
  | nil => simp
  | cons e es ih =>
    rw [List.forall₂_cons_left_iff, List.forall_mem_cons, List.map_cons]
    constructor
    · rintro ⟨q, qs, hq, hqs, rfl⟩
      obtain ⟨defined, rfl⟩ := ih.1 hqs
      exact ⟨⟨by rw [hq]; rfl, defined⟩, by rw [hq, Option.getD_some]⟩
    · rintro ⟨⟨he, hes⟩, rfl⟩
      obtain ⟨q, hq⟩ := Option.isSome_iff_exists.1 he
      exact ⟨q, _, hq, ih.2 ⟨hes, rfl⟩, by rw [hq, Option.getD_some]⟩

variable {M : Type} [CommMonoid M] {c : Chain} {into : ℚ → M}

/-- A chain has a value if its terms have, and it is the product of theirs. -/
theorem eval_chain_iff (reads : c.Reads into) {args : List Expr} {q : ℚ} :
    eval env (.node c.op args) = some q ↔
      (∀ e ∈ args, (eval env e).isSome) ∧ into q = (args.map (valueIn into env)).prod := by
  rw [eval_node_iff]
  constructor
  · rintro ⟨qs, hqs, hq⟩
    obtain ⟨defined, rfl⟩ := forall₂_eval_iff.1 hqs
    refine ⟨defined, ?_⟩
    rw [(reads.operator _ _).1 hq, List.map_map]
    rfl
  · rintro ⟨defined, hq⟩
    refine ⟨_, forall₂_eval_iff.2 ⟨defined, rfl⟩, (reads.operator _ _).2 ?_⟩
    rw [hq, List.map_map]
    rfl

end Chain

/-! ## Interpretations -/

section Interpretation

variable {env : String → ℚ} {M : Type} {into : ℚ → M}

/-- The value of an expression, taken into a monoid, and zero if it has none. -/
def valueOrZero (into : ℚ → M) (env : String → ℚ) (e : Expr) : WithZero M :=
  (eval env e).elim 0 fun q => (into q : M)

theorem valueOrZero_of_eval {e : Expr} {q : ℚ} (h : eval env e = some q) :
    valueOrZero into env e = (into q : M) := by
  rw [valueOrZero, h, Option.elim_some]

theorem valueOrZero_of_none {e : Expr} (h : eval env e = none) : valueOrZero into env e = 0 := by
  rw [valueOrZero, h, Option.elim_none]

variable [CommMonoid M] {c : Chain}

/-- Whatever a homomorphism makes of the values interprets a chain, if it interprets the
operator. -/
theorem Chain.Reads.interprets (reads : c.Reads into) {N : Type} [CommMonoid N] (hom : M →* N)
    {val : Expr → N} (value : ∀ e q, eval env e = some q → val e = hom (into q))
    (chain : ∀ args, val (.node c.op args) = (args.map val).prod) :
    c.Interprets val (fun n => hom (into n)) (fun v => hom (into (env v))) where
  repeats := reads.repeats
  numeral n := value _ _ (eval_num env n)
  folded a b n h := by rw [reads.folded a b n h, map_mul]
  counted e v n h := by
    obtain ⟨q, hq, power⟩ := reads.counted env e v n h
    rw [value e q hq, power, map_pow]
  chain := chain

theorem Chain.Reads.injective (reads : c.Reads into) : Function.Injective into := by
  intro q r same
  have operator (q : ℚ) : c.op.rational? [r] = some q ↔ into q = into r := by
    rw [reads.operator, List.map_singleton, List.prod_singleton]
  exact Option.some_inj.1 (((operator q).2 same).symm.trans ((operator r).2 rfl))

theorem eval_of_valueOrZero (reads : c.Reads into) {e : Expr} {q : ℚ}
    (h : valueOrZero into env e = (into q : M)) : eval env e = some q := by
  cases value : eval env e with
  | none => exact absurd ((valueOrZero_of_none value).symm.trans h).symm WithZero.coe_ne_zero
  | some r =>
    rw [valueOrZero_of_eval value, WithZero.coe_inj] at h
    rw [reads.injective h]

/-- A chain has the value zero if one of its terms has, and the product of theirs otherwise. -/
theorem valueOrZero_chain (reads : c.Reads into) (total : ∀ qs, (c.op.rational? qs).isSome)
    (args : List Expr) :
    valueOrZero into env (.node c.op args) = (args.map (valueOrZero into env)).prod := by
  by_cases defined : ∀ e ∈ args, (eval env e).isSome
  · have values : args.map (valueOrZero into env) =
        (args.map (valueIn into env)).map WithZero.coeMonoidHom := by
      rw [List.map_map]
      refine List.map_congr_left fun e he => ?_
      obtain ⟨q, hq⟩ := Option.isSome_iff_exists.1 (defined e he)
      rw [valueOrZero_of_eval hq, Function.comp_apply, valueIn_of_eval hq]
      rfl
    obtain ⟨q, hq⟩ := Option.isSome_iff_exists.1 (total (args.map fun e => (eval env e).getD 0))
    have product : into q = (args.map (valueIn into env)).prod := by
      rw [(reads.operator _ _).1 hq, List.map_map]
      rfl
    rw [valueOrZero_of_eval ((eval_chain_iff reads).2 ⟨defined, product⟩), product, values,
      ← map_list_prod]
    rfl
  · have none : eval env (.node c.op args) = none := by
      by_contra value
      obtain ⟨q, hq⟩ := Option.ne_none_iff_exists'.1 value
      exact defined ((eval_chain_iff reads).1 hq).1
    push Not at defined
    obtain ⟨e, he, undefined⟩ := defined
    rw [valueOrZero_of_none none]
    refine (List.prod_eq_zero (List.mem_map.2 ⟨e, he, valueOrZero_of_none ?_⟩)).symm
    simpa using undefined

/-- Splicing a chain and collecting its terms keeps its value. -/
theorem refines_collected (reads : c.Reads into) (total : ∀ qs, (c.op.rational? qs).isSome)
    (args : List Expr) :
    Refines (.node c.op args) (.node c.op (c.collected (chainTermsAll c.op args))) := by
  intro env q hq
  have interprets : c.Interprets (valueOrZero into env) (fun n => ((into n : M) : WithZero M))
      (fun v => ((into (env v) : M) : WithZero M)) :=
    reads.interprets WithZero.coeMonoidHom (fun _ _ => valueOrZero_of_eval)
      (valueOrZero_chain reads total)
  apply eval_of_valueOrZero reads
  rw [interprets.collected, valueOrZero_of_eval hq]

end Interpretation

end ArithTree
