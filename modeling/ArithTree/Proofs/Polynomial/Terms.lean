import Mathlib.Algebra.Group.WithOne.Defs
import Mathlib.Algebra.Order.Group.Multiset
import Mathlib.Data.Countable.Basic
import Mathlib.Data.Finset.Basic
import Mathlib.Data.Multiset.Bind
import Mathlib.Data.Multiset.UnionInter
import Mathlib.Logic.Equiv.List
import Mathlib.Tactic.Abel

/-!
# Terms and forms

`Terms` are what a chain is made of when it does not matter how they are grouped and in which order
they stand: a constant if there is one, the occurrences of variables, and all other terms. A `Form`
is an integer, a variable, a sum or a product of terms. Forms that stand for terms have codes.

A `Splitting` says how the forms of sums, or those of products, are taken apart into terms and put
together. The terms of a chain in which nothing is left to be merged can be told from their product
(`Splitting.atoms_prod`).
-/

namespace ArithTree

/-! ## Terms -/

/-- The terms of a chain: the value of its constants, in a monoid, the occurrences of variables, and
codes of what else there is. -/
@[ext] structure Terms (M : Type) where
  constant : WithOne M
  names : Multiset String
  others : Multiset ℕ

namespace Terms

variable {M : Type}

/-- The terms that are one constant. -/
def ofConstant (m : M) : Terms M := ⟨m, 0, 0⟩

instance : One (Terms M) := ⟨⟨1, 0, 0⟩⟩

@[simp] theorem constant_one : (1 : Terms M).constant = 1 := rfl

@[simp] theorem names_one : (1 : Terms M).names = 0 := rfl

@[simp] theorem others_one : (1 : Terms M).others = 0 := rfl

/-- The terms that are one variable. -/
def ofVar (v : String) : Terms M := ⟨1, {v}, 0⟩

/-- The terms that are one other term. -/
def ofCode (n : ℕ) : Terms M := ⟨1, 0, {n}⟩

/-- Two lists of terms can be told apart in their product: not both have constants, and no variable
is in both. -/
def Apart (s t : Terms M) : Prop :=
  (s.constant = 1 ∨ t.constant = 1) ∧ Disjoint s.names t.names

theorem Apart.symm {s t : Terms M} (h : Apart s t) : Apart t s := ⟨h.1.symm, h.2.symm⟩

theorem apart_ofConstant_ofVar (m : M) (v : String) : Apart (ofConstant m) (ofVar v) :=
  ⟨.inr rfl, Multiset.disjoint_left.2 (by simp [ofConstant])⟩

section CommMonoid

variable [CommMonoid M]

instance : Mul (Terms M) :=
  ⟨fun s t => ⟨s.constant * t.constant, s.names + t.names, s.others + t.others⟩⟩

@[simp] theorem constant_mul (s t : Terms M) : (s * t).constant = s.constant * t.constant := rfl

@[simp] theorem names_mul (s t : Terms M) : (s * t).names = s.names + t.names := rfl

@[simp] theorem others_mul (s t : Terms M) : (s * t).others = s.others + t.others := rfl

instance : CommMonoid (Terms M) where
  mul_assoc r s t := by ext1 <;> simp [mul_assoc, add_assoc]
  mul_comm s t := by ext1 <;> simp [mul_comm, add_comm]
  one_mul t := by ext1 <;> simp
  mul_one t := by ext1 <;> simp

theorem ofConstant_mul (m n : M) : ofConstant (m * n) = ofConstant m * ofConstant n := by
  ext1 <;> simp [ofConstant]

theorem ofVar_pow (v : String) (k : ℕ) : (ofVar v : Terms M) ^ k = ⟨1, k • {v}, 0⟩ := by
  induction k with
  | zero => rw [pow_zero, zero_nsmul]; rfl
  | succ k ih =>
    rw [pow_succ, ih, succ_nsmul]
    ext1 <;> simp [ofVar]

/-- Powers of a variable tell the variable and the exponent. -/
theorem ofVar_pow_inj {v w : String} {k l : ℕ} (pos : 0 < k)
    (h : (ofVar v : Terms M) ^ k = ofVar w ^ l) : v = w ∧ k = l := by
  rw [ofVar_pow, ofVar_pow] at h
  have names : k • {v} = l • ({w} : Multiset String) := congrArg Terms.names h
  have member : v ∈ l • ({w} : Multiset String) := by
    rw [← names, Multiset.mem_nsmul]
    exact ⟨by omega, Multiset.mem_singleton_self v⟩
  constructor
  · exact Multiset.mem_singleton.1 (Multiset.mem_of_mem_nsmul member)
  · simpa using congrArg Multiset.card names

theorem Apart.mul_right {r s t : Terms M} (hs : Apart r s) (ht : Apart r t) : Apart r (s * t) := by
  refine ⟨?_, ?_⟩
  · rcases hs.1 with h | h
    · exact .inl h
    · refine ht.1.imp_right fun h' => ?_
      rw [constant_mul, h, h', one_mul]
  · rw [names_mul, Multiset.disjoint_add_right]
    exact ⟨hs.2, ht.2⟩

theorem Apart.prod_right {r : Terms M} {ts : List (Terms M)} (h : ∀ t ∈ ts, Apart r t) :
    Apart r ts.prod := by
  induction ts with
  | nil => exact ⟨.inr rfl, Multiset.disjoint_left.2 (by simp)⟩
  | cons t ts ih =>
    rw [List.forall_mem_cons] at h
    rw [List.prod_cons]
    exact h.1.mul_right (ih h.2)

end CommMonoid

end Terms

/-! ## Forms -/

/-- What there is to know of a polynomial, but for the order of terms. -/
inductive Form where
  | int (n : ℤ)
  | var (v : String)
  | sum (t : Terms (Multiplicative ℤ))
  | product (t : Terms ℤ)

instance countableChar : Countable Char :=
  Function.Injective.countable (f := Char.toNat) fun _ _ h => Char.toNat_inj.1 h

instance countableString : Countable String :=
  Function.Injective.countable (f := String.toList) fun _ _ h => String.toList_inj.1 h

instance {M : Type} [Countable M] : Countable (Terms M) := by
  have : Countable (WithOne M) := inferInstanceAs (Countable (Option M))
  have injective : Function.Injective fun t : Terms M => (t.constant, t.names, t.others) := by
    rintro ⟨⟩ ⟨⟩ h
    cases h
    rfl
  exact injective.countable

namespace Form

/-- Forms as elements of a sum of types. -/
def parts : Form → (ℤ ⊕ String) ⊕ (Terms (Multiplicative ℤ) ⊕ Terms ℤ)
  | .int n => .inl (.inl n)
  | .var v => .inl (.inr v)
  | .sum t => .inr (.inl t)
  | .product t => .inr (.inr t)

theorem parts_injective : Function.Injective parts := by
  rintro (_ | _ | _ | _) (_ | _ | _ | _) h <;> cases h <;> rfl

instance : Countable Form :=
  have : Countable (Terms (Multiplicative ℤ)) := inferInstanceAs (Countable (Terms ℤ))
  parts_injective.countable

/-- A number for each form. -/
noncomputable def code : Form → ℕ := (Countable.exists_injective_nat Form).choose

theorem code_injective : Function.Injective code :=
  (Countable.exists_injective_nat Form).choose_spec

end Form

/-! ## Splitting -/

/-- How forms are taken apart into the terms of a chain, and the form of a chain is put together
from its terms. `many v k` is the form of the term for `k` occurrences of `v`, for `k` greater than
one. -/
structure Splitting (M : Type) [CommMonoid M] where
  int : ℤ ≃ M
  split : Form → Terms M
  join : Terms M → Form
  many : String → ℕ → Form
  split_join : ∀ t, split (join t) = t
  split_int : ∀ n, split (.int n) = .ofConstant (int n)
  split_var : ∀ v, split (.var v) = .ofVar v
  split_many : ∀ v k, 1 < k → split (many v k) = .ofVar v ^ k

namespace Splitting

variable {M : Type} [CommMonoid M] (S : Splitting M)

/-- The form of the term for `k` occurrences of a variable. -/
def multiple (v : String) (k : ℕ) : Form := if k = 1 then .var v else S.many v k

theorem split_multiple (v : String) {k : ℕ} (pos : 0 < k) :
    S.split (S.multiple v k) = .ofVar v ^ k := by
  unfold multiple
  split
  · next one => rw [one, pow_one, S.split_var]
  · exact S.split_many v k (by omega)

/-- The form of a term of the chain and not of the chain itself. -/
inductive Plain : Form → Prop where
  | int (n : ℤ) : Plain (.int n)
  | multiple (v : String) {k : ℕ} (pos : 0 < k) : Plain (S.multiple v k)
  | other {f : Form} (h : S.split f = .ofCode f.code) : Plain f

/-- The code of a constant, if there is one. -/
noncomputable def constantAtoms (c : WithOne M) : Multiset ℕ :=
  Option.elim c 0 fun m => {(Form.int (S.int.symm m)).code}

/-- The codes of the forms of terms, as far as they can be told from all of them together. -/
noncomputable def atoms (t : Terms M) : Multiset ℕ :=
  S.constantAtoms t.constant +
    t.names.dedup.map (fun v => (S.multiple v (t.names.count v)).code) + t.others

@[simp] theorem constantAtoms_one : S.constantAtoms 1 = 0 := rfl

@[simp] theorem constantAtoms_coe (m : M) :
    S.constantAtoms m = {(Form.int (S.int.symm m)).code} := rfl

@[simp] theorem atoms_one : S.atoms 1 = 0 := by simp [atoms]

/-- One term can be told from itself. -/
theorem atoms_split {f : Form} (plain : S.Plain f) : S.atoms (S.split f) = {f.code} := by
  cases plain with
  | int n => simp [S.split_int, atoms, Terms.ofConstant]
  | multiple v pos =>
    rw [S.split_multiple v pos, Terms.ofVar_pow]
    simp [atoms, Multiset.dedup_nsmul (Nat.pos_iff_ne_zero.1 pos), Multiset.count_nsmul]
  | other h => simp [h, atoms, Terms.ofCode]

theorem atoms_mul {s t : Terms M} (apart : s.Apart t) :
    S.atoms (s * t) = S.atoms s + S.atoms t := by
  obtain ⟨constant, disjoint⟩ := apart
  have constants : S.constantAtoms (s.constant * t.constant) =
      S.constantAtoms s.constant + S.constantAtoms t.constant := by
    rcases constant with h | h <;> simp [h]
  have only {names others : Multiset String} (disjoint : Disjoint names others) :
      names.dedup.map (fun v => (S.multiple v ((names + others).count v)).code) =
        names.dedup.map fun v => (S.multiple v (names.count v)).code := by
    refine Multiset.map_congr rfl fun v hv => ?_
    have : v ∉ others := Multiset.disjoint_left.1 disjoint (Multiset.mem_dedup.1 hv)
    rw [Multiset.count_add, Multiset.count_eq_zero_of_notMem this, add_zero]
  have names : (s.names + t.names).dedup.map
        (fun v => (S.multiple v ((s.names + t.names).count v)).code) =
      s.names.dedup.map (fun v => (S.multiple v (s.names.count v)).code) +
        t.names.dedup.map fun v => (S.multiple v (t.names.count v)).code := by
    rw [Multiset.Disjoint.dedup_add disjoint, Multiset.map_add, only disjoint, add_comm s.names,
      only disjoint.symm]
  simp only [atoms, Terms.constant_mul, Terms.names_mul, Terms.others_mul, constants, names]
  abel

/-- The forms of terms can be told from their product, but for their order, if no two of them can be
merged. -/
theorem atoms_prod (fs : List Form) (plain : ∀ f ∈ fs, S.Plain f)
    (apart : (fs.map S.split).Pairwise Terms.Apart) :
    S.atoms (fs.map S.split).prod = (fs.map Form.code : List ℕ) := by
  induction fs with
  | nil => exact S.atoms_one
  | cons f fs ih =>
    rw [List.forall_mem_cons] at plain
    rw [List.map_cons, List.pairwise_cons] at apart
    rw [List.map_cons, List.prod_cons, S.atoms_mul (.prod_right apart.1), S.atoms_split plain.1,
      ih plain.2 apart.2]
    rfl

/-! ### Putting terms together -/

open Classical in
/-- The form that terms have together: that of the only term, if there is only one, and that of a
chain otherwise. -/
noncomputable def build (t : Terms M) : Form :=
  if h : ∃ f, S.Plain f ∧ S.split f = t then h.choose else S.join t

theorem split_build (t : Terms M) : S.split (S.build t) = t := by
  unfold build
  split
  · next h => exact h.choose_spec.2
  · exact S.split_join t

theorem build_split {f : Form} (plain : S.Plain f) : S.build (S.split f) = f := by
  have h : ∃ f', S.Plain f' ∧ S.split f' = S.split f := ⟨f, plain, rfl⟩
  rw [build, dif_pos h]
  obtain ⟨plain', same⟩ := h.choose_spec
  have codes := S.atoms_split plain'
  rw [same, S.atoms_split plain, Multiset.singleton_inj] at codes
  exact (Form.code_injective codes).symm

theorem build_of_card {t : Terms M} (many : (S.atoms t).card ≠ 1) : S.build t = S.join t := by
  apply dif_neg
  rintro ⟨f, plain, rfl⟩
  rw [S.atoms_split plain, Multiset.card_singleton] at many
  exact many rfl

/-- The form of a chain, from those of its arguments. -/
noncomputable def form (fs : List Form) : Form := S.build (fs.map S.split).prod

theorem form_singleton {f : Form} (plain : S.Plain f) : S.form [f] = f := by
  rw [form, List.map_singleton, List.prod_singleton, S.build_split plain]

/-- If no two of several terms can be merged, the form of the chain is made of them. -/
theorem form_of_apart (fs : List Form) (two : 2 ≤ fs.length) (plain : ∀ f ∈ fs, S.Plain f)
    (apart : (fs.map S.split).Pairwise Terms.Apart) : S.form fs = S.join (fs.map S.split).prod := by
  apply S.build_of_card
  rw [S.atoms_prod fs plain apart, Multiset.coe_card, List.length_map]
  omega

end Splitting

end ArithTree
