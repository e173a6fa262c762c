import ArithTree.Proofs.Polynomial.Pass
import ArithTree.Proofs.Polynomial.Terms
import ArithTree.Proofs.Value.Interpretation

/-!
# The form of a polynomial

The form of a polynomial is computed from the forms of its arguments alone (`Op.form`). It
interprets sums and products in the monoids of their terms (`Chain.Splits.interprets`), and for this
reason a pass keeps it (`exists_pass_form`).
-/

namespace ArithTree

open ArithTree.Expr

/-! ## Sums and products -/

open Classical in
/-- The terms that a form is in a sum. The product of a number and a variable stands for as many
occurrences of the variable, if the number is greater than one. -/
noncomputable def Form.asSum : Form → Terms (Multiplicative ℤ)
  | .int n => .ofConstant (.ofAdd n)
  | .var v => .ofVar v
  | .sum t => t
  | .product t =>
    if h : ∃ (v : String) (k : ℕ), 1 < k ∧ t = .ofConstant (k : ℤ) * .ofVar v then
      .ofVar h.choose ^ h.choose_spec.choose
    else .ofCode (Form.product t).code

/-- The terms that a form is in a product. -/
noncomputable def Form.asProduct : Form → Terms ℤ
  | .int n => .ofConstant n
  | .var v => .ofVar v
  | .sum t => .ofCode (Form.sum t).code
  | .product t => t

theorem Form.asSum_multiple (v : String) {k : ℕ} (many : 1 < k) :
    (Form.product (.ofConstant (k : ℤ) * .ofVar v)).asSum = .ofVar v ^ k := by
  have h : ∃ (w : String) (l : ℕ), 1 < l ∧ (.ofConstant (k : ℤ) * .ofVar v : Terms ℤ) =
      .ofConstant (l : ℤ) * .ofVar w := ⟨v, k, many, rfl⟩
  rw [Form.asSum, dif_pos h]
  obtain ⟨_, same⟩ := h.choose_spec.choose_spec
  have constants := congrArg Terms.constant same
  have names := congrArg Terms.names same
  simp only [Terms.constant_mul, Terms.names_mul, Terms.ofConstant, Terms.ofVar, mul_one, zero_add,
    WithOne.coe_inj, Nat.cast_inj, Multiset.singleton_inj] at constants names
  exact congrArg₂ (fun w (l : ℕ) => Terms.ofVar w ^ l) names.symm constants.symm

/-- The forms of sums. -/
noncomputable def sums : Splitting (Multiplicative ℤ) where
  int := Multiplicative.ofAdd
  split := Form.asSum
  join := .sum
  many v k := .product (.ofConstant (k : ℤ) * .ofVar v)
  split_join _ := rfl
  split_int _ := rfl
  split_var _ := rfl
  split_many v _ many := Form.asSum_multiple v many

/-- The forms of products. -/
noncomputable def products : Splitting ℤ where
  int := Equiv.refl ℤ
  split := Form.asProduct
  join := .product
  many v k := .product (.ofVar v ^ k)
  split_join _ := rfl
  split_int _ := rfl
  split_var _ := rfl
  split_many _ _ _ := rfl

/-! ## Expressions -/

/-- The form of an operator's application, from those of its arguments. Forms are of use for
polynomials only. -/
noncomputable def Op.form : Op → List Form → Form
  | .add, fs => sums.form fs
  | .mul, fs => products.form fs
  | .sub, [f, g] => sums.form [f, products.form [.int (-1), g]]
  | .pow, [.var v, .int k] => products.multiple v k.toNat
  | _, _ => .int 0

namespace Expr

mutual

/-- The form of an expression. -/
noncomputable def form : Expr → Form
  | .num n => .int n.value
  | .var x => .var x
  | .node op args => op.form (forms args)

/-- The forms of all expressions of a list. -/
noncomputable def forms : List Expr → List Form
  | [] => []
  | e :: es => e.form :: forms es

end

@[simp] theorem form_num (n : Numeral) : (Expr.num n).form = .int n.value := by rw [form]

@[simp] theorem form_ofInt (n : Int) : (ofInt n).form = .int n := form_num _

@[simp] theorem form_var (x : String) : (Expr.var x).form = .var x := by rw [form]

theorem forms_eq_map (es : List Expr) : forms es = es.map form := by
  induction es with
  | nil => rw [forms, List.map_nil]
  | cons e es ih => rw [forms, ih, List.map_cons]

theorem form_node (op : Op) (args : List Expr) :
    (Expr.node op args).form = op.form (args.map form) := by
  rw [form, forms_eq_map]

end Expr

/-! ## Chains -/

/-- The operator of a chain puts terms together as a splitting says, and its terms are counted as
they are there. -/
structure Chain.Splits {M : Type} [CommMonoid M] (c : Chain) (S : Splitting M) : Prop where
  repeats : c.repetition = .mul ∨ c.repetition = .pow
  form : c.op.form = S.form
  folded : ∀ a b n, c.fold? a b = some n → S.int n = S.int a * S.int b
  counted : ∀ e v n, occurrences? c.repetition e = some (v, n) → e.form = S.multiple v n.toNat

theorem Chain.splits_product : Chain.product.Splits products where
  repeats := .inr rfl
  form := rfl
  folded a b n h := by
    rw [Chain.fold?_product] at h
    split at h
    · cases h
      rfl
    · cases h
  counted e v n h := by
    rcases Chain.occurrences?_eq_some h with ⟨rfl, rfl⟩ | ⟨k, rfl, many, rfl | ⟨impossible, _⟩⟩
    · simp [Splitting.multiple]
    · simp [form_node, Op.form]
    · cases impossible

/-- The product of a number greater than one and a variable is the form of as many occurrences. -/
theorem products_form_multiple (v : String) {k : Int} (many : 1 < k) :
    products.form [.int k, .var v] = sums.multiple v k.toNat ∧
      products.form [.var v, .int k] = sums.multiple v k.toNat := by
  have apart := Terms.apart_ofConstant_ofVar k v
  have join : Form.product (.ofConstant k * .ofVar v) = sums.multiple v k.toNat := by
    rw [Splitting.multiple, if_neg (by omega)]
    show _ = Form.product (.ofConstant (k.toNat : ℤ) * .ofVar v)
    rw [Int.toNat_of_nonneg (by omega)]
  have plain : products.Plain (.int k) ∧ products.Plain (.var v) :=
    ⟨.int k, .multiple v (Nat.succ_pos 0)⟩
  constructor
  · rw [← join]
    refine (products.form_of_apart [.int k, .var v] (Nat.le_refl 2) (by simp [plain])
      (List.pairwise_pair.2 apart)).trans ?_
    simp [products, Form.asProduct]
  · rw [← join]
    refine (products.form_of_apart [.var v, .int k] (Nat.le_refl 2) (by simp [plain])
      (List.pairwise_pair.2 apart.symm)).trans ?_
    simp [products, Form.asProduct, mul_comm]

theorem Chain.splits_sum : Chain.sum.Splits sums where
  repeats := .inl rfl
  form := rfl
  folded a b n h := by
    rw [Chain.fold?_sum] at h
    split at h
    · cases h
      rfl
    · cases h
  counted e v n h := by
    rcases Chain.occurrences?_eq_some h with ⟨rfl, rfl⟩ | ⟨k, rfl, many, rfl | ⟨_, rfl⟩⟩
    · simp [Splitting.multiple]
    · simpa [form_node, Op.form] using (products_form_multiple v many).2
    · simpa [form_node, Op.form] using (products_form_multiple v many).1

namespace Chain.Splits

variable {M : Type} [CommMonoid M] {c : Chain} {S : Splitting M}

theorem interprets (h : c.Splits S) :
    c.Interprets (fun e => S.split e.form) (fun n => .ofConstant (S.int n)) .ofVar where
  repeats := h.repeats
  numeral n := by rw [form_num, S.split_int]
  folded a b n hn := by rw [h.folded a b n hn, Terms.ofConstant_mul]
  counted e v n hn := by
    have pos : 0 < n := Chain.pos_of_occurrences? hn
    rw [h.counted e v n hn, S.split_multiple v (by omega)]
  chain args := by
    rw [form_node, h.form, Splitting.form, S.split_build, List.map_map]
    rfl

theorem form_node (h : c.Splits S) (args : List Expr) :
    (Expr.node c.op args).form = S.build (args.map fun e => S.split e.form).prod := by
  rw [Expr.form_node, h.form, Splitting.form, List.map_map]
  rfl

/-- Splicing a chain and collecting its terms keeps its form. -/
theorem form_collected (h : c.Splits S) (args : List Expr) :
    (Expr.node c.op (c.collected (chainTermsAll c.op args))).form = (Expr.node c.op args).form := by
  rw [h.form_node, h.form_node, h.interprets.prod_collected, h.interprets.prod_spliced]

/-- A chain of one term that was collected has the form of the term. -/
theorem form_singleton (h : c.Splits S) {e : Expr}
    (collected : (∃ n, e = ofInt n) ∨ ∃ t, 0 < t.2 ∧ e = c.term t) :
    (Expr.node c.op [e]).form = e.form := by
  rw [Expr.form_node, h.form]
  apply S.form_singleton
  rcases collected with ⟨n, rfl⟩ | ⟨t, pos, rfl⟩
  · rw [form_ofInt]
    exact .int n
  · rw [h.counted _ _ _ (c.occurrences?_term h.repeats pos)]
    exact .multiple t.1 (by omega)

end Chain.Splits

namespace Expr

/-! ## Passes -/

/-- A pass keeps the form of a polynomial. -/
theorem exists_pass_form {e : Expr} (poly : IsPolynomial e) :
    ∃ e', pass e = .ok e' ∧ IsPolynomial e' ∧ e'.form = e.form := by
  have ofChain {c : Chain} (ring : c.IsRing) :
      (∀ args, (Expr.node c.op (c.collected (chainTermsAll c.op args))).form =
        (Expr.node c.op args).form) ∧
      ∀ e, ((∃ n, e = ofInt n) ∨ ∃ t, 0 < t.2 ∧ e = c.term t) →
        (Expr.node c.op [e]).form = e.form := by
    rcases ring with rfl | rfl
    · exact ⟨Chain.splits_sum.form_collected, fun _ => Chain.splits_sum.form_singleton⟩
    · exact ⟨Chain.splits_product.form_collected, fun _ => Chain.splits_product.form_singleton⟩
  refine exists_pass_polynomial (R := fun e e' => e'.form = e.form) (fun _ => rfl) (fun _ => rfl)
    (fun _ _ => rfl) ?difference ?chain ?single poly
  case difference =>
    intro left right left' negative hleft hnegative
    rw [form_node] at hnegative
    simp only [form_node, Op.form, List.map_cons, List.map_nil, hleft, hnegative, form_ofInt]
  case chain =>
    intro c args results ring related
    have same : results.map form = (c.collected (chainTermsAll c.op args)).map form := by
      rw [← List.forall₂_eq_eq_eq, List.forall₂_map_left_iff, List.forall₂_map_right_iff]
      exact related.flip
    rw [form_node, same, ← form_node, (ofChain ring).1]
  case single =>
    intro c args e ring collected shape
    rw [← (ofChain ring).1 args, collected, (ofChain ring).2 e shape]

end Expr

end ArithTree
