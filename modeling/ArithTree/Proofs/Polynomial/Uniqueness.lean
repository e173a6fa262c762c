import ArithTree.Proofs.Polynomial.Form
import ArithTree.Proofs.Polynomial.Magnitude

/-!
# Normal forms of polynomials are unique

`Reordered e e'` says that `e` and `e'` are the same but for the order in which the terms of sums
and products stand. Two settled polynomials are the same in this sense if they have the same form
(`Settled.reordered`). The reason is that no two terms of a settled chain can be merged, so that the
form of the chain tells which terms there are (`Formed`).
-/

namespace ArithTree

open ArithTree.Expr

namespace Expr

/-! ## Reordering -/

/-- The same expression but for the order of the terms of sums and products, wherever these
stand. -/
inductive Reordered : Expr → Expr → Prop where
  | refl (e : Expr) : Reordered e e
  | trans {a b c : Expr} (first : Reordered a b) (second : Reordered b c) : Reordered a c
  | swap {op : Op} (chain : op = .add ∨ op = .mul) (before : List Expr) (a b : Expr)
      (after : List Expr) :
    Reordered (.node op (before ++ a :: b :: after)) (.node op (before ++ b :: a :: after))
  | argument (op : Op) (before : List Expr) {a b : Expr} (after : List Expr) (h : Reordered a b) :
    Reordered (.node op (before ++ a :: after)) (.node op (before ++ b :: after))

theorem reordered_of_perm {op : Op} (chain : op = .add ∨ op = .mul) {args args' : List Expr}
    (h : args.Perm args') : Reordered (.node op args) (.node op args') := by
  -- The induction goes through lists with terms in front.
  suffices ∀ before : List Expr,
      Reordered (.node op (before ++ args)) (.node op (before ++ args')) from this []
  induction h with
  | nil =>
    intro before
    exact .refl _
  | cons a _ ih =>
    intro before
    simpa using ih (before ++ [a])
  | swap a b after =>
    intro before
    exact .swap chain before b a after
  | trans _ _ ih₁ ih₂ =>
    intro before
    exact (ih₁ before).trans (ih₂ before)

theorem reordered_of_forall₂ (op : Op) {args args' : List Expr}
    (h : List.Forall₂ Reordered args args') : Reordered (.node op args) (.node op args') := by
  suffices ∀ before : List Expr,
      Reordered (.node op (before ++ args)) (.node op (before ++ args')) from this []
  induction h with
  | nil =>
    intro before
    exact .refl _
  | @cons a a' as as' first _ ih =>
    intro before
    have rest := ih (before ++ [a'])
    rw [List.append_assoc, List.append_assoc] at rest
    exact (Reordered.argument op before as first).trans rest

/-- If the forms of the terms are the same but for their order, terms of the same form can be put at
the same places. -/
theorem exists_perm_of_codes {args args' : List Expr}
    (h : (args.map fun a => a.form.code).Perm (args'.map fun a => a.form.code)) :
    ∃ as, List.Forall₂ (fun a a' => a.form = a'.form) args as ∧ as.Perm args' := by
  have codes : List.Forall₂ (fun (n : ℕ) (a : Expr) => n = a.form.code)
      (args'.map fun a => a.form.code) args' := by
    rw [List.forall₂_map_left_iff, List.forall₂_same]
    exact fun _ _ => rfl
  obtain ⟨as, same, perm⟩ := List.perm_comp_forall₂ h codes
  rw [List.forall₂_map_left_iff] at same
  exact ⟨as, same.imp fun _ _ h => Form.code_injective h, perm⟩

end Expr

/-! ## The terms of a settled chain -/

section Chain

variable {M : Type} [CommMonoid M] {c : Chain} {S : Splitting M}

/-- How a term of a chain is split: as a constant, as occurrences of a variable, or as what it
is. -/
theorem Chain.Splits.split_kinds (splits : c.Splits S) {a : Expr}
    (other : a.constant? = none → a.occurrences? c.repetition = none →
      S.split a.form = .ofCode a.form.code) :
    S.Plain a.form ∧
      ((S.split a.form).constant = 1 ∨ ∃ n, a.constant? = some n) ∧
      ∀ v ∈ (S.split a.form).names, ∃ n, a.occurrences? c.repetition = some (v, n) := by
  cases constant : a.constant? with
  | some n =>
    cases a with
    | num m =>
      refine ⟨by rw [form_num]; exact .int m.value, .inr ⟨n, rfl⟩, ?_⟩
      rw [form_num, S.split_int]
      simp [Terms.ofConstant]
    | var | node => cases constant
  | none =>
    cases counted : a.occurrences? c.repetition with
    | some t =>
      have pos := Chain.pos_of_occurrences? counted
      have form := splits.counted a t.1 t.2 counted
      rw [form, S.split_multiple t.1 (by omega), Terms.ofVar_pow]
      refine ⟨.multiple t.1 (by omega), .inl rfl, ?_⟩
      intro v hv
      obtain rfl : v = t.1 := by simpa using Multiset.mem_of_mem_nsmul hv
      exact ⟨t.2, rfl⟩
    | none =>
      have split := other constant counted
      refine ⟨.other split, .inl ?_, ?_⟩
      · rw [split]
        rfl
      · rw [split]
        simp [Terms.ofCode]

/-- The form of a settled chain is made of its terms, and tells which they are. -/
theorem Expr.SettledChain.form_eq (splits : c.Splits S) {args : List Expr} (h : SettledChain c args)
    (other : ∀ a ∈ args, a.constant? = none → a.occurrences? c.repetition = none →
      S.split a.form = .ofCode a.form.code) :
    ∃ t, (Expr.node c.op args).form = S.join t ∧
      S.atoms t = (args.map fun a => a.form.code : List ℕ) := by
  have kinds := fun a ha => splits.split_kinds (other a ha)
  have plain : ∀ f ∈ args.map form, S.Plain f := by
    simp only [List.forall_mem_map]
    exact fun a ha => (kinds a ha).1
  have constants : args.Pairwise fun a b =>
      ∀ n, a.constant? = some n → ∀ m, b.constant? = some m → False := by
    rw [← List.pairwise_filterMap]
    match args.filterMap constant?, h.constants with
    | [], _ => exact .nil
    | [_], _ => exact List.pairwise_singleton _ _
  have counts := List.pairwise_filterMap.1 (List.pairwise_map.1 h.apart.counts)
  have apart : ((args.map form).map S.split).Pairwise Terms.Apart := by
    rw [List.map_map, List.pairwise_map]
    refine (constants.and counts).imp_of_mem ?_
    rintro a b ha hb ⟨constants, counts⟩
    obtain ⟨_, constant, names⟩ := kinds a ha
    obtain ⟨_, constant', names'⟩ := kinds b hb
    constructor
    · rcases constant with none | ⟨n, hn⟩
      · exact .inl none
      · exact .inr (constant'.resolve_right fun ⟨m, hm⟩ => constants n hn m hm)
    · rw [Multiset.disjoint_left]
      intro v hv hv'
      obtain ⟨n, hn⟩ := names v hv
      obtain ⟨m, hm⟩ := names' v hv'
      exact counts _ hn _ hm rfl
  refine ⟨_, ?_, (S.atoms_prod _ plain apart).trans (by rw [List.map_map]; rfl)⟩
  rw [form_node, splits.form]
  exact S.form_of_apart _ (by simpa using h.two) plain apart

end Chain

namespace Expr

/-- A settled polynomial and its form, with what the form says of the terms. -/
inductive Formed : Expr → Form → Prop where
  | num (n : Numeral) : Formed (.num n) (.int n.value)
  | var (x : String) : Formed (.var x) (.var x)
  | power (v : String) {k : Int} (many : 1 < k) :
    Formed (.node .pow [.var v, ofInt k]) (.product (.ofVar v ^ k.toNat))
  | sum {args : List Expr} {t : Terms (Multiplicative ℤ)} (settled : SettledChain .sum args)
      (inner : ∀ a ∈ args, Formed a a.form)
      (atoms : sums.atoms t = (args.map fun a => a.form.code : List ℕ)) :
    Formed (.node .add args) (.sum t)
  | product {args : List Expr} {t : Terms ℤ} (settled : SettledChain .product args)
      (inner : ∀ a ∈ args, Formed a a.form)
      (atoms : products.atoms t = (args.map fun a => a.form.code : List ℕ)) :
    Formed (.node .mul args) (.product t)

theorem Formed.eq_num {e : Expr} {k : Int} (h : Formed e (.int k)) :
    ∃ n : Numeral, e = .num n ∧ n.value = k := by
  cases h
  exact ⟨_, rfl, rfl⟩

theorem Formed.eq_var {e : Expr} {v : String} (h : Formed e (.var v)) : e = .var v := by
  cases h
  rfl

theorem exists_mem_of_code {args : List Expr} {f : Form}
    (h : f.code ∈ args.map fun a => a.form.code) : ∃ a ∈ args, a.form = f := by
  obtain ⟨a, ha, same⟩ := List.mem_map.1 h
  exact ⟨a, ha, Form.code_injective same⟩

/-- If the terms of a product are a number greater than one and a variable, the product counts as a
variable in a sum. -/
theorem counted_of_atoms {args : List Expr} {v : String} {k : ℕ} (many : 1 < k)
    (inner : ∀ a ∈ args, Formed a a.form)
    (atoms : products.atoms (.ofConstant (k : ℤ) * .ofVar v) =
      (args.map fun a => a.form.code : List ℕ)) :
    occurrences? .mul (.node .mul args) ≠ none := by
  have number : products.atoms (.ofConstant (k : ℤ)) = {(Form.int k).code} :=
    products.atoms_split (.int k)
  have single : products.atoms (.ofVar v) = {(Form.var v).code} :=
    products.atoms_split (.multiple v Nat.one_pos)
  rw [products.atoms_mul (Terms.apart_ofConstant_ofVar (k : ℤ) v), number, single] at atoms
  have perm : [(Form.int k).code, (Form.var v).code].Perm (args.map fun a => a.form.code) :=
    Multiset.coe_eq_coe.1 atoms
  have two : args.length = 2 := by
    have length := perm.length_eq
    rw [List.length_map] at length
    exact length.symm
  obtain ⟨x, hx, xform⟩ : ∃ x ∈ args, x.form = .int k :=
    exists_mem_of_code (perm.mem_iff.1 (by simp))
  obtain ⟨y, hy, yform⟩ : ∃ y ∈ args, y.form = .var v :=
    exists_mem_of_code (perm.mem_iff.1 (by simp))
  obtain ⟨n, rfl, value⟩ := (xform ▸ inner x hx).eq_num
  obtain rfl := (yform ▸ inner y hy).eq_var
  have many' : 1 < n.value := by omega
  rcases pair_of_mem hx hy (by simp) two with rfl | rfl
  · simp [occurrences?, many']
  · simp [occurrences?, many']

/-- What is no numeral and does not count as a variable stands for itself in a sum. -/
theorem Formed.asSum_other {a : Expr} {f : Form} (h : Formed a f) (flat : isNode .add a = false)
    (constant : a.constant? = none) (uncounted : a.occurrences? .mul = none) :
    f.asSum = .ofCode f.code := by
  cases h with
  | num n => cases constant
  | var x => cases uncounted
  | power v many =>
    refine dif_neg ?_
    rintro ⟨w, k, _, h⟩
    rw [Terms.ofVar_pow] at h
    cases congrArg Terms.constant h
  | sum => simp [isNode] at flat
  | product settled inner atoms =>
    refine dif_neg ?_
    rintro ⟨v, k, many, rfl⟩
    exact counted_of_atoms many inner atoms uncounted

/-- What is no numeral and does not count as a variable stands for itself in a product. -/
theorem Formed.asProduct_other {a : Expr} {f : Form} (h : Formed a f)
    (flat : isNode .mul a = false) (constant : a.constant? = none)
    (uncounted : a.occurrences? .pow = none) : f.asProduct = .ofCode f.code := by
  cases h with
  | num n => cases constant
  | var x => cases uncounted
  | @power v k many => simp [occurrences?, ofInt, many] at uncounted
  | sum => rfl
  | product => simp [isNode] at flat

theorem SettledChain.formed {c : Chain} {args : List Expr} (h : SettledChain c args)
    (inner : ∀ a ∈ args, Formed a a.form) :
    Formed (.node c.op args) (Expr.node c.op args).form := by
  rcases h.ring with rfl | rfl
  · obtain ⟨t, form, atoms⟩ := h.form_eq Chain.splits_sum
      fun a ha => (inner a ha).asSum_other (h.flat a ha)
    rw [form]
    exact .sum h inner atoms
  · obtain ⟨t, form, atoms⟩ := h.form_eq Chain.splits_product
      fun a ha => (inner a ha).asProduct_other (h.flat a ha)
    rw [form]
    exact .product h inner atoms

theorem form_power (v : String) {k : Int} (many : 1 < k) :
    (Expr.node .pow [.var v, ofInt k]).form = .product (.ofVar v ^ k.toNat) := by
  simp only [form_node, List.map_cons, List.map_nil, form_var, form_ofInt, Op.form]
  exact if_neg (by omega)

theorem Settled.formed {e : Expr} (h : Settled e) : Formed e e.form := by
  refine h.induction (motive := fun e => Formed e e.form) ?num ?var ?power ?chain
  case num =>
    intro n
    rw [form_num]
    exact .num n
  case var =>
    intro x
    rw [form_var]
    exact .var x
  case power =>
    intro v k many
    rw [form_power v many]
    exact .power v many
  case chain =>
    intro c args settled inner
    exact settled.formed inner

/-- No settled product is a power of a variable. -/
theorem ne_ofVar_pow {args : List Expr} {t : Terms ℤ} (settled : SettledChain .product args)
    (atoms : products.atoms t = (args.map fun a => a.form.code : List ℕ)) (v : String) {k : Int}
    (many : 1 < k) : t ≠ .ofVar v ^ k.toNat := by
  rintro rfl
  have power : products.atoms (.ofVar v ^ k.toNat) = {(products.multiple v k.toNat).code} := by
    rw [← products.atoms_split (.multiple v (by omega)), products.split_multiple v (by omega)]
  have one := congrArg Multiset.card (power.symm.trans atoms)
  have two := settled.two
  rw [Multiset.card_singleton, Multiset.coe_card, List.length_map] at one
  omega

/-! ## Main statement -/

/-- Chains of terms that can be reordered into each other, if their forms are the same. -/
theorem reordered_of_codes {op : Op} (chain : op = .add ∨ op = .mul) {args args' : List Expr}
    (h : (args.map fun a => a.form.code).Perm (args'.map fun a => a.form.code))
    (each : ∀ a ∈ args, ∀ a' ∈ args', a.form = a'.form → Reordered a a') :
    Reordered (.node op args) (.node op args') := by
  obtain ⟨as, same, perm⟩ := exists_perm_of_codes h
  refine (reordered_of_forall₂ op ?_).trans (reordered_of_perm chain perm)
  rw [List.forall₂_iff_get] at same ⊢
  refine ⟨same.1, fun i h₁ h₂ => ?_⟩
  exact each _ (List.get_mem ..) _ (perm.mem_iff.1 (List.get_mem ..)) (same.2 i h₁ h₂)

/-- Settled polynomials of the same form are the same but for the order of terms. -/
theorem Settled.reordered {e e' : Expr} (h : Settled e) (h' : Settled e') (same : e.form = e'.form)
    (textFree : TextFree e) (textFree' : TextFree e') : Reordered e e' := by
  refine h.induction (motive := fun e => ∀ e', Settled e' → e.form = e'.form → TextFree e →
    TextFree e' → Reordered e e') ?num ?var ?power ?chain e' h' same textFree textFree'
  case num =>
    intro n e' h' same textFree textFree'
    have formed := h'.formed
    rw [← same, form_num] at formed
    obtain ⟨m, rfl, value⟩ := formed.eq_num
    rw [textFree.eq_ofInt, textFree'.eq_ofInt, value]
    exact .refl _
  case var =>
    intro x e' h' same _ _
    have formed := h'.formed
    rw [← same, form_var] at formed
    rw [formed.eq_var]
    exact .refl _
  case power =>
    intro v k many e' h' same _ _
    have formed := h'.formed
    rw [← same, form_power v many] at formed
    generalize ht : (.ofVar v ^ k.toNat : Terms ℤ) = t at formed
    cases formed with
    | @power w l many' =>
      obtain ⟨rfl, exponents⟩ := Terms.ofVar_pow_inj (by omega) ht
      obtain rfl : k = l := by omega
      exact .refl _
    | product settled _ atoms => exact absurd ht.symm (ne_ofVar_pow settled atoms v many)
  case chain =>
    intro c args settled ih e' h' same _ _
    have formed := settled.formed fun a ha => (settled.settled a ha).formed
    have formed' := h'.formed
    rw [← same] at formed'
    have terms {args' : List Expr} (settled' : SettledChain c args') :
        ∀ a ∈ args, ∀ a' ∈ args', a.form = a'.form → Reordered a a' := fun a ha a' ha' same =>
      ih a ha a' (settled'.settled a' ha') same (settled.textFree a ha) (settled'.textFree a' ha')
    generalize (Expr.node c.op args).form = f at formed formed'
    rcases settled.ring with rfl | rfl
    · cases formed with
      | sum _ _ atoms =>
        cases formed' with
        | sum settled' _ atoms' =>
          exact reordered_of_codes (.inl rfl) (Multiset.coe_eq_coe.1 (atoms.symm.trans atoms'))
            (terms settled')
    · cases formed with
      | product _ _ atoms =>
        cases formed' with
        | power v many => exact absurd rfl (ne_ofVar_pow settled atoms v many)
        | product settled' _ atoms' =>
          exact reordered_of_codes (.inr rfl) (Multiset.coe_eq_coe.1 (atoms.symm.trans atoms'))
            (terms settled')

end Expr

end ArithTree
