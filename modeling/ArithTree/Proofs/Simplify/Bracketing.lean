import ArithTree.Proofs.Reading.Folding

/-!
# The brackets of chains

It does not matter for a pass how nested sums are bracketed, nor how nested products are, unless
there is a quotient among the factors (`Rebracketed`): a quotient is moved to the front only of the
product that it stands in. The reason is that a pass depends on no more of an expression than is
left when all such chains are spliced (`spliced`), wherever they stand. Rules act in the same way on
applications that are spliced to the same (`Rewrites.respliced`), and give them arguments that are
spliced to the same again.

Main statement: `brackets_do_not_matter`.
-/

namespace ArithTree.Expr

/-! ## Bracketing -/

/-- The application is a chain that can be bracketed in any way: a sum, or a product without a
quotient among its factors. -/
def Spliceable (op : Op) (args : List Expr) : Prop :=
  op = .add ∨ op = .mul ∧ ∀ t ∈ chainTermsAll .mul args, isNode .div t = false

instance (op : Op) (args : List Expr) : Decidable (Spliceable op args) :=
  inferInstanceAs (Decidable
    (op = .add ∨ op = .mul ∧ ∀ t ∈ chainTermsAll .mul args, isNode .div t = false))

/-- Every sum and every product has two arguments or more, and every other application two. -/
abbrev Regular : Expr → Prop := Everywhere fun op args => op.Admits args.length ∧ 2 ≤ args.length

theorem regular_iff {e : Expr} : Regular e ↔ WellFormed e ∧ Several e := everywhere_and _

/-- The same expression but for the brackets of sums and of products without quotients, wherever
these stand. -/
inductive Rebracketed : Expr → Expr → Prop where
  | refl (e : Expr) : Rebracketed e e
  | symm {a b : Expr} (h : Rebracketed a b) : Rebracketed b a
  | trans {a b c : Expr} (first : Rebracketed a b) (second : Rebracketed b c) : Rebracketed a c
  | chain {op : Op} {args args' : List Expr} (free : Spliceable op args)
      (regular : Regular (.node op args)) (regular' : Regular (.node op args'))
      (same : chainTermsAll op args = chainTermsAll op args') :
    Rebracketed (.node op args) (.node op args')
  | argument (op : Op) (before : List Expr) {a b : Expr} (after : List Expr)
      (h : Rebracketed a b) :
    Rebracketed (.node op (before ++ a :: after)) (.node op (before ++ b :: after))

theorem Rebracketed.regular_iff {e e' : Expr} (h : Rebracketed e e') : Regular e ↔ Regular e' := by
  induction h with
  | refl e => exact Iff.rfl
  | symm _ ih => exact ih.symm
  | trans _ _ ih₁ ih₂ => exact ih₁.trans ih₂
  | chain _ regular regular' => exact iff_of_true regular regular'
  | argument op before after _ ih =>
    simp only [Regular, everywhere_node, List.forall_mem_append, List.forall_mem_cons,
      List.length_append, List.length_cons] at ih ⊢
    rw [ih]

/-! ## Splicing -/

/-- The application of an operator with nested chains spliced, if they can be bracketed in any
way. -/
def splice : Expr → Expr
  | .node op args => if Spliceable op args then .node op (chainTermsAll op args) else .node op args
  | e => e

/-- An expression with chains spliced wherever they can be bracketed in any way. -/
def spliced (e : Expr) : Expr := fold splice e

@[simp] theorem spliced_num (n : Numeral) : spliced (.num n) = .num n := fold_num splice n

@[simp] theorem spliced_var (x : String) : spliced (.var x) = .var x := fold_var splice x

theorem spliced_node (op : Op) (args : List Expr) :
    spliced (.node op args) = splice (.node op (args.map spliced)) := fold_node splice op args

@[simp] theorem isNode_spliced (op : Op) (e : Expr) : isNode op (spliced e) = isNode op e := by
  cases e with
  | num | var => simp
  | node o args =>
    rw [spliced_node, splice]
    split <;> rfl

@[simp] theorem constant?_spliced (e : Expr) : (spliced e).constant? = e.constant? := by
  cases e with
  | num | var => simp
  | node o args =>
    rw [spliced_node, splice]
    split <;> rfl

theorem chainTerms_spliced (op : Op) (args : List Expr) :
    (spliced (.node op args)).chainTerms op = chainTermsAll op (args.map spliced) := by
  rw [spliced_node, splice]
  split
  · rw [chainTerms, if_pos rfl,
      chainTermsAll_of_not_isNode (not_isNode_of_mem_chainTermsAll (args.map spliced))]
  · rw [chainTerms, if_pos rfl]

theorem chainTermsAll_spliced (op : Op) (es : List Expr) :
    chainTermsAll op (es.map spliced) = (chainTermsAll op es).map spliced :=
  chainTermsAll_map (isNode_spliced op) (chainTerms_spliced op) es

theorem spliceable_map_iff {op : Op} {args : List Expr} :
    Spliceable op (args.map spliced) ↔ Spliceable op args := by
  simp only [Spliceable, chainTermsAll_spliced, List.forall_mem_map, isNode_spliced]

theorem spliced_of_spliceable {op : Op} {args : List Expr} (h : Spliceable op args) :
    spliced (.node op args) = .node op ((chainTermsAll op args).map spliced) := by
  rw [spliced_node, splice, if_pos (spliceable_map_iff.2 h), chainTermsAll_spliced]

theorem spliced_of_not_spliceable {op : Op} {args : List Expr} (h : ¬ Spliceable op args) :
    spliced (.node op args) = .node op (args.map spliced) := by
  rw [spliced_node, splice, if_neg (mt spliceable_map_iff.1 h)]

/-- Brackets are lost when chains are spliced. -/
theorem Rebracketed.spliced_eq {e e' : Expr} (h : Rebracketed e e') : spliced e = spliced e' := by
  induction h with
  | refl e => rfl
  | symm _ ih => exact ih.symm
  | trans _ _ ih₁ ih₂ => exact ih₁.trans ih₂
  | @chain op args args' free _ _ same =>
    have free' : Spliceable op args' := by
      obtain rfl | ⟨rfl, noQuotient⟩ := free
      · exact .inl rfl
      · exact .inr ⟨rfl, same ▸ noQuotient⟩
    rw [spliced_of_spliceable free, spliced_of_spliceable free', same]
  | argument op before after _ ih =>
    rw [spliced_node, spliced_node, List.map_append, List.map_append, List.map_cons, List.map_cons,
      ih]

/-! ## What is seen of a spliced expression -/

theorem exists_node_of_spliced {op : Op} {args : List Expr} {e : Expr}
    (h : spliced (.node op args) = spliced e) : ∃ args', e = .node op args' := by
  rw [← isNode_iff, ← isNode_spliced, ← h, isNode_spliced, isNode_iff]
  exact ⟨args, rfl⟩

/-- Nothing is spliced into a numeral or a variable. -/
theorem eq_of_spliced_eq {e leaf : Expr} (isLeaf : ∀ op, isNode op leaf = false)
    (h : spliced e = leaf) : e = leaf := by
  cases e with
  | num | var => simpa using h
  | node op args =>
    have := isNode_spliced op (.node op args)
    rw [h, isLeaf op] at this
    simp [isNode] at this

theorem spliced_of_leaf {leaf : Expr} (isLeaf : ∀ op, isNode op leaf = false) :
    spliced leaf = leaf := by
  cases leaf with
  | num | var => simp
  | node op args => simpa [isNode] using isLeaf op

theorem spliced_leaves {op : Op} {x y : Expr} (hx : ∀ op, isNode op x = false)
    (hy : ∀ op, isNode op y = false) : spliced (.node op [x, y]) = .node op [x, y] := by
  have flat : ∀ a ∈ [x, y], isNode op a = false := by simp [hx op, hy op]
  have leaves : [x, y].map spliced = [x, y] := by
    simp [spliced_of_leaf hx, spliced_of_leaf hy]
  rw [spliced_node, leaves, splice, chainTermsAll_of_not_isNode flat, ite_self]

/-- An application to two leaves is spliced only from itself. -/
theorem spliced_eq_leaves_iff {op : Op} {x y e : Expr} (hx : ∀ op, isNode op x = false)
    (hy : ∀ op, isNode op y = false) (several : Several e) :
    spliced e = .node op [x, y] ↔ e = .node op [x, y] := by
  constructor
  · intro h
    obtain ⟨args, rfl⟩ := exists_node_of_spliced ((spliced_leaves hx hy).trans h.symm)
    obtain ⟨two, several⟩ := several_node.1 several
    have same : args.map spliced = [x, y] := by
      by_cases free : Spliceable op args
      · rw [spliced_of_spliceable free] at h
        have terms := (Expr.node.inj h).2
        have length := congrArg List.length terms
        simp only [List.length_map, List.length_cons, List.length_nil] at length
        obtain ⟨le, unchanged⟩ : args.length ≤ (chainTermsAll op args).length ∧ _ :=
          chainTermsAll_of_length several
        rwa [unchanged (by omega)] at terms
      · rw [spliced_of_not_spliceable free] at h
        exact (Expr.node.inj h).2
    obtain ⟨a, rest, rfl, ha, same⟩ := List.map_eq_cons_iff.1 same
    obtain ⟨b, rest, rfl, hb, same⟩ := List.map_eq_cons_iff.1 same
    rw [List.map_eq_nil_iff.1 same, eq_of_spliced_eq hx ha, eq_of_spliced_eq hy hb]
  · rintro rfl
    exact spliced_leaves hx hy

theorem occurrences?_spliced {e : Expr} (several : Several e) (repetition : Op) :
    (spliced e).occurrences? repetition = e.occurrences? repetition := by
  have unchanged {term : Expr} (only : spliced e = term ↔ e = term)
      (h : term = e ∨ term = spliced e) : spliced e = e := by
    rcases h with same | same
    · exact (only.2 same.symm).trans same
    · exact same.symm.trans (only.1 same.symm).symm
  -- Whichever of the two counts, it is one of the terms that are spliced only from themselves.
  have counted {term : Expr} {t : String × Int} (h : term = e ∨ term = spliced e)
      (ht : term.occurrences? repetition = some t) : spliced e = e := by
    rcases Chain.occurrences?_eq_some ht with ⟨rfl, _⟩ | ⟨k, _, _, rfl | ⟨_, rfl⟩⟩
    · exact unchanged ⟨eq_of_spliced_eq fun _ => rfl, fun same => by rw [same, spliced_var]⟩ h
    · exact unchanged (spliced_eq_leaves_iff (fun _ => rfl) (fun _ => rfl) several) h
    · exact unchanged (spliced_eq_leaves_iff (fun _ => rfl) (fun _ => rfl) several) h
  cases h : e.occurrences? repetition with
  | some t => rw [counted (.inl rfl) h, h]
  | none =>
    cases h' : (spliced e).occurrences? repetition with
    | none => rfl
    | some t =>
      rw [counted (.inr rfl) h', h] at h'
      cases h'

theorem spliced_multiple (repetition : Op) (v : String) (n : Int) :
    spliced (multiple repetition v n) = multiple repetition v n := by
  unfold multiple
  split
  · exact spliced_leaves (fun _ => rfl) fun _ => rfl
  · exact spliced_leaves (fun _ => rfl) fun _ => rfl

theorem collected_spliced (c : Chain) {args : List Expr} (several : ∀ a ∈ args, Several a) :
    c.collected (args.map spliced) = (c.collected args).map spliced := by
  refine c.collected_map (g := id) Function.injective_id (fun n => spliced_num _) spliced_var
    (spliced_multiple c.repetition) (fun a _ => constant?_spliced a) ?_
  intro a ha
  rw [occurrences?_spliced (several a ha), Prod.map_id, Option.map_id]
  rfl

/-! ## Applications that are spliced to the same -/

theorem spliceable_iff {op : Op} {args : List Expr} :
    Spliceable op args ↔
      op = .add ∨ op = .mul ∧ ∀ t ∈ (chainTermsAll op args).map spliced, isNode .div t = false := by
  simp only [Spliceable, List.forall_mem_map, isNode_spliced]
  apply or_congr_right
  apply and_congr_right
  rintro rfl
  exact Iff.rfl

/-- A factor that is a quotient keeps a product from being spliced. -/
theorem not_isNode_of_spliceable {args : List Expr} (h : Spliceable .mul args) :
    ∀ e ∈ args, isNode .div e = false := by
  obtain absurd | ⟨_, noQuotient⟩ := h
  · cases absurd
  intro e he
  cases quotient : isNode .div e with
  | false => rfl
  | true =>
    obtain ⟨parts, rfl⟩ := isNode_iff.1 quotient
    exact quotient.symm.trans (noQuotient _ (mem_chainTermsAll he rfl))

theorem forall_not_isNode_of_map_spliced {op : Op} {args args' : List Expr}
    (same : args.map spliced = args'.map spliced) (none : ∀ e ∈ args, isNode op e = false) :
    ∀ e ∈ args', isNode op e = false := by
  have none : ∀ t ∈ args.map spliced, isNode op t = false := by simpa using none
  rw [same] at none
  simpa using none

section Same

variable {op : Op} {args args' : List Expr}
  (same : spliced (.node op args) = spliced (.node op args'))

include same

theorem map_spliced_chainTermsAll :
    (chainTermsAll op args).map spliced = (chainTermsAll op args').map spliced := by
  have terms := congrArg (chainTerms op) same
  rwa [chainTerms_spliced, chainTerms_spliced, chainTermsAll_spliced, chainTermsAll_spliced]
    at terms

theorem spliceable_iff_of_spliced_eq : Spliceable op args ↔ Spliceable op args' := by
  rw [spliceable_iff, spliceable_iff, map_spliced_chainTermsAll same]

/-- Where nothing can be spliced, the arguments are spliced to the same. -/
theorem map_spliced_of_not_spliceable (bound : ¬ Spliceable op args) :
    args.map spliced = args'.map spliced := by
  have bound' := mt (spliceable_iff_of_spliced_eq same).2 bound
  rw [spliced_of_not_spliceable bound, spliced_of_not_spliceable bound'] at same
  exact (Expr.node.inj same).2

end Same

theorem map_spliced_collected (c : Chain) {args args' : List Expr}
    (several : Several (.node c.op args)) (several' : Several (.node c.op args'))
    (same : spliced (.node c.op args) = spliced (.node c.op args')) :
    (c.collected (chainTermsAll c.op args)).map spliced =
      (c.collected (chainTermsAll c.op args')).map spliced := by
  rw [← collected_spliced c (everywhere_of_mem_chainTermsAll (several_node.1 several).2),
    ← collected_spliced c (everywhere_of_mem_chainTermsAll (several_node.1 several').2),
    map_spliced_chainTermsAll same]

/-- What is spliced to the same as an application to two arguments that cannot be spliced. -/
theorem exists_pair_of_spliced {op : Op} {a b e : Expr} (bound : ¬ Spliceable op [a, b])
    (same : spliced (.node op [a, b]) = spliced e) :
    ∃ a' b', e = .node op [a', b'] ∧ spliced a = spliced a' ∧ spliced b = spliced b' := by
  obtain ⟨args, rfl⟩ := exists_node_of_spliced same
  have maps := (map_spliced_of_not_spliceable same bound).symm
  obtain ⟨a', rest, rfl, ha, maps⟩ := List.map_eq_cons_iff.1 maps
  obtain ⟨b', rest, rfl, hb, maps⟩ := List.map_eq_cons_iff.1 maps
  rw [List.map_nil, List.map_eq_nil_iff] at maps
  exact ⟨a', b', by rw [maps], ha.symm, hb.symm⟩

theorem eq_num_of_spliced {n : Numeral} {e : Expr} (same : spliced (.num n) = spliced e) :
    e = .num n :=
  eq_of_spliced_eq (fun _ => rfl) (same.symm.trans (spliced_num n))

/-! ## Rules and passes -/

/-- An application whose arguments have been spliced. -/
def splicedArguments (e : Expr) : Expr := foldArguments splice e

@[simp] theorem splicedArguments_node (op : Op) (args : List Expr) :
    splicedArguments (.node op args) = .node op (args.map spliced) := rfl

/-- Rules act in the same way on applications that are spliced to the same, and give them arguments
that are spliced to the same. -/
theorem Rewrites.respliced {op : Op} {args args' : List Expr} {r : Expr} (h : Rewrites op args r)
    (several : Several (.node op args)) (several' : Several (.node op args'))
    (same : spliced (.node op args) = spliced (.node op args')) :
    ∃ r', Rewrites op args' r' ∧ splicedArguments r = splicedArguments r' := by
  cases h with
  | sum =>
    refine ⟨_, .sum args', ?_⟩
    exact congrArg (Expr.node .add) (map_spliced_collected .sum several several' same)
  | product noQuotient =>
    have noQuotient' : ∀ e ∈ args', isNode .div e = false := by
      by_cases free : Spliceable .mul args'
      · exact not_isNode_of_spliceable free
      · exact forall_not_isNode_of_map_spliced (map_spliced_of_not_spliceable same.symm free).symm
          noQuotient
    refine ⟨_, .product noQuotient', ?_⟩
    exact congrArg (Expr.node .mul) (map_spliced_collected .product several several' same)
  | @hoist before after numer denom first =>
    have bound : ¬ Spliceable .mul (before ++ .node .div [numer, denom] :: after) := by
      intro free
      have := not_isNode_of_spliceable free (.node .div [numer, denom]) (by simp)
      cases this
    have maps := (map_spliced_of_not_spliceable same bound).symm
    rw [List.map_append, List.map_cons] at maps
    obtain ⟨before', rest, rfl, hbefore, maps⟩ := List.map_eq_append_iff.1 maps
    obtain ⟨quotient, after', rfl, hquotient, hafter⟩ := List.map_eq_cons_iff.1 maps
    obtain ⟨numer', denom', rfl, hnumer, hdenom⟩ :=
      exists_pair_of_spliced (by simp [Spliceable]) hquotient.symm
    have first' := forall_not_isNode_of_map_spliced hbefore.symm first
    refine ⟨_, .hoist after' numer' denom' first', ?_⟩
    simp [spliced_node, hbefore, hafter, hnumer, hdenom]
  | difference left right =>
    obtain ⟨left', right', heq, hleft, hright⟩ := exists_pair_of_spliced (by simp [Spliceable]) same
    cases heq
    refine ⟨_, .difference left' right', ?_⟩
    simp [spliced_node, hleft, hright]
  | leftQuotient a b single =>
    obtain ⟨q, c', heq, hq, hc⟩ := exists_pair_of_spliced (by simp [Spliceable]) same
    obtain ⟨a', b', rfl, ha, hb⟩ := exists_pair_of_spliced (by simp [Spliceable]) hq
    cases heq
    rw [← isNode_spliced, hc, isNode_spliced] at single
    refine ⟨_, .leftQuotient a' b' single, ?_⟩
    simp [spliced_node, ha, hb, hc]
  | rightQuotient b c single =>
    obtain ⟨a', q, heq, ha, hq⟩ := exists_pair_of_spliced (by simp [Spliceable]) same
    obtain ⟨b', c', rfl, hb, hc⟩ := exists_pair_of_spliced (by simp [Spliceable]) hq
    cases heq
    rw [← isNode_spliced, ha, isNode_spliced] at single
    refine ⟨_, .rightQuotient b' c' single, ?_⟩
    simp [spliced_node, ha, hb, hc]
  | whole nonzero value =>
    obtain ⟨a', b', heq, ha, hb⟩ := exists_pair_of_spliced (by simp [Spliceable]) same
    cases heq
    rw [eq_num_of_spliced ha, eq_num_of_spliced hb]
    exact ⟨_, .whole nonzero value, rfl⟩
  | fraction nonzero value =>
    obtain ⟨a', b', heq, ha, hb⟩ := exists_pair_of_spliced (by simp [Spliceable]) same
    cases heq
    rw [eq_num_of_spliced ha, eq_num_of_spliced hb]
    exact ⟨_, .fraction nonzero value, rfl⟩
  | @quotient left right none_or_both noFraction =>
    obtain ⟨left', right', heq, hleft, hright⟩ := exists_pair_of_spliced (by simp [Spliceable]) same
    cases heq
    rw [← isNode_spliced, ← isNode_spliced .div right, hleft, hright, isNode_spliced,
      isNode_spliced] at none_or_both
    refine ⟨_, .quotient none_or_both ?_, by simp [hleft, hright]⟩
    rintro a b rfl rfl
    exact noFraction a b (eq_num_of_spliced hleft.symm) (eq_num_of_spliced hright.symm)
  | evaluated nonneg compact =>
    obtain ⟨b', e', heq, hb, he⟩ := exists_pair_of_spliced (by simp [Spliceable]) same
    cases heq
    rw [eq_num_of_spliced hb, eq_num_of_spliced he]
    exact ⟨_, .evaluated nonneg compact, rfl⟩
  | @power base exponent kept =>
    obtain ⟨base', exponent', heq, hbase, hexponent⟩ :=
      exists_pair_of_spliced (by simp [Spliceable]) same
    cases heq
    refine ⟨_, .power ?_, by simp [hbase, hexponent]⟩
    rintro b e rfl rfl
    exact kept b e (eq_num_of_spliced hbase.symm) (eq_num_of_spliced hexponent.symm)

theorem eq_num_of_splicedArguments {n : Numeral} {r : Expr}
    (same : splicedArguments (.num n) = splicedArguments r) : r = .num n := by
  cases r with
  | num | var => exact same.symm
  | node => cases same

theorem exists_node_of_splicedArguments {op : Op} {args : List Expr} {r : Expr}
    (same : splicedArguments (.node op args) = splicedArguments r) :
    ∃ args', r = .node op args' ∧ args.map spliced = args'.map spliced := by
  cases r with
  | num | var => cases same
  | node op' args' =>
    simp only [splicedArguments_node, Expr.node.injEq] at same
    exact ⟨args', by rw [same.1], same.2⟩

/-- A pass gives `result` for every expression that is spliced to the same as `e`. -/
def PassesTo (e result : Expr) : Prop :=
  Several e → ∀ e', Several e' → spliced e = spliced e' → pass e' = .ok result

theorem forall₂_pass_of_passesTo {args args' results : List Expr}
    (h : List.Forall₂ PassesTo args results) (several : ∀ a ∈ args, Several a)
    (several' : ∀ a ∈ args', Several a) (same : args.map spliced = args'.map spliced) :
    List.Forall₂ (fun a result => pass a = .ok result) args' results := by
  induction h generalizing args' with
  | nil =>
    rw [List.map_eq_nil_iff.1 same.symm]
    exact .nil
  | cons first _ ih =>
    obtain ⟨a', rest', rfl, ha, hrest⟩ := List.map_eq_cons_iff.1 same.symm
    rw [List.forall_mem_cons] at several several'
    exact .cons (first several.1 a' several'.1 ha.symm) (ih several.2 several'.2 hrest.symm)

/-- What a pass gives depends on the spliced expression alone. -/
theorem exists_pass_passesTo {e : Expr} (wf : WellFormed e) :
    ∃ e', pass e = .ok e' ∧ PassesTo e e' := by
  refine pass_related (R := PassesTo) ?num ?var ?evaluated ?node wf
  case num =>
    intro n _ e' _ same
    rw [eq_num_of_spliced same, pass_num]
  case var =>
    intro x _ e' _ same
    rw [eq_of_spliced_eq (fun _ => rfl) (same.symm.trans (spliced_var x)), pass_var]
  case evaluated =>
    intro op args n rewrites several e' several' same
    obtain ⟨args', rfl⟩ := exists_node_of_spliced same
    obtain ⟨r', rewrites', same'⟩ := rewrites.respliced several several' same
    rw [eq_num_of_splicedArguments same'] at rewrites'
    exact rewrites'.pass_num
  case node =>
    intro op args op' new results _ rewrites related several e' several' same
    obtain ⟨args', rfl⟩ := exists_node_of_spliced same
    obtain ⟨r', rewrites', same'⟩ := rewrites.respliced several several' same
    obtain ⟨new', rfl, maps⟩ := exists_node_of_splicedArguments same'
    apply rewrites'.pass_node
    exact forall₂_pass_of_passesTo (related.imp fun _ _ h => h.2) (rewrites.several several).2
      (rewrites'.several several').2 maps

/-- Expressions that differ in their brackets alone become the same by a pass, and are therefore
simplified to the same if at least one pass may be made. -/
theorem brackets_do_not_matter {e e' : Expr} (regular : Regular e) (same : Rebracketed e e') :
    (∃ next, pass e = .ok next ∧ pass e' = .ok next) ∧
    ∀ allowed : Int, 1 ≤ allowed →
      ∃ x, simplifiedWithin allowed e = .ok x ∧ simplifiedWithin allowed e' = .ok x := by
  obtain ⟨wf, several⟩ := regular_iff.1 regular
  obtain ⟨_, several'⟩ := regular_iff.1 (same.regular_iff.1 regular)
  obtain ⟨next, passed, wf', passesTo⟩ := exists_pass_and (exists_pass wf)
    (exists_pass_passesTo wf)
  have passed' : pass e' = .ok next := passesTo several e' several' same.spliced_eq
  refine ⟨⟨next, passed, passed'⟩, ?_⟩
  intro allowed positive
  obtain ⟨more, hmore⟩ : ∃ more, allowed.toNat = more + 1 := ⟨allowed.toNat - 1, by omega⟩
  obtain ⟨x, times, _⟩ := exists_passTimes (fun _ => exists_pass) wf' more
  refine ⟨x, ?_, ?_⟩
  · rw [simplifiedWithin_eq_passTimes, hmore, passTimes_succ passed, times]
  · rw [simplifiedWithin_eq_passTimes, hmore, passTimes_succ passed', times]

/-- A sum in the numerator of a factor is bracketed in two ways. -/
theorem brackets_do_not_matter_of_numerator :
    let product := fun sum => node .mul [node .div [sum, .var "c"], .var "d"]
    let e := product (node .add [node .add [.var "a", .var "b"], .var "a"])
    let e' := product (node .add [.var "a", node .add [.var "b", .var "a"]])
    let sum := node .add [node .mul [ofInt 2, .var "a"], .var "b"]
    let next := node .div [node .mul [sum, .var "d"], .var "c"]
    Regular e ∧ Rebracketed e e' ∧ pass e = .ok next ∧ pass e' = .ok next ∧
      ∃ x, simplifiedWithin 1 e = .ok x ∧ simplifiedWithin 1 e' = .ok x := by
  intro product e e' sum next
  have regular : Regular e := by decide
  have same : Rebracketed e e' := by
    apply Rebracketed.argument .mul []
    apply Rebracketed.argument .div []
    exact .chain (.inl rfl) (by decide) (by decide) (by simp [chainTermsAll, chainTerms])
  obtain ⟨⟨next', passed, passed'⟩, simplified⟩ := brackets_do_not_matter regular same
  have computed : pass e = .ok next := by decide +kernel
  cases passed.symm.trans computed
  exact ⟨regular, same, passed, passed', simplified 1 (Int.le_refl 1)⟩

end ArithTree.Expr
