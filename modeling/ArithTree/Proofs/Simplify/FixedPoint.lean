import ArithTree.Proofs.Simplify.NormalForm

/-!
# Fixed points of a pass

The expressions that a pass leaves as they are are those in normal form. One half of this is
`pass_of_stable`. For the other half, note that a pass does not raise the potential of an
expression, and that one that keeps it has made a normal form: its rules have only tidied, nowhere
has an application been replaced by its only argument, and the arguments that the pass made, being
of the same kinds as those it started from (`Kin`), stand in the groups they were put into.

Main statement: `pass_eq_self_iff`.
-/

namespace ArithTree.Expr

/-! ## What a pass keeps when it keeps the potential -/

/-- `e'` is of the same kind as `e`: it has the same outermost operator if any, it is a numeral or a
variable only if `e` is that, and it counts as a variable only if `e` does. -/
structure Kin (e e' : Expr) : Prop where
  num : ∀ n, e' = .num n → e = .num n
  var : ∀ x, e' = .var x → e = .var x
  root : ∀ op, isNode op e' = isNode op e
  counted : ∀ repetition, repetition = .mul ∨ repetition = .pow →
    e.occurrences? repetition = none → e'.occurrences? repetition = none

theorem Kin.refl (e : Expr) : Kin e e := ⟨fun _ h => h, fun _ h => h, fun _ => rfl, fun _ _ h => h⟩

/-- An argument and what a pass makes of it, in normal form and of the same kind. -/
def Settles (e e' : Expr) : Prop := pass e = .ok e' ∧ Everywhere Stable e' ∧ Kin e e'

/-- Nothing else can become of an expression in normal form. -/
theorem Settles.eq_of_stable {e e' : Expr} (h : Settles e e') (stable : Everywhere Stable e) :
    e' = e := by
  have same := h.1.symm.trans (pass_of_stable stable)
  exact Except.ok.inj same

theorem stable_multiple (repetition : Op) (v : String) (n : Int) :
    Everywhere Stable (multiple repetition v n) := by
  unfold multiple
  split
  · rw [everywhere_node]
    refine ⟨⟨⟨by simp [ofInt, isNode], by simp [ofInt, isNode], ?_⟩, by simp⟩, by simp [ofInt]⟩
    exact ⟨⟨[n], [], [], [v]⟩, rfl, ⟨.singleton n, by simp, by simp, by simp⟩⟩
  · rw [everywhere_node]
    refine ⟨⟨?_, by simp⟩, by simp [ofInt]⟩
    rintro b e ⟨⟩

section Chain

variable {c : Chain} {fold : Int → Int → Int} {merged : String → Int → Expr}

theorem eq_of_settles {es es' : List Expr} (h : List.Forall₂ Settles es es')
    (stable : ∀ e ∈ es, Everywhere Stable e) : es' = es := by
  induction h with
  | nil => rfl
  | cons first _ ih =>
    rw [List.forall_mem_cons] at stable
    rw [first.eq_of_stable stable.1, ih stable.2]

/-- What a pass makes of collected terms is in normal form, if none of them could be merged. -/
theorem normalTerms_of_settles (follows : c.Follows fold merged) {args results : List Expr}
    (apart : c.Apart args) (h : List.Forall₂ Settles (c.collected args) results) :
    NormalTerms fold merged (IsOther c.op) results := by
  obtain ⟨_, singles, hfront, hsingles, rfl⟩ := forall₂_append_left h
  obtain ⟨_, others, hfolded, hothers, rfl⟩ := forall₂_append_left hfront
  obtain ⟨constants, repeats, hconstants, hrepeats, rfl⟩ := forall₂_append_left hfolded
  -- Constants and variables are left as they are, so only the third group is new.
  have constants_eq := eq_of_settles hconstants (by simp [ofInt])
  have repeats_eq := eq_of_settles hrepeats (by
    simp only [List.forall_mem_map]
    intro t _
    exact stable_multiple _ t.1 t.2)
  have singles_eq := eq_of_settles hsingles (by simp)
  refine ⟨⟨c.constants args, (c.counts args).filter (1 < ·.2), others,
    ((c.counts args).filter (·.2 == 1)).map (·.1)⟩, ?_, ?_, ?_, ?_, ?_⟩
  · rw [constants_eq, repeats_eq, singles_eq]
    simp [Groups.terms, follows.merges, Function.comp_def]
  · rw [apart.constants_eq]
    exact apart.constants.imp fun a b => (follows.folds a b).1
  · intro t ht
    simpa using (List.mem_filter.1 ht).2
  · intro e' he'
    obtain ⟨e, he, _, _, kin⟩ := exists_of_mem_right hothers he'
    have kind := (List.mem_filter.1 he).2
    simp only [Bool.and_eq_true, Option.isNone_iff_eq_none] at kind
    refine (follows.isOther e').2 ⟨?_, kin.counted _ follows.repeats kind.2⟩
    cases e' with
    | num n =>
      rw [kin.num n rfl] at kind
      exact kind.1
    | var | node => rfl
  -- The variables are those that were counted, cut in two.
  · have all := (List.filter_append_perm (fun t => decide (1 < t.2)) (c.counts args)).map (·.1)
    rw [c.filter_one_counts, ← List.map_append]
    apply all.nodup_iff.2
    rw [apart.counts_eq]
    exact apart.counts

/-- Collecting terms makes no application of an operator that none of them is an application of, if
the term for a repeated variable is none. -/
theorem not_isNode_of_mem_collected {op : Op} {args : List Expr}
    (h : ∀ e ∈ args, isNode op e = false)
    (hmultiple : ∀ v n, isNode op (multiple c.repetition v n) = false) :
    ∀ e ∈ c.collected args, isNode op e = false := by
  intro e he
  simp only [Chain.collected, List.mem_append, List.mem_map] at he
  rcases he with ((⟨n, _, rfl⟩ | ⟨t, _, rfl⟩) | he) | ⟨t, _, rfl⟩
  · rfl
  · exact hmultiple _ _
  · exact h e (List.mem_filter.1 he).1
  · rfl

theorem not_isNode_of_settles {op : Op} {es es' : List Expr} (h : List.Forall₂ Settles es es')
    (flat : ∀ e ∈ es, isNode op e = false) : ∀ e' ∈ es', isNode op e' = false := by
  intro e' he'
  obtain ⟨e, he, _, _, kin⟩ := exists_of_mem_right h he'
  rw [kin.root op]
  exact flat e he

end Chain

theorem normalNode_of_tidies {op : Op} {args args' results : List Expr} (h : Tidies op args args')
    (settles : List.Forall₂ Settles args' results) : NormalNode IsOther op results := by
  cases h with
  | sum flat apart =>
    have flat' := not_isNode_of_mem_collected (c := .sum) flat fun _ _ => rfl
    exact ⟨not_isNode_of_settles settles flat',
      normalTerms_of_settles Chain.follows_sum apart settles⟩
  | product flat noQuotient apart =>
    have flat' := not_isNode_of_mem_collected (c := .product) flat fun _ _ => rfl
    have noQuotient' := not_isNode_of_mem_collected (c := .product) noQuotient fun _ _ => rfl
    exact ⟨not_isNode_of_settles settles flat', not_isNode_of_settles settles noQuotient',
      normalTerms_of_settles Chain.follows_product apart settles⟩
  | @fraction a b p q denom lowest =>
    rw [eq_of_settles settles (by simp [ofInt])]
    refine ⟨rfl, ?_⟩
    rintro _ _ ⟨⟩ ⟨⟩ _
    exact ⟨rfl, rfl, lowest, denom⟩
  | @quotient left right none_or_both noFraction =>
    simp only [List.forall₂_cons_left_iff, List.forall₂_nil_left_iff] at settles
    obtain ⟨left', _, ⟨_, _, kinl⟩, ⟨right', _, ⟨_, _, kinr⟩, rfl, rfl⟩, rfl⟩ := settles
    refine ⟨by rw [kinl.root, kinr.root, none_or_both], ?_⟩
    intro a b ha hb nonzero
    exact absurd (noFraction a b (kinl.num a ha) (kinr.num b hb)) nonzero
  | @power base exponent kept =>
    simp only [List.forall₂_cons_left_iff, List.forall₂_nil_left_iff] at settles
    obtain ⟨base', _, ⟨_, _, kinb⟩, ⟨exponent', _, ⟨_, _, kine⟩, rfl, rfl⟩, rfl⟩ := settles
    intro b e hb he
    exact not_computed_iff.1 (kept b e (kinb.num b hb) (kine.num e he))

/-! ## Repeated variables come from repeated variables -/

theorem var_of_tidy {c : Chain} {e : Expr} {v : String} (h : c.tidy e = .var v) : e = .var v := by
  unfold Chain.tidy at h
  split at h
  · cases h
  · next t _ ht =>
    rcases Chain.occurrences?_eq_some ht with ⟨rfl, one⟩ | ⟨_, _, many, _⟩
    · rwa [Chain.term, if_pos one] at h
    · rw [Chain.term, if_neg (by omega)] at h
      unfold multiple at h
      split at h <;> cases h
  · exact h

theorem num_of_tidy {c : Chain} {e : Expr} {k : Numeral} (h : c.tidy e = .num k) :
    ∃ n : Numeral, e = .num n ∧ n.value = k.value := by
  unfold Chain.tidy at h
  split at h
  · next n hn =>
    cases h
    cases e with
    | num m =>
      cases hn
      exact ⟨m, rfl, rfl⟩
    | var | node => cases hn
  · next t _ _ =>
    unfold Chain.term multiple at h
    split at h
    · cases h
    · split at h <;> cases h
  · exact ⟨k, h, rfl⟩

theorem pair_of_mem {x y : Expr} {es : List Expr} (hx : x ∈ es) (hy : y ∈ es) (ne : x ≠ y)
    (two : es.length = 2) : es = [x, y] ∨ es = [y, x] := by
  obtain ⟨a, b, rfl⟩ := List.length_eq_two.1 two
  simp only [List.mem_cons, List.not_mem_nil, or_false] at hx hy
  rcases hx with rfl | rfl
  · rcases hy with rfl | rfl
    · exact absurd rfl ne
    · exact .inl rfl
  · rcases hy with rfl | rfl
    · exact .inr rfl
    · exact absurd rfl ne

/-- If a pass over the terms of a product leaves a variable and a numeral above one, in whichever
order, then the product was a repeated variable itself. -/
theorem counted_of_settles {args results : List Expr} (apart : Chain.product.Apart args)
    (settles : List.Forall₂ Settles (Chain.product.collected args) results) {k : Numeral}
    {v : String} (many : 1 < k.value) (hk : .num k ∈ results) (hv : .var v ∈ results)
    (two : results.length = 2) : occurrences? .mul (.node .mul args) ≠ none := by
  have perm := apart.collected_perm
  -- Being of the same kind, the collected terms are a variable and a numeral, and so were the terms.
  have hv' : Expr.var v ∈ args := by
    obtain ⟨e, he, _, _, kin⟩ := exists_of_mem_right settles hv
    rw [kin.var v rfl, perm.mem_iff] at he
    obtain ⟨a, ha, tidied⟩ := List.mem_map.1 he
    exact var_of_tidy tidied ▸ ha
  obtain ⟨n, hn, value⟩ : ∃ n : Numeral, Expr.num n ∈ args ∧ n.value = k.value := by
    obtain ⟨e, he, _, _, kin⟩ := exists_of_mem_right settles hk
    rw [kin.num k rfl, perm.mem_iff] at he
    obtain ⟨a, ha, tidied⟩ := List.mem_map.1 he
    obtain ⟨n, rfl, value⟩ := num_of_tidy tidied
    exact ⟨n, ha, value⟩
  have two' : args.length = 2 := by
    rw [← two, ← settles.length_eq, perm.length_eq, List.length_map]
  have many' : 1 < n.value := by omega
  rcases pair_of_mem hn hv' (by simp) two' with rfl | rfl
  · simp [occurrences?, many']
  · simp [occurrences?, many']

theorem occurrences?_of_tidies {op : Op} {args args' results : List Expr}
    (h : Tidies op args args') (settles : List.Forall₂ Settles args' results) {repetition : Op}
    (repeats : repetition = .mul ∨ repetition = .pow)
    (uncounted : occurrences? repetition (.node op args) = none) :
    occurrences? repetition (.node op results) = none := by
  by_contra counted
  obtain ⟨t, ht⟩ := Option.ne_none_iff_exists'.1 counted
  rcases Chain.occurrences?_eq_some ht with ⟨impossible, _⟩ | ⟨k, hk, many, h' | ⟨mul, h'⟩⟩
  · cases impossible
  · cases h'
    rcases repeats with rfl | rfl
    · cases h with
      | product _ _ apart =>
        exact counted_of_settles (v := t.1) apart settles (hk ▸ many) (by simp) (by simp) rfl uncounted
    · cases h with
      | power =>
        simp only [List.forall₂_cons_right_iff, List.forall₂_nil_right_iff] at settles
        obtain ⟨base, _, ⟨_, _, kinb⟩, ⟨exponent, _, ⟨_, _, kine⟩, rfl, rfl⟩, h⟩ := settles
        cases h
        rw [kinb.var _ rfl, kine.num k rfl] at uncounted
        simp [occurrences?, hk, many] at uncounted
  · subst mul
    cases h'
    cases h with
    | product _ _ apart =>
      exact counted_of_settles (v := t.1) apart settles (hk ▸ many) (by simp) (by simp) rfl uncounted

/-! ## Potential -/

theorem potential_collapse_lt {op : Op} {es : List Expr} (h : es.length = 1) :
    (collapse op es).potential < (Expr.node op es).potential := by
  obtain ⟨e, rfl⟩ := List.length_eq_one_iff.1 h
  show e.potential < _
  have := op.lt_potential (potentialAll_pos [e])
  rw [potential_node]
  simpa using this

/-- A pass does not raise the potential, and what it makes without lowering it is in normal form. -/
theorem exists_pass_potential {e : Expr} (wf : WellFormed e) :
    ∃ e', pass e = .ok e' ∧ e'.potential ≤ e.potential ∧
      (e'.potential = e.potential → Everywhere Stable e' ∧ Kin e e') := by
  refine pass_related (R := fun e e' => e'.potential ≤ e.potential ∧
    (e'.potential = e.potential → Everywhere Stable e' ∧ Kin e e')) ?num ?var ?evaluated ?node wf
  case num =>
    intro n
    exact ⟨Nat.le_refl _, fun _ => ⟨everywhere_num _ n, Kin.refl _⟩⟩
  case var =>
    intro x
    exact ⟨Nat.le_refl _, fun _ => ⟨everywhere_var _ x, Kin.refl _⟩⟩
  case evaluated =>
    intro op args n rewrites
    have := rewrites.potential_num_lt
    exact ⟨by omega, by omega⟩
  case node =>
    intro op args op' args' results _ rewrites related
    -- Neither the rule nor the passes over the arguments nor the collapse raise the potential, so if
    -- it is the same in the end, each of them has kept it.
    obtain ⟨rule, tidies⟩ := rewrites.potential_le
    have lower : List.Forall₂ (fun e e' => e'.potential ≤ e.potential) args' results :=
      related.imp fun _ _ h => h.2.1
    have inner : (Expr.node op' results).potential ≤ (Expr.node op' args').potential := by
      rw [potential_node, potential_node]
      exact Op.potential_le_iff.2 (potentialAll_le_of_forall₂ lower)
    by_cases one : results.length = 1
    · have : (collapse op' results).potential < (Expr.node op' results).potential :=
        potential_collapse_lt one
      exact ⟨by omega, by omega⟩
    · rw [collapse_of_length one]
      refine ⟨by omega, ?_⟩
      intro same
      obtain ⟨rfl, tidies⟩ := tidies (by omega)
      have same' : (Expr.node op' results).potential = (Expr.node op' args').potential := by omega
      rw [potential_node, potential_node, Op.potential_inj] at same'
      have equal := potential_eq_of_forall₂ lower same'
      have settles : List.Forall₂ Settles args' results := by
        refine (related.mp ?_ equal)
        rintro e e' ⟨passed, _, settled⟩ equal
        exact ⟨passed, settled equal⟩
      refine ⟨(everywhere_node _).2 ⟨⟨normalNode_of_tidies tidies settles, one⟩, ?_⟩,
        ⟨by simp, by simp, fun _ => rfl, ?_⟩⟩
      · intro e' he'
        obtain ⟨_, _, _, stable, _⟩ := exists_of_mem_right settles he'
        exact stable
      · intro repetition repeats
        exact occurrences?_of_tidies tidies settles repeats

/-- The fixed points of a pass are the expressions in normal form. -/
theorem pass_eq_self_iff {e : Expr} (wf : WellFormed e) :
    pass e = .ok e ↔ Everywhere Stable e := by
  constructor
  · intro fixed
    obtain ⟨e', passed, _, settled⟩ := exists_pass_potential wf
    cases fixed.symm.trans passed
    exact (settled rfl).1
  · exact pass_of_stable

/-! ## Expressions without chains of one term -/

/-- The fixed points of a pass among the expressions whose applications have two or more arguments,
and two for differences, quotients and powers. -/
theorem pass_eq_self_iff_normal {e : Expr} (wf : WellFormed e)
    (two : Everywhere (fun _ args => 2 ≤ args.length) e) :
    pass e = .ok e ↔ Normal IsOther e := by
  have several : Everywhere (fun _ args => args.length ≠ 1) e := by
    refine Everywhere.imp _ ?_ two
    intro _ args h
    omega
  rw [pass_eq_self_iff wf]
  show Everywhere (fun op args => NormalNode IsOther op args ∧ args.length ≠ 1) e ↔ _
  rw [everywhere_and]
  exact and_iff_left several

theorem pass_eq_self_iff_normal_of_product :
    let e := node .mul [ofInt 2, node .pow [.var "x", ofInt 3], node .pow [ofInt 2, .var "y"], .var "y"]
    WellFormed e ∧ Everywhere (fun _ args => 2 ≤ args.length) e ∧ Normal IsOther e ∧
      pass e = .ok e := by
  intro e
  have wf : WellFormed e := by decide
  have two : Everywhere (fun _ args => 2 ≤ args.length) e := by decide
  have normal : Normal IsOther e := by
    refine (everywhere_node _).2 ⟨⟨by decide, by decide,
      ⟨⟨[2], [("x", 3)], [node .pow [ofInt 2, .var "y"]], ["y"]⟩, rfl, ?_⟩⟩, ?_⟩
    · refine ⟨.singleton 2, by decide, ?_, by decide⟩
      rw [List.forall_mem_singleton]
      refine ⟨⟨_, _, rfl⟩, ?_⟩
      rintro ⟨⟩
    · simp only [List.forall_mem_cons, everywhere_node]
      refine ⟨everywhere_num _ _, ⟨?_, by simp [ofInt]⟩, ⟨?_, by simp [ofInt]⟩, by simp⟩
      · rintro b e ⟨⟩
      · rintro b e _ ⟨⟩
  exact ⟨wf, two, normal, (pass_eq_self_iff_normal wf two).2 normal⟩

/-- A term that is spelled like the term for a repeated variable, or like that with its arguments
exchanged. -/
inductive SpellsRepeats : Op → Expr → Prop where
  | left (k : Int) (v : String) (many : 1 < k) : SpellsRepeats .add (.node .mul [ofInt k, .var v])
  | right (k : Int) (v : String) (many : 1 < k) : SpellsRepeats .add (.node .mul [.var v, ofInt k])
  | power (k : Int) (v : String) (many : 1 < k) : SpellsRepeats .mul (.node .pow [.var v, ofInt k])
  | exchanged (k : Int) (v : String) (many : 1 < k) :
    SpellsRepeats .mul (.node .pow [ofInt k, .var v])

/-- A term that is no numeral, no variable and not spelled like a repeated variable. -/
def IsSpelledOther (op : Op) (e : Expr) : Prop := (∃ o args, e = .node o args) ∧ ¬ SpellsRepeats op e

/-- A term in the third group must be in it if it is neither a constant nor a repeated variable in
its usual spelling. -/
theorem other_of_mem {fold : Int → Int → Int} {merged : String → Int → Expr} {other : Expr → Prop}
    {args : List Expr} (h : NormalTerms fold merged other args) {op : Op} {as : List Expr}
    (he : .node op as ∈ args) (unmerged : ∀ v k, merged v k ≠ .node op as) :
    other (.node op as) := by
  obtain ⟨g, rfl, separate⟩ := h
  simp only [Groups.terms, List.mem_append, List.mem_map] at he
  rcases he with ((⟨n, _, impossible⟩ | ⟨t, _, merge⟩) | he) | ⟨v, _, impossible⟩
  · cases impossible
  · exact absurd merge (unmerged _ _)
  · exact separate.others _ he
  · cases impossible

/-- It is not the spelling that decides whether a term counts as a repeated variable. `x ^ 007`
does, and a product with it is no fixed point, though `x ^ 007` is not spelled `x ^ 7`; `2 ^ x` does
not, and a product with it is a fixed point, though `x ^ 2` would be merged. -/
theorem pass_eq_self_not_iff_spelled_normal :
    let e₁ := node .mul [node .pow [.var "x", .num ⟨7, some "007"⟩], .var "y"]
    let e₂ := node .mul [node .pow [ofInt 2, .var "x"], .var "y"]
    (WellFormed e₁ ∧ Everywhere (fun _ args => 2 ≤ args.length) e₁ ∧
      Normal IsSpelledOther e₁ ∧ pass e₁ ≠ .ok e₁) ∧
    (WellFormed e₂ ∧ Everywhere (fun _ args => 2 ≤ args.length) e₂ ∧
      ¬ Normal IsSpelledOther e₂ ∧ pass e₂ = .ok e₂) := by
  intro e₁ e₂
  have wf₁ : WellFormed e₁ := by decide
  refine ⟨⟨wf₁, by decide, ?_, ?_⟩, by decide, by decide, ?_, ?_⟩
  · refine (everywhere_node _).2 ⟨⟨by decide, by decide,
      ⟨⟨[], [], [node .pow [.var "x", .num ⟨7, some "007"⟩]], ["y"]⟩, rfl, ?_⟩⟩, ?_⟩
    · refine ⟨.nil, by decide, ?_, by decide⟩
      rw [List.forall_mem_singleton]
      refine ⟨⟨_, _, rfl⟩, ?_⟩
      rintro ⟨⟩
    · simp only [List.forall_mem_cons, everywhere_node]
      refine ⟨⟨?_, by simp⟩, by simp⟩
      rintro b e ⟨⟩
  · rw [Ne, pass_eq_self_iff wf₁]
    intro stable
    obtain ⟨⟨⟨_, _, terms⟩, _⟩, _⟩ := (everywhere_node _).1 stable
    have counted := other_of_mem terms List.mem_cons_self (by simp [ofInt, Numeral.ofInt])
    exact counted.2 (.power ⟨7, some "007"⟩ "x" (by decide))
  · intro normal
    obtain ⟨⟨_, _, terms⟩, _⟩ := (everywhere_node _).1 normal
    have uncounted := other_of_mem terms List.mem_cons_self (by simp [ofInt])
    exact uncounted.2 (.exchanged 2 "x" (by decide))
  · apply pass_of_stable
    refine (everywhere_node _).2 ⟨⟨⟨by decide, by decide,
      ⟨⟨[], [], [node .pow [ofInt 2, .var "x"]], ["y"]⟩, rfl, ?_⟩⟩, by decide⟩, ?_⟩
    · refine ⟨.nil, by decide, ?_, by decide⟩
      rw [List.forall_mem_singleton]
      refine ⟨⟨_, _, rfl⟩, ?_⟩
      rintro ⟨⟩
    · simp only [List.forall_mem_cons, everywhere_node]
      refine ⟨⟨⟨?_, by decide⟩, by simp [ofInt]⟩, by simp⟩
      rintro b e _ ⟨⟩

end ArithTree.Expr
