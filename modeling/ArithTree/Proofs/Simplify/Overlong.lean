import ArithTree.Proofs.Simplify.Bulk

/-!
# Where integers can be too long

Folded constants, computed powers and quotients can always be written if what they are made from
can. An integer that is too long is the number of occurrences of a variable. It stands as a factor
beside the variable, or as its exponent. No rule can take it from there to another place than the
factors of a product in which a variable occurs, where it folds only with zero: a pass that finds
integers that are too long only as factors beside variables and as exponents of variables leaves no
others (`exists_pass_placed`).
-/

namespace ArithTree

open ArithTree.Expr

namespace Expr

/-- An expression that is no integer that is too long to be written. -/
def NotOverlong (e : Expr) : Prop := ∀ n, e = .num n → n.value.natAbs < Decimal.bound

@[simp] theorem notOverlong_num {n : Numeral} :
    NotOverlong (.num n) ↔ n.value.natAbs < Decimal.bound := by simp [NotOverlong]

@[simp] theorem notOverlong_ofInt {n : Int} : NotOverlong (ofInt n) ↔ n.natAbs < Decimal.bound :=
  notOverlong_num

@[simp] theorem notOverlong_var (x : String) : NotOverlong (.var x) := nofun

@[simp] theorem notOverlong_node (op : Op) (args : List Expr) : NotOverlong (.node op args) := nofun

theorem notOverlong_term (c : Chain) (t : String × Int) : NotOverlong (c.term t) := by
  unfold Chain.term multiple
  split
  · simp
  · split <;> simp

/-- A variable or a power of one is among the factors. -/
def HasVariable (args : List Expr) : Prop := ∃ e ∈ args, (occurrences? .pow e).isSome

theorem hasVariable_cons {e : Expr} {es : List Expr} :
    HasVariable (e :: es) ↔ (occurrences? .pow e).isSome ∨ HasVariable es := by
  simp [HasVariable]

theorem hasVariable_append {es fs : List Expr} :
    HasVariable (es ++ fs) ↔ HasVariable es ∨ HasVariable fs := by
  simp [HasVariable, or_and_right, exists_or]

theorem occurrences?_of_ne_pow {op : Op} (h : op ≠ .pow) (args : List Expr) :
    occurrences? .pow (.node op args) = none := by
  cases counted : occurrences? .pow (.node op args) with
  | none => rfl
  | some t =>
    rcases Chain.occurrences?_eq_some counted with ⟨⟨⟩, _⟩ | ⟨k, _, _, power | ⟨⟨⟩, _⟩⟩
    cases power
    exact absurd rfl h

theorem hasVariable_node_cons {op : Op} (h : op ≠ .pow) {args es : List Expr} :
    HasVariable (.node op args :: es) ↔ HasVariable es := by
  rw [hasVariable_cons, occurrences?_of_ne_pow h]
  simp

/-- A pass leaves a variable or a power of one as it is. -/
theorem pass_of_occurrences? {e : Expr} {t : String × Int} (h : occurrences? .pow e = some t) :
    pass e = .ok e := by
  rcases Chain.occurrences?_eq_some h with ⟨rfl, _⟩ | ⟨k, _, _, rfl | ⟨⟨⟩, _⟩⟩
  · exact pass_var t.1
  · have kept : Rewrites .pow [.var t.1, .num k] (.node .pow [.var t.1, .num k]) := .power nofun
    exact kept.pass_node (.cons (pass_var t.1) (.cons (pass_num k) .nil))

end Expr

/-- Arguments that are too long only stand as factors beside a variable, or as the exponent of
one. -/
inductive Op.Places : Op → List Expr → Prop where
  | factors {args : List Expr} (h : HasVariable args) : Op.Places .mul args
  | exponent (v : String) (n : Numeral) : Op.Places .pow [.var v, .num n]
  | others {op : Op} {args : List Expr} (h : ∀ e ∈ args, NotOverlong e) : Op.Places op args

namespace Expr

/-- Everywhere, arguments that are too long only stand as factors beside variables, or as exponents
of variables. -/
abbrev Placed : Expr → Prop := Everywhere Op.Places

theorem placed_node {op : Op} {args : List Expr} :
    Placed (.node op args) ↔ op.Places args ∧ ∀ e ∈ args, Placed e := everywhere_node _

theorem placed_of_notOverlong {op : Op} {args : List Expr}
    (h : ∀ e ∈ args, NotOverlong e ∧ Placed e) : Placed (.node op args) :=
  placed_node.2 ⟨.others fun e he => (h e he).1, fun e he => (h e he).2⟩

theorem placed_mul {args : List Expr} :
    Placed (.node .mul args) ↔
      (HasVariable args ∨ ∀ e ∈ args, NotOverlong e) ∧ ∀ e ∈ args, Placed e := by
  rw [placed_node]
  refine and_congr_left fun _ => ⟨?_, ?_⟩
  · intro places
    cases places with
    | factors h => exact .inl h
    | others h => exact .inr h
  · rintro (h | h)
    · exact .factors h
    · exact .others h

theorem placed_iff {op : Op} {args : List Expr} (mul : op ≠ .mul) (pow : op ≠ .pow) :
    Placed (.node op args) ↔ ∀ e ∈ args, NotOverlong e ∧ Placed e := by
  rw [placed_node]
  refine ⟨?_, fun h => placed_node.1 (placed_of_notOverlong h)⟩
  rintro ⟨places, placed⟩ e he
  cases places with
  | factors => exact absurd rfl mul
  | exponent => exact absurd rfl pow
  | others h => exact ⟨h e he, placed e he⟩

theorem placed_pair {op : Op} {left right : Expr} (hleft : NotOverlong left ∧ Placed left)
    (hright : NotOverlong right ∧ Placed right) : Placed (.node op [left, right]) :=
  placed_of_notOverlong (by simp [hleft, hright])

theorem placed_add {args : List Expr} :
    Placed (.node .add args) ↔ ∀ e ∈ args, NotOverlong e ∧ Placed e :=
  placed_iff (by simp) (by simp)

theorem placed_sub {args : List Expr} :
    Placed (.node .sub args) ↔ ∀ e ∈ args, NotOverlong e ∧ Placed e :=
  placed_iff (by simp) (by simp)

theorem placed_div {args : List Expr} :
    Placed (.node .div args) ↔ ∀ e ∈ args, NotOverlong e ∧ Placed e :=
  placed_iff (by simp) (by simp)

theorem placed_ofInt (n : Int) : Placed (ofInt n) := everywhere_num _ _

/-! ## Chains -/

theorem notOverlong_of_mem_chainTermsAll {es : List Expr}
    (h : ∀ e ∈ es, NotOverlong e ∧ Placed e) : ∀ t ∈ chainTermsAll .add es, NotOverlong t := by
  refine chainTermsAll_induction (motive := fun es ts => (∀ e ∈ es, NotOverlong e ∧ Placed e) →
    ∀ t ∈ ts, NotOverlong t) ?nil ?single ?splice es h
  case nil => simp
  case single =>
    intro e es ts _ ih h
    rw [List.forall_mem_cons] at h ⊢
    exact ⟨h.1.1, ih h.2⟩
  case splice =>
    intro args es ts ts' ihargs ihes h
    rw [List.forall_mem_cons, placed_add] at h
    rw [List.forall_mem_append]
    exact ⟨ihargs h.1.2, ihes h.2⟩

/-- Splicing nested products leaves the variables among the factors, and gets integers that are too
long only from where there are variables. -/
theorem hasVariable_chainTermsAll (es : List Expr) :
    (HasVariable es → HasVariable (chainTermsAll .mul es)) ∧
      ((∀ e ∈ es, NotOverlong e ∧ Placed e) →
        HasVariable (chainTermsAll .mul es) ∨ ∀ t ∈ chainTermsAll .mul es, NotOverlong t) := by
  refine chainTermsAll_induction (motive := fun es ts => (HasVariable es → HasVariable ts) ∧
    ((∀ e ∈ es, NotOverlong e ∧ Placed e) → HasVariable ts ∨ ∀ t ∈ ts, NotOverlong t))
    ?nil ?single ?splice es
  case nil => exact ⟨id, fun _ => .inr (by simp)⟩
  case single =>
    rintro e es ts _ ⟨kept, placed⟩
    rw [hasVariable_cons, hasVariable_cons, List.forall_mem_cons, List.forall_mem_cons]
    refine ⟨Or.imp_right kept, ?_⟩
    rintro ⟨first, rest⟩
    rcases placed rest with beside | short
    · exact .inl (.inr beside)
    · exact .inr ⟨first.1, short⟩
  case splice =>
    rintro args es ts ts' ⟨keptInner, placedInner⟩ ⟨kept, placed⟩
    rw [hasVariable_node_cons (by simp), hasVariable_append, List.forall_mem_cons,
      List.forall_mem_append, placed_mul]
    refine ⟨fun beside => .inr (kept beside), ?_⟩
    rintro ⟨⟨_, factors, each⟩, rest⟩
    rcases factors with beside | short
    · exact .inl (.inl (keptInner beside))
    · rcases placedInner fun e he => ⟨short e he, each e he⟩ with beside | short
      · exact .inl (.inl beside)
      · exact (placed rest).imp .inr fun short' => ⟨short, short'⟩

/-- Collecting like factors leaves a variable among them. -/
theorem hasVariable_collected {args : List Expr} (h : HasVariable args) :
    HasVariable (Chain.product.collected args) := by
  obtain ⟨e, he, counted⟩ := h
  obtain ⟨t, ht⟩ := Option.isSome_iff_exists.1 counted
  have nonempty : Chain.product.counts args ≠ [] := by
    rw [Chain.counts, ne_eq, tally_eq_nil_iff]
    exact List.ne_nil_of_mem (List.mem_filterMap.2 ⟨e, he, ht⟩)
  obtain ⟨t, ht⟩ := List.exists_mem_of_ne_nil _ nonempty
  refine ⟨Chain.product.term t, ?_, ?_⟩
  · rw [(Chain.product.collected_perm args).mem_iff]
    simp only [List.mem_append]
    exact .inl (.inr (List.mem_map_of_mem ht))
  · have pos := Chain.product.pos_of_mem_counts t ht
    rw [← Chain.repetition_product, Chain.product.occurrences?_term (.inr rfl) pos]
    rfl

/-- Collecting terms that are not too long makes none that is. -/
theorem notOverlong_of_mem_collected {c : Chain} {args : List Expr} {e : Expr}
    (h : ∀ a ∈ args, NotOverlong a) (he : e ∈ c.collected args) : NotOverlong e := by
  rw [(c.collected_perm args).mem_iff] at he
  simp only [List.mem_append, List.mem_map] at he
  rcases he with (⟨n, hn, rfl⟩ | ⟨t, _, rfl⟩) | he
  · rw [notOverlong_ofInt]
    rcases Chain.mem_or_compact_of_mem_foldConstants hn with hn | compact
    · obtain ⟨a, ha, constant⟩ := List.mem_filterMap.1 hn
      cases a with
      | num m =>
        cases constant
        exact h _ ha m rfl
      | var | node => cases constant
    · exact natAbs_lt_of_compact compact
  · exact notOverlong_term c t
  · exact h e (List.mem_filter.1 he).1

/-- The only term of a chain that is left of several is not too long. -/
theorem notOverlong_of_collected_singleton {c : Chain} {args : List Expr} {e : Expr}
    (several : Several (.node c.op args)) (h : c.collected (chainTermsAll c.op args) = [e]) :
    NotOverlong e := by
  rcases collected_of_several c several with many | ⟨n, compact, single⟩ | ⟨t, _, single⟩
  · simp [h] at many
  · cases h.symm.trans single
    exact notOverlong_ofInt.2 (natAbs_lt_of_compact compact)
  · cases h.symm.trans single
    exact notOverlong_term c t

/-! ## Rules and passes -/

theorem placed_collected {c : Chain} {args : List Expr} (h : ∀ e ∈ args, Placed e) :
    ∀ e ∈ c.collected (chainTermsAll c.op args), Placed e := fun _ he =>
  everywhere_of_mem_collected (fun _ v _ => .factors ⟨.var v, by simp, rfl⟩)
    (fun v n _ => .exponent v (.ofInt n))
    (everywhere_of_mem_chainTermsAll h) he

theorem Rewrites.placed {op : Op} {args : List Expr} {e : Expr} (h : Rewrites op args e)
    (placed : Placed (.node op args)) : Placed e := by
  cases h with
  | difference left right =>
    simp only [placed_sub, List.forall_mem_cons] at placed
    have one : NotOverlong (ofInt (-1)) := notOverlong_ofInt.2 Decimal.one_lt_bound
    have negative : Placed (.node .mul [ofInt (-1), right]) :=
      placed_pair ⟨one, placed_ofInt _⟩ placed.2.1
    exact placed_pair placed.1 ⟨notOverlong_node _ _, negative⟩
  | sum =>
    rw [placed_add] at placed ⊢
    intro e he
    exact ⟨notOverlong_of_mem_collected (notOverlong_of_mem_chainTermsAll placed) he,
      placed_collected (fun e he => (placed e he).2) e he⟩
  | product =>
    rw [placed_mul] at placed ⊢
    obtain ⟨factors, placed⟩ := placed
    refine ⟨?_, placed_collected placed⟩
    obtain ⟨kept, spliced⟩ := hasVariable_chainTermsAll args
    have factors' := factors.elim (fun h => .inl (kept h))
      fun h => spliced fun e he => ⟨h e he, placed e he⟩
    exact factors'.imp hasVariable_collected fun short _ => notOverlong_of_mem_collected short
  | hoist after numer denom =>
    rw [placed_mul, hasVariable_append, hasVariable_node_cons (by simp)] at placed
    simp only [List.forall_mem_append, List.forall_mem_cons, placed_div] at placed
    obtain ⟨factors, before, ⟨numer, denom, _⟩, after⟩ := placed
    refine placed_pair ⟨notOverlong_node _ _, placed_mul.2 ⟨?_, ?_⟩⟩ denom
    · simp only [hasVariable_append, List.forall_mem_append, List.forall_mem_singleton]
      rcases factors with (beside | beside) | ⟨shortBefore, _, shortAfter⟩
      · exact .inl (.inl (.inl beside))
      · exact .inl (.inl (.inr beside))
      · exact .inr ⟨⟨shortBefore, shortAfter⟩, numer.1⟩
    · simp only [List.forall_mem_append, List.forall_mem_singleton]
      exact ⟨⟨before, after⟩, numer.2⟩
  | leftQuotient a b =>
    simp only [placed_div, List.forall_mem_cons] at placed
    obtain ⟨⟨_, a, b, _⟩, c, _⟩ := placed
    exact placed_pair a ⟨notOverlong_node _ _, placed_pair b c⟩
  | rightQuotient b c =>
    simp only [placed_div, List.forall_mem_cons] at placed
    obtain ⟨a, ⟨_, b, c, _⟩, _⟩ := placed
    exact placed_pair ⟨notOverlong_node _ _, placed_pair a c⟩ b
  | whole => exact placed_ofInt _
  | fraction nonzero value =>
    obtain ⟨numer, denom⟩ := natAbs_le_of_quotient_eq_fraction value
    simp only [placed_div, List.forall_mem_cons, notOverlong_num, notOverlong_ofInt] at placed ⊢
    exact ⟨⟨Nat.lt_of_le_of_lt numer placed.1.1, placed_ofInt _⟩,
      ⟨Nat.lt_of_le_of_lt denom placed.2.1.1, placed_ofInt _⟩, by simp⟩
  | evaluated => exact placed_ofInt _
  | quotient | power => exact placed

/-- An integer that an application is evaluated to is not too long. -/
theorem Rewrites.notOverlong {op : Op} {args : List Expr} {n : Numeral}
    (h : Rewrites op args (.num n)) (placed : Placed (.node op args)) : NotOverlong (.num n) := by
  cases h with
  | whole nonzero value =>
    rw [placed_div, List.forall_mem_cons, notOverlong_num] at placed
    exact notOverlong_ofInt.2 (Nat.lt_of_le_of_lt (natAbs_le_of_quotient_eq_whole value) placed.1.1)
  | evaluated _ compact =>
    exact notOverlong_ofInt.2 (natAbs_lt_of_compact (compact_power compact))

/-- The only argument that a rule leaves is not too long. -/
theorem Rewrites.notOverlong_of_singleton {op op' : Op} {args : List Expr} {e : Expr}
    (h : Rewrites op args (.node op' [e])) (several : Several (.node op args)) :
    NotOverlong e := by
  generalize hargs : [e] = args' at h
  cases h with
  | sum => exact notOverlong_of_collected_singleton (c := .sum) several hargs.symm
  | product => exact notOverlong_of_collected_singleton (c := .product) several hargs.symm
  | _ => simp at hargs

/-- If integers that are too long only stand as factors beside variables and as exponents of
variables, then a pass leaves no others. -/
theorem exists_pass_placed {e : Expr} (wf : WellFormed e) :
    ∃ e', pass e = .ok e' ∧
      (Several e → Placed e → Placed e' ∧ (NotOverlong e → NotOverlong e')) := by
  refine pass_related (R := fun e e' => Several e → Placed e →
    Placed e' ∧ (NotOverlong e → NotOverlong e')) ?num ?var ?evaluated ?node wf
  case num =>
    intro n _ placed
    exact ⟨placed, id⟩
  case var =>
    intro x _ placed
    exact ⟨placed, id⟩
  case evaluated =>
    intro op args n rewrites _ placed
    exact ⟨rewrites.placed placed, fun _ => rewrites.notOverlong placed⟩
  case node =>
    intro op args op' args' results _ rewrites related several placed
    have placed' := rewrites.placed placed
    have inner : List.Forall₂ (fun e e' => pass e = .ok e' ∧ Placed e' ∧
        (NotOverlong e → NotOverlong e')) args' results :=
      ((List.forall₂_and_left args' results).2
        ⟨fun e he => And.intro ((rewrites.several several).2 e he)
          ((placed_node.1 placed').2 e he), related⟩).imp
            fun _ _ h => ⟨h.2.1, h.2.2 h.1.1 h.1.2⟩
    have each : ∀ e' ∈ results, Placed e' := by
      intro e' he'
      obtain ⟨_, _, _, h, _⟩ := exists_of_mem_right inner he'
      exact h
    have places : op'.Places results := by
      cases (placed_node.1 placed').1 with
      | factors h =>
        obtain ⟨e, he, counted⟩ := h
        obtain ⟨t, ht⟩ := Option.isSome_iff_exists.1 counted
        obtain ⟨e', he', passed, _⟩ := exists_of_mem_right inner.flip he
        cases passed.symm.trans (pass_of_occurrences? ht)
        exact .factors ⟨e, he', counted⟩
      | exponent v n =>
        simp only [List.forall₂_cons_left_iff, List.forall₂_nil_left_iff, pass_var, pass_num,
          Except.ok.injEq] at inner
        obtain ⟨_, _, ⟨rfl, _⟩, ⟨_, _, ⟨rfl, _⟩, rfl, rfl⟩, rfl⟩ := inner
        exact .exponent v n
      | others h =>
        refine .others ?_
        intro e' he'
        obtain ⟨e, he, _, _, keeps⟩ := exists_of_mem_right inner he'
        exact keeps (h e he)
    unfold collapse
    split
    · next e' =>
      obtain ⟨e, _, ⟨_, _, keeps⟩, hnil, rfl⟩ := List.forall₂_cons_right_iff.1 inner
      cases hnil
      exact ⟨each e' (by simp), fun _ => keeps (rewrites.notOverlong_of_singleton several)⟩
    · exact ⟨placed_node.2 ⟨places, each⟩, fun _ => notOverlong_node _ _⟩

end Expr

end ArithTree
