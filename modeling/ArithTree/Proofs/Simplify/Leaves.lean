import ArithTree.Proofs.Simplify.Potential

/-!
# Leaves

The leaves of an expression are its numerals and the occurrences of its variables, from left to
right. Rules move leaves about. Numerals come and go, but none comes with a text: what a pass leaves
are leaves of the expression and integers that it has computed (`exists_pass_leaves`). Variables are
only merged: a pass over an expression in which none occurs twice gives one with the same variables
(`exists_pass_names`).
-/

namespace ArithTree

open ArithTree.Expr

namespace Expr

mutual

/-- The numerals of an expression and the occurrences of its variables. -/
def leaves : Expr → List (Numeral ⊕ String)
  | .num n => [.inl n]
  | .var x => [.inr x]
  | .node _ args => leavesAll args

/-- The leaves of all expressions of a list. -/
def leavesAll : List Expr → List (Numeral ⊕ String)
  | [] => []
  | e :: es => e.leaves ++ leavesAll es

end

@[simp] theorem leaves_num (n : Numeral) : (Expr.num n).leaves = [.inl n] := by rw [leaves]

@[simp] theorem leaves_ofInt (n : Int) : (ofInt n).leaves = [.inl (.ofInt n)] := leaves_num _

@[simp] theorem leaves_var (x : String) : (Expr.var x).leaves = [.inr x] := by rw [leaves]

@[simp] theorem leaves_node (op : Op) (args : List Expr) :
    (Expr.node op args).leaves = leavesAll args := by rw [leaves]

@[simp] theorem leavesAll_nil : leavesAll [] = [] := by rw [leavesAll]

@[simp] theorem leavesAll_cons (e : Expr) (es : List Expr) :
    leavesAll (e :: es) = e.leaves ++ leavesAll es := by rw [leavesAll]

theorem leavesAll_eq_flatMap (es : List Expr) : leavesAll es = es.flatMap leaves := by
  induction es with
  | nil => simp
  | cons e es ih => rw [leavesAll_cons, ih, List.flatMap_cons]

@[simp] theorem leavesAll_append (es fs : List Expr) :
    leavesAll (es ++ fs) = leavesAll es ++ leavesAll fs := by
  simp [leavesAll_eq_flatMap]

theorem leavesAll_perm {es fs : List Expr} (h : es.Perm fs) :
    (leavesAll es).Perm (leavesAll fs) := by
  rw [leavesAll_eq_flatMap, leavesAll_eq_flatMap]
  exact h.flatMap_right leaves

/-- A leaf by itself. -/
def ofLeaf : Numeral ⊕ String → Expr
  | .inl n => .num n
  | .inr x => .var x

/-- The numerals of an expression. -/
def numerals (e : Expr) : List Numeral := e.leaves.filterMap Sum.getLeft?

theorem mem_numerals_node {op : Op} {args : List Expr} {n : Numeral} :
    n ∈ (Expr.node op args).numerals ↔ ∃ e ∈ args, n ∈ e.numerals := by
  simp only [numerals, leaves_node, leavesAll_eq_flatMap, List.mem_filterMap, List.mem_flatMap]
  constructor
  · rintro ⟨leaf, ⟨e, he, hleaf⟩, hn⟩
    exact ⟨e, he, leaf, hleaf, hn⟩
  · rintro ⟨e, he, leaf, hleaf, hn⟩
    exact ⟨leaf, ⟨e, he, hleaf⟩, hn⟩

@[simp] theorem numerals_num (n : Numeral) : (Expr.num n).numerals = [n] := by simp [numerals]

@[simp] theorem numerals_var (x : String) : (Expr.var x).numerals = [] := by simp [numerals]

/-- The names of the variables of an expression, as often as they occur. -/
def names (e : Expr) : List String := e.leaves.filterMap Sum.getRight?

/-- The names of the variables of all expressions of a list. -/
def namesAll (es : List Expr) : List String := (leavesAll es).filterMap Sum.getRight?

@[simp] theorem names_node (op : Op) (args : List Expr) :
    (Expr.node op args).names = namesAll args := by
  rw [names, leaves_node, namesAll]

@[simp] theorem namesAll_nil : namesAll [] = [] := by simp [namesAll]

@[simp] theorem namesAll_cons (e : Expr) (es : List Expr) :
    namesAll (e :: es) = e.names ++ namesAll es := by simp [namesAll, names]

@[simp] theorem namesAll_append (es fs : List Expr) :
    namesAll (es ++ fs) = namesAll es ++ namesAll fs := by simp [namesAll]

theorem namesAll_perm {es fs : List Expr} (h : es.Perm fs) :
    (namesAll es).Perm (namesAll fs) := (leavesAll_perm h).filterMap _

@[simp] theorem names_num (n : Numeral) : (Expr.num n).names = [] := by simp [names]

@[simp] theorem names_ofInt (n : Int) : (ofInt n).names = [] := names_num _

@[simp] theorem names_var (x : String) : (Expr.var x).names = [x] := by simp [names]

/-! ## Chains -/

/-- Splicing nested chains leaves the leaves where they are. -/
theorem leavesAll_chainTermsAll (op : Op) (es : List Expr) :
    leavesAll (chainTermsAll op es) = leavesAll es := by
  refine chainTermsAll_induction (motive := fun es ts => leavesAll ts = leavesAll es)
    ?nil ?single ?splice es
  case nil => rfl
  case single =>
    intro e es ts _ ih
    rw [leavesAll_cons, leavesAll_cons, ih]
  case splice =>
    intro args es ts ts' ihargs ihes
    rw [leavesAll_append, leavesAll_cons, leaves_node, ihargs, ihes]

theorem namesAll_chainTermsAll (op : Op) (es : List Expr) :
    namesAll (chainTermsAll op es) = namesAll es := by
  rw [namesAll, leavesAll_chainTermsAll, namesAll]

theorem names_term (c : Chain) (t : String × Int) : (c.term t).names = [t.1] := by
  unfold Chain.term multiple
  split
  · simp
  · split <;> simp

theorem names_tidy (c : Chain) (e : Expr) : (c.tidy e).names = e.names := by
  unfold Chain.tidy
  split
  · next n hn =>
    cases e with
    | num m => simp
    | var | node => cases hn
  · next t _ ht =>
    rw [names_term]
    rcases Chain.occurrences?_eq_some ht with ⟨rfl, _⟩ | ⟨k, _, _, rfl | ⟨_, rfl⟩⟩ <;> simp
  · rfl

theorem namesAll_ofInt (ns : List Int) : namesAll (ns.map ofInt) = [] := by
  induction ns with
  | nil => rfl
  | cons n ns ih => simpa using ih

theorem namesAll_term (c : Chain) (ts : List (String × Int)) :
    namesAll (ts.map c.term) = ts.map (·.1) := by
  induction ts with
  | nil => rfl
  | cons t ts ih =>
    rw [List.map_cons, namesAll_cons, names_term, ih, List.map_cons, List.singleton_append]

theorem namesAll_perm_of_kinds (c : Chain) (args : List Expr) :
    (namesAll args).Perm ((args.filterMap (occurrences? c.repetition)).map (·.1) ++
      namesAll (c.others args)) := by
  have tidied : namesAll args = namesAll (args.map c.tidy) := by
    induction args with
    | nil => rfl
    | cons e es ih => rw [List.map_cons, namesAll_cons, namesAll_cons, names_tidy, ih]
  rw [tidied]
  have := namesAll_perm (c.tidy_perm args)
  simpa only [namesAll_append, namesAll_ofInt, namesAll_term, List.nil_append] using this

/-- If no variable occurs twice, there is nothing to count. -/
theorem namesAll_collected_perm (c : Chain) {args : List Expr}
    (nodup : (namesAll args).Nodup) :
    (namesAll (c.collected args)).Perm (namesAll args) := by
  have kinds := namesAll_perm_of_kinds c args
  have counts : c.counts args = args.filterMap (occurrences? c.repetition) :=
    tally_of_nodup (List.nodup_append.1 (kinds.nodup_iff.1 nodup)).1
  have collected := namesAll_perm (c.collected_perm args)
  simp only [namesAll_append, namesAll_ofInt, namesAll_term, List.nil_append,
    counts] at collected
  exact collected.trans kinds.symm

/-! ## Rules and passes -/

/-- A rule keeps the variables if none occurs twice. -/
theorem Rewrites.names_perm {op : Op} {args : List Expr} {e : Expr} (h : Rewrites op args e)
    (nodup : (namesAll args).Nodup) : e.names.Perm (namesAll args) := by
  cases h with
  | sum =>
    rw [← namesAll_chainTermsAll .add args] at nodup ⊢
    rw [names_node]
    exact namesAll_collected_perm .sum nodup
  | product =>
    rw [← namesAll_chainTermsAll .mul args] at nodup ⊢
    rw [names_node]
    exact namesAll_collected_perm .product nodup
  | hoist after numer denom =>
    simp only [names_node, namesAll_append, namesAll_cons, namesAll_nil,
      List.append_nil, List.append_assoc]
    apply List.Perm.append_left
    rw [← List.append_assoc numer.names]
    exact List.perm_append_comm
  | rightQuotient b c =>
    simp only [names_node, namesAll_cons, namesAll_nil, List.append_nil,
      List.append_assoc]
    exact List.Perm.append_left _ List.perm_append_comm
  | difference | leftQuotient | whole | fraction | quotient | evaluated | power => simp

theorem nodup_of_mem {es : List Expr} (nodup : (namesAll es).Nodup) {e : Expr} (he : e ∈ es) :
    e.names.Nodup := by
  obtain ⟨front, back, rfl⟩ := List.append_of_mem he
  rw [namesAll_append, namesAll_cons] at nodup
  exact (List.nodup_append.1 (List.nodup_append.1 nodup).2.1).1

theorem namesAll_perm_of_forall₂ {es es' : List Expr}
    (h : List.Forall₂ (fun e e' => e'.names.Perm e.names) es es') :
    (namesAll es').Perm (namesAll es) := by
  induction h with
  | nil => exact .nil
  | cons first _ ih =>
    rw [namesAll_cons, namesAll_cons]
    exact first.append ih

theorem leaves_collapse (op : Op) (es : List Expr) : (collapse op es).leaves = leavesAll es := by
  unfold collapse
  split <;> simp

/-- A pass keeps the variables if none occurs twice. -/
theorem exists_pass_names {e : Expr} (wf : WellFormed e) :
    ∃ e', pass e = .ok e' ∧ (e.names.Nodup → e'.names.Perm e.names) := by
  refine pass_related (R := fun e e' => e.names.Nodup → e'.names.Perm e.names)
    ?num ?var ?evaluated ?node wf
  case num =>
    intro n _
    exact .refl _
  case var =>
    intro x _
    exact .refl _
  case evaluated =>
    intro op args n rewrites nodup
    rw [names_node] at nodup ⊢
    exact rewrites.names_perm nodup
  case node =>
    intro op args op' args' results _ rewrites related nodup
    rw [names_node] at nodup
    have rule : (namesAll args').Perm (namesAll args) := by
      simpa only [names_node] using rewrites.names_perm nodup
    have nodup' : (namesAll args').Nodup := rule.nodup_iff.2 nodup
    have inner : List.Forall₂ (fun e e' => e'.names.Perm e.names) args' results :=
      ((List.forall₂_and_left args' results).2 ⟨fun _ he => nodup_of_mem nodup' he, related⟩).imp
        fun _ _ h => h.2.2 h.1
    rw [names, leaves_collapse, names_node]
    exact (namesAll_perm_of_forall₂ inner).trans rule

/-! ## Where leaves come from -/

/-- The leaf is one of some others, or an integer that was computed. -/
def StemsFrom (others : List (Numeral ⊕ String)) (leaf : Numeral ⊕ String) : Prop :=
  leaf ∈ others ∨ ∃ n, leaf = .inl (.ofInt n)

theorem stemsFrom_ofInt {others : List (Numeral ⊕ String)} {n : Int} :
    StemsFrom others (.inl (.ofInt n)) := .inr ⟨n, rfl⟩

theorem StemsFrom.trans {leaf : Numeral ⊕ String} {others more : List (Numeral ⊕ String)}
    (h : StemsFrom others leaf) (hmore : ∀ l ∈ others, StemsFrom more l) : StemsFrom more leaf := by
  rcases h with h | ⟨n, rfl⟩
  · exact hmore leaf h
  · exact stemsFrom_ofInt

/-- Variables that are counted occur. -/
theorem mem_leavesAll_of_mem_counts {c : Chain} {args : List Expr} {t : String × Int}
    (h : t ∈ c.counts args) : .inr t.1 ∈ leavesAll args := by
  have counted : t.1 ∈ namesAll args :=
    (namesAll_perm_of_kinds c args).mem_iff.2 (List.mem_append_left _ (mem_of_mem_tally h))
  obtain ⟨leaf, hleaf, name⟩ := List.mem_filterMap.1 counted
  rwa [Sum.getRight?_eq_some_iff.1 name] at hleaf

theorem stemsFrom_term {c : Chain} {t : String × Int} {others : List (Numeral ⊕ String)}
    (h : .inr t.1 ∈ others) : ∀ leaf ∈ (c.term t).leaves, StemsFrom others leaf := by
  unfold Chain.term multiple
  split
  · simpa using .inl h
  · split <;> simp [StemsFrom, h]

/-- Collecting like terms makes no leaves but integers. -/
theorem stemsFrom_collected (c : Chain) (args : List Expr) :
    ∀ leaf ∈ leavesAll (c.collected args), StemsFrom (leavesAll args) leaf := by
  intro leaf h
  rw [(leavesAll_perm (c.collected_perm args)).mem_iff, leavesAll_eq_flatMap] at h
  obtain ⟨e, he, h⟩ := List.mem_flatMap.1 h
  simp only [List.mem_append, List.mem_map] at he
  rcases he with (⟨n, _, rfl⟩ | ⟨t, ht, rfl⟩) | he
  · rw [leaves_ofInt, List.mem_singleton] at h
    exact .inr ⟨n, h⟩
  · exact stemsFrom_term (mem_leavesAll_of_mem_counts ht) leaf h
  · rw [leavesAll_eq_flatMap]
    exact .inl (List.mem_flatMap.2 ⟨e, (List.mem_filter.1 he).1, h⟩)

/-- A rule makes no leaves but integers. -/
theorem Rewrites.stemsFrom {op : Op} {args : List Expr} {e : Expr} (h : Rewrites op args e) :
    ∀ leaf ∈ e.leaves, StemsFrom (leavesAll args) leaf := by
  cases h with
  | sum =>
    rw [← leavesAll_chainTermsAll .add args, leaves_node]
    exact stemsFrom_collected .sum _
  | product =>
    rw [← leavesAll_chainTermsAll .mul args, leaves_node]
    exact stemsFrom_collected .product _
  | whole | fraction | evaluated => simp [stemsFrom_ofInt]
  | difference | hoist | leftQuotient | rightQuotient | quotient | power =>
    intro leaf hleaf
    simp only [leaves_node, leavesAll_append, leavesAll_cons, leavesAll_nil, leaves_ofInt,
      List.append_nil, List.mem_append, List.mem_singleton, StemsFrom] at hleaf ⊢
    tauto

/-- A pass leaves leaves of the expression, and integers that it has computed. -/
theorem exists_pass_leaves {e : Expr} (wf : WellFormed e) :
    ∃ e', pass e = .ok e' ∧ ∀ leaf ∈ e'.leaves, StemsFrom e.leaves leaf := by
  refine pass_related (R := fun e e' => ∀ leaf ∈ e'.leaves, StemsFrom e.leaves leaf)
    ?num ?var ?evaluated ?node wf
  case num =>
    intro n leaf h
    exact .inl h
  case var =>
    intro x leaf h
    exact .inl h
  case evaluated =>
    intro op args n rewrites
    rw [leaves_node]
    exact rewrites.stemsFrom
  case node =>
    intro op args op' args' results _ rewrites related leaf h
    rw [leaves_collapse, leavesAll_eq_flatMap] at h
    obtain ⟨e', he', h⟩ := List.mem_flatMap.1 h
    obtain ⟨e, he, _, stems⟩ := exists_of_mem_right related he'
    have rule : ∀ l ∈ leavesAll args', StemsFrom (leavesAll args) l := by
      simpa only [leaves_node] using rewrites.stemsFrom
    rw [leaves_node]
    refine (stems leaf h).trans fun l hl => rule l ?_
    rw [leavesAll_eq_flatMap]
    exact List.mem_flatMap.2 ⟨e, he, hl⟩

end Expr

end ArithTree
