import ArithTree.Proofs.Reading.Simulation
import ArithTree.Proofs.Simplify.Rewrites

/-!
# Applications to several arguments

In what is read from a text, every application has two arguments. Sums and products get more of them
and may lose some again when like terms are collected, but a pass never leaves an application to
less than two: of two terms or more, one at least is left (`Chain.collected_of_two_le`), and an
application to one is replaced by it.
-/

namespace ArithTree

open ArithTree.Expr

/-! ## Chains -/

theorem Chain.compact_of_fold? {c : Chain} {a b n : Int} (h : c.fold? a b = some n) :
    Compact n := by
  unfold Chain.fold? at h
  split at h
  · split at h
    · next compact =>
      cases h
      exact compact
    · cases h
  · cases h

theorem Chain.foldOnto_ne_nil (c : Chain) (first : Int) (ns : List Int) :
    c.foldOnto first ns ≠ [] := by
  induction ns generalizing first with
  | nil => simp [Chain.foldOnto]
  | cons n ns ih =>
    rw [Chain.foldOnto]
    split
    · exact ih _
    · simp

theorem Chain.foldConstants_eq_nil_iff (c : Chain) {ns : List Int} :
    c.foldConstants ns = [] ↔ ns = [] := by
  cases ns with
  | nil => simp [Chain.foldConstants]
  | cons n ns => simp [Chain.foldConstants, c.foldOnto_ne_nil]

/-- Every constant that is left is one of those that were folded, or compact. -/
theorem Chain.mem_or_compact_of_mem_foldOnto {c : Chain} {first n : Int} {ns : List Int}
    (h : n ∈ c.foldOnto first ns) : n ∈ first :: ns ∨ Compact n := by
  induction ns generalizing first with
  | nil => exact .inl h
  | cons m ns ih =>
    rw [Chain.foldOnto] at h
    split at h
    · next folded value =>
      rcases ih h with hmem | compact
      · rcases List.mem_cons.1 hmem with rfl | hmem
        · exact .inr (compact_of_fold? value)
        · exact .inl (List.mem_cons_of_mem _ (List.mem_cons_of_mem _ hmem))
      · exact .inr compact
    · rcases List.mem_cons.1 h with rfl | h
      · exact .inl List.mem_cons_self
      · exact (ih h).imp_left (List.mem_cons_of_mem _)

theorem Chain.mem_or_compact_of_mem_foldConstants {c : Chain} {n : Int} {ns : List Int}
    (h : n ∈ c.foldConstants ns) : n ∈ ns ∨ Compact n := by
  cases ns with
  | nil => cases h
  | cons m ns => exact mem_or_compact_of_mem_foldOnto h

/-- What two or more constants fold into is compact. -/
theorem Chain.compact_of_foldConstants {c : Chain} {n : Int} {ns : List Int} (two : 2 ≤ ns.length)
    (h : c.foldConstants ns = [n]) : Compact n := by
  -- A first constant that has been folded is compact, and so is what it is folded into.
  have foldOnto {first : Int} {ns : List Int} (compact : Compact first)
      (h : c.foldOnto first ns = [n]) : Compact n := by
    induction ns generalizing first with
    | nil =>
      cases h
      exact compact
    | cons m ns ih =>
      rw [Chain.foldOnto] at h
      split at h
      · next value => exact ih (compact_of_fold? value) h
      · exact absurd (List.cons.inj h).2 (c.foldOnto_ne_nil _ _)
  cases ns with
  | nil => cases h
  | cons a ns =>
    cases ns with
    | nil => simp at two
    | cons b ns =>
      rw [Chain.foldConstants, Chain.foldOnto] at h
      split at h
      · next value => exact foldOnto (compact_of_fold? value) h
      · exact absurd (List.cons.inj h).2 (c.foldOnto_ne_nil _ _)

theorem tally_eq_nil_iff {ts : List (String × Int)} : tally ts = [] ↔ ts = [] := by
  cases ts with
  | nil => simp [tally]
  | cons t ts =>
    obtain ⟨v, n⟩ := t
    simp [tally_cons]

/-- If less than two terms are left when like terms of a chain have been collected, then there is
one, and it is a compact constant or a counted variable. -/
theorem Chain.collected_of_two_le (c : Chain) {args : List Expr} (two : 2 ≤ args.length) :
    2 ≤ (c.collected args).length ∨ (∃ n, Compact n ∧ c.collected args = [ofInt n]) ∨
      ∃ t, 0 < t.2 ∧ c.collected args = [c.term t] := by
  have collected := c.collected_perm args
  have length := collected.length_eq
  have length' := (c.tidy_perm args).length_eq
  have constants : (c.constants args).length = 0 ↔ (args.filterMap constant?).length = 0 := by
    rw [List.length_eq_zero_iff, List.length_eq_zero_iff]
    exact c.foldConstants_eq_nil_iff
  have counts : (c.counts args).length = 0 ↔
      (args.filterMap (occurrences? c.repetition)).length = 0 := by
    rw [List.length_eq_zero_iff, List.length_eq_zero_iff]
    exact tally_eq_nil_iff
  simp only [List.length_append, List.length_map] at length length'
  by_cases many : 2 ≤ (c.collected args).length
  · exact .inl many
  -- An argument that is neither a constant nor counted stays, and so would another one.
  have others : c.others args = [] := List.length_eq_zero_iff.1 (by omega)
  rw [others, List.append_nil] at collected
  right
  by_cases constant : (c.constants args).length = 1
  · obtain ⟨n, hn⟩ := List.length_eq_one_iff.1 constant
    have none : c.counts args = [] := List.length_eq_zero_iff.1 (by omega)
    have uncounted := counts.1 (List.length_eq_zero_iff.2 none)
    have noOthers := List.length_eq_zero_iff.2 others
    have compact : Compact n := Chain.compact_of_foldConstants (by omega) hn
    rw [hn, none] at collected
    exact .inl ⟨n, compact, List.perm_singleton.1 collected⟩
  · obtain ⟨t, ht⟩ := List.length_eq_one_iff.1 (show (c.counts args).length = 1 by omega)
    have none : c.constants args = [] := List.length_eq_zero_iff.1 (by omega)
    have pos : 0 < t.2 := c.pos_of_mem_counts t (ht ▸ List.mem_singleton.2 rfl)
    rw [none, ht] at collected
    exact .inr ⟨t, pos, List.perm_singleton.1 collected⟩

namespace Expr

/-- Every application has two arguments or more. -/
abbrev Several : Expr → Prop := Everywhere fun _ args => 2 ≤ args.length

theorem several_node {op : Op} {args : List Expr} :
    Several (.node op args) ↔ 2 ≤ args.length ∧ ∀ e ∈ args, Several e := everywhere_node _

theorem several_pair {op : Op} {left right : Expr} :
    Several (.node op [left, right]) ↔ Several left ∧ Several right := by
  simp [several_node]

theorem several_ofInt (n : Int) : Several (ofInt n) := everywhere_num _ _

/-- Splicing adds arguments unless there is nothing to splice. -/
theorem chainTermsAll_of_length {op : Op} {es : List Expr} (several : ∀ e ∈ es, Several e) :
    es.length ≤ (chainTermsAll op es).length ∧
      ((chainTermsAll op es).length = es.length → chainTermsAll op es = es) := by
  refine chainTermsAll_induction (motive := fun es ts => (∀ e ∈ es, Several e) →
    es.length ≤ ts.length ∧ (ts.length = es.length → ts = es)) ?nil ?single ?splice es several
  case nil => simp
  case single =>
    intro e es ts _ ih several
    rw [List.forall_mem_cons] at several
    obtain ⟨le, same⟩ := ih several.2
    refine ⟨Nat.succ_le_succ le, fun length => ?_⟩
    rw [same (Nat.succ.inj length)]
  case splice =>
    intro args es ts ts' ihargs ihes several
    rw [List.forall_mem_cons, several_node] at several
    have first := (ihargs several.1.2).1
    have rest := (ihes several.2).1
    have two := several.1.1
    rw [List.length_cons, List.length_append]
    exact ⟨by omega, fun length => by omega⟩

theorem length_le_chainTermsAll {op : Op} {es : List Expr} (several : ∀ e ∈ es, Several e) :
    es.length ≤ (chainTermsAll op es).length := (chainTermsAll_of_length several).1

/-! ## Rules and passes -/

/-- What several arguments of a chain are collected into when nested chains have been spliced. -/
theorem collected_of_several (c : Chain) {args : List Expr} (several : Several (.node c.op args)) :
    2 ≤ (c.collected (chainTermsAll c.op args)).length ∨
      (∃ n, Compact n ∧ c.collected (chainTermsAll c.op args) = [ofInt n]) ∨
        ∃ t, 0 < t.2 ∧ c.collected (chainTermsAll c.op args) = [c.term t] := by
  obtain ⟨two, several⟩ := several_node.1 several
  exact c.collected_of_two_le (Nat.le_trans two (length_le_chainTermsAll several))

theorem collected_several (c : Chain) {args : List Expr} (several : Several (.node c.op args)) :
    c.collected (chainTermsAll c.op args) ≠ [] ∧
      ∀ e ∈ c.collected (chainTermsAll c.op args), Several e := by
  constructor
  · rcases collected_of_several c several with many | ⟨n, _, single⟩ | ⟨t, _, single⟩
    · exact List.ne_nil_of_length_pos (by omega)
    · rw [single]
      simp
    · rw [single]
      simp
  · intro e he
    exact everywhere_of_mem_collected (fun _ _ _ => Nat.le_refl 2) (fun _ _ _ => Nat.le_refl 2)
      (everywhere_of_mem_chainTermsAll (several_node.1 several).2) he

theorem Rewrites.several {op op' : Op} {args args' : List Expr}
    (h : Rewrites op args (.node op' args')) (several : Several (.node op args)) :
    args' ≠ [] ∧ ∀ e ∈ args', Several e := by
  cases h with
  | sum => exact collected_several .sum several
  | product => exact collected_several .product several
  | difference =>
    rw [several_pair] at several
    simp only [List.forall_mem_cons, several_pair]
    exact ⟨by simp, several.1, ⟨several_ofInt _, several.2⟩, by simp⟩
  | hoist after numer denom first =>
    obtain ⟨two, several⟩ := several_node.1 several
    simp only [List.forall_mem_append, List.forall_mem_cons, several_pair] at several
    simp only [List.length_append, List.length_cons] at two
    simp only [List.forall_mem_cons, several_node, List.forall_mem_append]
    refine ⟨by simp, ⟨?_, ⟨several.1, several.2.2⟩, several.2.1.1, by simp⟩, several.2.1.2, by simp⟩
    simp only [List.length_append, List.length_cons, List.length_nil]
    omega
  | leftQuotient =>
    simp only [several_pair] at several
    simp only [List.forall_mem_cons, several_pair]
    exact ⟨by simp, several.1.1, ⟨several.1.2, several.2⟩, by simp⟩
  | rightQuotient =>
    simp only [several_pair] at several
    simp only [List.forall_mem_cons, several_pair]
    exact ⟨by simp, ⟨several.1, several.2.2⟩, several.2.1, by simp⟩
  | fraction =>
    simp only [List.forall_mem_cons]
    exact ⟨by simp, several_ofInt _, several_ofInt _, by simp⟩
  | quotient | power => exact ⟨by simp, (several_node.1 several).2⟩

theorem several_collapse {op : Op} {es : List Expr} (nonempty : es ≠ [])
    (several : ∀ e ∈ es, Several e) : Several (collapse op es) := by
  unfold collapse
  split
  · exact several _ List.mem_cons_self
  · next many =>
    refine several_node.2 ⟨?_, several⟩
    match es with
    | [] => exact absurd rfl nonempty
    | [e] => exact absurd rfl (many e)
    | _ :: _ :: _ => simp

/-- A pass keeps several arguments everywhere. -/
theorem exists_pass_several {e : Expr} (wf : WellFormed e) :
    ∃ e', pass e = .ok e' ∧ (Several e → Several e') := by
  refine pass_related (R := fun e e' => Several e → Several e') ?num ?var ?evaluated ?node wf
  case num =>
    intro n h
    exact h
  case var =>
    intro x h
    exact h
  case evaluated =>
    intro _ _ n _ _
    exact everywhere_num _ n
  case node =>
    intro op args op' args' results _ rewrites related several
    obtain ⟨nonempty, several'⟩ := rewrites.several several
    apply several_collapse
    · rintro rfl
      exact nonempty (List.forall₂_nil_right_iff.1 related)
    · intro e' he'
      obtain ⟨e, he, _, h⟩ := exists_of_mem_right related he'
      exact h (several' e he)

/-! ## Reading -/

/-- What holds of every application to two arguments holds everywhere in what is read. -/
theorem everywhere_of_parseTokens {P : Op → List Expr → Prop}
    (pair : ∀ op left right, P op [left, right]) {ts : List Token} {e : Expr}
    (h : parseTokens .ok ts = .ok e) : Everywhere P e := by
  have simulates : Simulates (fun e _ => Everywhere P e) .ok .ok := by
    rintro op left left' right right' e hleft hright ⟨⟩
    exact ⟨_, rfl, (everywhere_node P).2 ⟨pair op left right, by simp [hleft, hright]⟩⟩
  have leaf : ∀ e : Expr, e.IsLeafOf ts → Everywhere P e := by
    rintro e (⟨n, _, rfl⟩ | ⟨x, _, rfl⟩)
    · exact everywhere_num P n
    · exact everywhere_var P x
  obtain ⟨_, _, h⟩ := parseTokens_related simulates leaf h
  exact h

theorem everywhere_of_parse {P : Op → List Expr → Prop} (pair : ∀ op left right, P op [left, right])
    {s : String} {e : Expr} (h : parse s = .ok e) : Everywhere P e :=
  everywhere_of_parseTokens pair h

theorem wellFormed_of_parse {s : String} {e : Expr} (h : parse s = .ok e) : WellFormed e :=
  everywhere_of_parse Op.admits_pair h

theorem several_of_parse {s : String} {e : Expr} (h : parse s = .ok e) : Several e :=
  everywhere_of_parse (fun _ _ _ => Nat.le_refl 2) h

end Expr

end ArithTree
