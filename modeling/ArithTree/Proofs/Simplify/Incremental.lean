import ArithTree.Proofs.Simplify.NormalForm
import Mathlib.Data.List.Nodup

/-!
# Collecting like terms little by little

Like terms of a chain can be collected all at once, or among some of the terms first, and then again
when more terms have been added to what resulted. Constants that fold at all fold into the same
constant either way (`foldConstants_append`), the terms that are not counted stay in their order,
and a variable that was counted before is counted on (`tally_append_perm`).

Main statement: if all constants fold, `collected_of_collected_append` says that both ways lead to
the same terms, up to the order of those that are for variables.
-/

namespace ArithTree

open ArithTree.Expr

/-! ## Counting on -/

theorem total_append (v : String) (ts us : List (String × Int)) :
    total v (ts ++ us) = total v ts + total v us := by
  induction ts with
  | nil => rw [List.nil_append, total, Int.zero_add]
  | cons t ts ih =>
    rw [List.cons_append, total, total, ih]
    split
    · rw [Int.add_assoc]
    · rfl

theorem total_perm (v : String) {ts us : List (String × Int)} (h : ts.Perm us) :
    total v ts = total v us := by
  induction h with
  | nil => rfl
  | cons t _ ih => rw [total, total, ih]
  | swap t u ts => grind [total]
  | trans _ _ ih ih' => exact ih.trans ih'

theorem total_tally (v : String) (ts : List (String × Int)) :
    total v (tally ts) = total v ts := by
  induction ts using tally_induction with
  | nil => rfl
  | cons w n ts ih =>
    rw [tally_cons, total, total]
    by_cases hw : w = v
    · -- What is left to be counted is for other variables.
      have rest : total v (ts.filter (·.1 ≠ w)) = 0 := by
        apply total_of_not_mem
        simp [hw]
      rw [if_pos hw, if_pos hw, ih, rest, hw, Int.add_zero]
    · rw [if_neg hw, if_neg hw, ih, total_filter_ne (Ne.symm hw)]

theorem mem_names_tally {v : String} {ts : List (String × Int)} :
    v ∈ (tally ts).map (·.1) ↔ v ∈ ts.map (·.1) := by
  simp [tally, Function.comp_def]

theorem nodup_tally (ts : List (String × Int)) : ((tally ts).map (·.1)).Nodup := by
  induction ts using tally_induction with
  | nil => exact List.nodup_nil
  | cons v n ts ih =>
    rw [tally_cons, List.map_cons, List.nodup_cons]
    refine ⟨?_, ih⟩
    rw [mem_names_tally]
    simp

/-- What a tally says: for each variable that occurs, its total. -/
theorem mem_tally {v : String} {n : Int} {ts : List (String × Int)} :
    (v, n) ∈ tally ts ↔ v ∈ ts.map (·.1) ∧ n = total v ts := by
  rw [tally, List.mem_map]
  constructor
  · rintro ⟨w, hw, same⟩
    cases same
    exact ⟨List.mem_eraseDups.1 hw, rfl⟩
  · rintro ⟨hv, rfl⟩
    exact ⟨v, List.mem_eraseDups.2 hv, rfl⟩

/-- Tallies of the same variables with the same totals differ in their order alone. -/
theorem tally_perm_of_total {ts us : List (String × Int)}
    (names : ∀ v, v ∈ ts.map (·.1) ↔ v ∈ us.map (·.1)) (totals : ∀ v, total v ts = total v us) :
    (tally ts).Perm (tally us) := by
  have distinct (ts : List (String × Int)) : (tally ts).Nodup :=
    List.Nodup.of_map (·.1) (nodup_tally ts)
  apply (List.perm_ext_iff_of_nodup (distinct ts) (distinct us)).2
  rintro ⟨v, n⟩
  rw [mem_tally, mem_tally, names, totals]

/-- Occurrences that were counted before, in any order, are counted on. -/
theorem tally_append_perm {ts counted : List (String × Int)} (h : counted.Perm (tally ts))
    (us : List (String × Int)) : (tally (counted ++ us)).Perm (tally (ts ++ us)) := by
  apply tally_perm_of_total
  · intro v
    have before : v ∈ counted.map (·.1) ↔ v ∈ ts.map (·.1) :=
      (h.map _).mem_iff.trans mem_names_tally
    rw [List.map_append, List.map_append, List.mem_append, List.mem_append, before]
  · intro v
    rw [total_append, total_append, total_perm v h, total_tally]

namespace Chain

/-! ## Folding on -/

/-- No constant is refused when constants are folded from left to right. -/
def FoldsAll (c : Chain) : List Int → Prop
  | [] => True
  | n :: ns => (ns.foldlM c.fold? n).isSome

variable {c : Chain}

theorem foldsAll_cons {n : Int} {ns : List Int} :
    c.FoldsAll (n :: ns) ↔ ∃ folded, ns.foldlM c.fold? n = some folded :=
  Option.isSome_iff_exists

theorem foldConstants_of_foldlM {ns : List Int} {first folded : Int}
    (h : ns.foldlM c.fold? first = some folded) : c.foldConstants (first :: ns) = [folded] := by
  show c.foldOnto first ns = [folded]
  induction ns generalizing first with
  | nil =>
    cases h
    rfl
  | cons n ns ih =>
    rw [List.foldlM_cons] at h
    obtain ⟨next, hnext, rest⟩ := Option.bind_eq_some_iff.1 h
    rw [foldOnto, hnext]
    exact ih rest

/-- Constants of which none is refused fold into one. -/
theorem FoldsAll.length_foldConstants_le {ns : List Int} (h : c.FoldsAll ns) :
    (c.foldConstants ns).length ≤ 1 := by
  cases ns with
  | nil => exact Nat.zero_le 1
  | cons n ns =>
    obtain ⟨folded, hfolded⟩ := foldsAll_cons.1 h
    rw [foldConstants_of_foldlM hfolded, List.length_singleton]

/-- What constants fold into is folded on with those that follow. -/
theorem foldlM_append_eq_some {ns ms : List Int} {n folded : Int} :
    (ns ++ ms).foldlM c.fold? n = some folded ↔
      ∃ before, ns.foldlM c.fold? n = some before ∧ ms.foldlM c.fold? before = some folded := by
  rw [List.foldlM_append]
  exact Option.bind_eq_some_iff

theorem FoldsAll.of_append {ns ms : List Int} (h : c.FoldsAll (ns ++ ms)) : c.FoldsAll ns := by
  cases ns with
  | nil => trivial
  | cons n ns =>
    rw [List.cons_append, foldsAll_cons] at h
    obtain ⟨folded, hfolded⟩ := h
    obtain ⟨before, hbefore, _⟩ := foldlM_append_eq_some.1 hfolded
    exact foldsAll_cons.2 ⟨before, hbefore⟩

/-- Constants that were folded before are folded on, into the same constants. -/
theorem FoldsAll.foldConstants_append {ns ms : List Int} (h : c.FoldsAll (ns ++ ms)) :
    c.FoldsAll (c.foldConstants ns ++ ms) ∧
      c.foldConstants (c.foldConstants ns ++ ms) = c.foldConstants (ns ++ ms) := by
  cases ns with
  | nil => exact ⟨h, rfl⟩
  | cons n ns =>
    rw [List.cons_append, foldsAll_cons] at h
    obtain ⟨folded, hfolded⟩ := h
    obtain ⟨before, hbefore, after⟩ := foldlM_append_eq_some.1 hfolded
    rw [foldConstants_of_foldlM hbefore, List.singleton_append, List.cons_append,
      foldConstants_of_foldlM hfolded]
    exact ⟨foldsAll_cons.2 ⟨folded, after⟩, foldConstants_of_foldlM after⟩

/-! ## The groups of collected terms -/

variable (c)

/-- The variables in the groups are those that were counted. -/
theorem counted_groups_perm (args : List Expr) :
    ((c.groups args).repeats ++ (c.groups args).singles.map fun v => (v, 1)).Perm
      (c.counts args) := by
  have singles : (c.groups args).singles.map (fun v => (v, (1 : Int))) =
      (c.counts args).filter (·.2 == 1) := by
    rw [groups, List.map_map]
    apply (List.map_congr_left (g := id) ?_).trans (List.map_id _)
    intro t ht
    have one : t.2 = 1 := by simpa using (List.mem_filter.1 ht).2
    exact Prod.ext rfl one.symm
  rw [singles, c.filter_one_counts]
  exact List.filter_append_perm _ _

/-- No variable has two terms. -/
theorem nodup_groups (args : List Expr) :
    ((c.groups args).repeats.map (·.1) ++ (c.groups args).singles).Nodup := by
  have names := (c.counted_groups_perm args).map (·.1)
  have distinct := names.nodup_iff.2 (nodup_tally _)
  simpa [Function.comp_def] using distinct

/-- A variable is counted if it occurs at all, and then as often as it occurs. -/
theorem mem_counts {args : List Expr} {v : String} {n : Int} :
    (v, n) ∈ c.counts args ↔ 0 < n ∧ n = total v (args.filterMap (occurrences? c.repetition)) := by
  constructor
  · intro h
    exact ⟨c.pos_of_mem_counts _ h, (mem_tally.1 h).2⟩
  · rintro ⟨pos, rfl⟩
    rw [counts, mem_tally]
    refine ⟨?_, rfl⟩
    by_contra absent
    rw [total_of_not_mem absent] at pos
    exact absurd pos (Int.lt_irrefl 0)

/-! ## Collecting in two steps -/

variable {c} (h : c.repetition = .mul ∨ c.repetition = .pow) (xs ys : List Expr)

theorem constants_of_collected :
    (c.collected xs).filterMap constant? = c.constants xs := by
  rw [collected_eq_terms, (c.legible_groups xs).constants_terms, groups]

include h

theorem counts_collected_append :
    (c.counts (c.collected xs ++ ys)).Perm (c.counts (xs ++ ys)) := by
  rw [counts, counts, List.filterMap_append, List.filterMap_append, collected_eq_terms,
    (c.legible_groups xs).occurrences_terms h]
  exact tally_append_perm (c.counted_groups_perm xs) _

theorem others_collected_append : c.others (c.collected xs ++ ys) = c.others (xs ++ ys) := by
  rw [others_append, others_append, collected_eq_terms, (c.legible_groups xs).others_terms h,
    groups]

end Chain

/-- Terms in these groups differ in the order of the terms for variables alone. -/
structure Groups.Reordered (g h : Groups) : Prop where
  constants : g.constants = h.constants
  repeats : g.repeats.Perm h.repeats
  others : g.others = h.others
  singles : g.singles.Perm h.singles

namespace Chain

variable {c : Chain}

/-- If all constants fold, terms that are collected once some of them have been collected before are
those that are collected at once, up to the order of the terms for variables. -/
theorem reordered_groups (h : c.repetition = .mul ∨ c.repetition = .pow) {xs ys : List Expr}
    (folds : c.FoldsAll ((xs ++ ys).filterMap constant?)) :
    (c.groups (c.collected xs ++ ys)).Reordered (c.groups (xs ++ ys)) where
  constants := by
    show c.foldConstants _ = c.foldConstants _
    rw [List.filterMap_append] at folds ⊢
    rw [constants_of_collected, List.filterMap_append]
    exact folds.foldConstants_append.2
  repeats := (counts_collected_append h xs ys).filter _
  others := others_collected_append h xs ys
  singles := ((counts_collected_append h xs ys).filter _).map _

/-- Collecting the terms of a sum or product is incremental. If no constant is refused when all
terms are collected at once, none is refused in two steps either, and the terms that result are the
same: the one constant there may be, the terms that are not counted, in their order, and for each
variable that occurs the one term for all its occurrences. -/
theorem collected_of_collected_append (hc : c = .sum ∨ c = .product) (xs ys : List Expr)
    (folds : c.FoldsAll ((xs ++ ys).filterMap constant?)) :
    c.FoldsAll (xs.filterMap constant?) ∧
      c.FoldsAll ((c.collected xs ++ ys).filterMap constant?) ∧
      ∃ g h : Groups, c.collected (c.collected xs ++ ys) = g.terms (multiple c.repetition) ∧
        c.collected (xs ++ ys) = h.terms (multiple c.repetition) ∧
        g.Legible c ∧ h.Legible c ∧ g.Reordered h ∧ h.constants.length ≤ 1 ∧
        (h.repeats.map (·.1) ++ h.singles).Nodup ∧
        ∀ v n, (v, n) ∈ h.repeats ++ h.singles.map (fun v => (v, 1)) ↔
          0 < n ∧ n = total v ((xs ++ ys).filterMap (occurrences? c.repetition)) := by
  have repetition : c.repetition = .mul ∨ c.repetition = .pow := by
    rcases hc with rfl | rfl
    · exact .inl rfl
    · exact .inr rfl
  have reordered := reordered_groups repetition folds
  have atOnce : (c.constants (xs ++ ys)).length ≤ 1 := folds.length_foldConstants_le
  rw [List.filterMap_append] at folds
  refine ⟨folds.of_append, ?_, c.groups (c.collected xs ++ ys), c.groups (xs ++ ys),
    c.collected_eq_terms _, c.collected_eq_terms _, c.legible_groups _, c.legible_groups _,
    reordered, atOnce, c.nodup_groups _, ?_⟩
  · rw [List.filterMap_append, constants_of_collected]
    exact folds.foldConstants_append.1
  · intro v n
    rw [(c.counted_groups_perm _).mem_iff]
    exact c.mem_counts

/-- Two terms for `b` are collected before the second term for `a` is added, and so stand before the
two for `a`. -/
theorem collected_of_collected_append_of_sum :
    let xs := [.var "a", ofInt 2, .var "b", .var "b"]
    let ys := [.var "a", ofInt 3, .node .mul [ofInt (-1), .var "a"]]
    let twice (v : String) : Expr := .node .mul [ofInt 2, .var v]
    let minus : Expr := .node .mul [ofInt (-1), .var "a"]
    sum.FoldsAll ((xs ++ ys).filterMap constant?) ∧
      sum.collected (sum.collected xs ++ ys) = [ofInt 5, twice "b", twice "a", minus] ∧
      sum.collected (xs ++ ys) = [ofInt 5, twice "a", twice "b", minus] ∧
      ∃ g h : Groups, sum.collected (sum.collected xs ++ ys) = g.terms (multiple .mul) ∧
        sum.collected (xs ++ ys) = h.terms (multiple .mul) ∧ g.Reordered h := by
  intro xs ys twice minus
  have folds : sum.FoldsAll ((xs ++ ys).filterMap constant?) := by
    apply foldsAll_cons.2
    exact ⟨5, by decide +kernel⟩
  obtain ⟨_, _, g, h, inTwo, atOnce, _, _, reordered, _⟩ :=
    collected_of_collected_append (.inl rfl) xs ys folds
  exact ⟨folds, by decide +kernel, by decide +kernel, g, h, inTwo, atOnce, reordered⟩

end Chain

end ArithTree
