import ArithTree.Proofs.Simplify.Relabelling
import Mathlib.Logic.Embedding.Basic

/-!
# Renaming variables

Simplification commutes with renaming the variables of an expression, for every renaming that keeps
different variables apart. Names are only compared with one another: where the terms for variables
stand in a chain is decided by where the variables occur first (`Chain.OccursBefore`).

Main statement: `renaming_commutes`.
-/

namespace ArithTree

/-! ## The order of variables -/

/-- Leaving out others does not change which of two elements comes first. -/
theorem idxOf_lt_of_filter {p : String → Bool} {x y : String} (hx : p x = true) (hy : p y = true)
    {names : List String} (h : (names.filter p).idxOf x < (names.filter p).idxOf y) :
    names.idxOf x < names.idxOf y := by
  induction names with
  | nil => simp at h
  | cons a names ih =>
    by_cases ha : p a = true
    · rw [List.filter_cons_of_pos ha] at h
      by_cases hax : a = x
      · subst hax
        have hay : a ≠ y := by
          rintro rfl
          exact Nat.lt_irrefl _ h
        rw [List.idxOf_cons_self, List.idxOf_cons_ne _ hay]
        exact Nat.succ_pos _
      · have hay : a ≠ y := by
          rintro rfl
          rw [List.idxOf_cons_self] at h
          exact Nat.not_lt_zero _ h
        rw [List.idxOf_cons_ne _ hax, List.idxOf_cons_ne _ hay] at h ⊢
        exact Nat.succ_lt_succ (ih (Nat.lt_of_succ_lt_succ h))
    · have hax : a ≠ x := fun same => ha (same ▸ hx)
      have hay : a ≠ y := fun same => ha (same ▸ hy)
      rw [List.filter_cons_of_neg ha] at h
      rw [List.idxOf_cons_ne _ hax, List.idxOf_cons_ne _ hay]
      exact Nat.succ_lt_succ (ih h)

/-- A tally is in the order of the first occurrences. -/
theorem pairwise_tally (ts : List (String × Int)) :
    (tally ts).Pairwise fun s t => (ts.map (·.1)).idxOf s.1 < (ts.map (·.1)).idxOf t.1 := by
  induction ts using tally_induction with
  | nil => exact .nil
  | cons v n ts ih =>
    have names : (ts.filter (·.1 ≠ v)).map (·.1) = (ts.map (·.1)).filter (· ≠ v) := by
      rw [List.filter_map]
      rfl
    have others : ∀ t ∈ tally (ts.filter (·.1 ≠ v)), t.1 ≠ v := by
      intro t ht
      have hmem := mem_of_mem_tally ht
      rw [names] at hmem
      simpa using (List.mem_filter.1 hmem).2
    rw [tally_cons, List.map_cons, List.pairwise_cons]
    constructor
    · intro t ht
      rw [List.idxOf_cons_self, List.idxOf_cons_ne _ (others t ht).symm]
      exact Nat.succ_pos _
    · refine ih.imp_of_mem ?_
      intro s t hs ht before
      rw [names] at before
      rw [List.idxOf_cons_ne _ (others s hs).symm, List.idxOf_cons_ne _ (others t ht).symm]
      exact Nat.succ_lt_succ
        (idxOf_lt_of_filter (by simpa using others s hs) (by simpa using others t ht) before)

open ArithTree.Expr

/-- The variable of `s` occurs among the terms of a chain before the variable of `t` does. -/
def Chain.OccursBefore (c : Chain) (args : List Expr) (s t : String × Int) : Prop :=
  let names := (args.filterMap (occurrences? c.repetition)).map (·.1)
  names.idxOf s.1 < names.idxOf t.1

/-- When like terms are collected, repeated variables are in the order of their first occurrences,
and so are single ones. -/
theorem Chain.collected_in_order (c : Chain) (args : List Expr) :
    ∃ repeats singles : List (String × Int),
      c.collected args = (c.constants args).map ofInt ++
        repeats.map (fun t => multiple c.repetition t.1 t.2) ++ c.others args ++
          singles.map (fun t => .var t.1) ∧
      repeats.Pairwise (c.OccursBefore args) ∧ singles.Pairwise (c.OccursBefore args) := by
  have counts : (c.counts args).Pairwise (c.OccursBefore args) := pairwise_tally _
  exact ⟨_, _, c.collected_eq args, counts.filter _, counts.filter _⟩

/-! ## Renaming -/

/-- Other names for variables, and nothing else. -/
def Relabelling.ofNames (s : String ↪ String) : Relabelling where
  numeral := id
  name := s
  value_numeral _ := rfl
  numeral_ofInt _ := rfl
  name_injective := s.injective

namespace Expr

/-- An expression with its variables renamed. -/
def rename (s : String ↪ String) (e : Expr) : Expr := relabel (.ofNames s) e

/-- Simplification commutes with renaming variables, and so do all events in its course. The terms
for variables that result from collecting are in the order of the first occurrences of these. -/
theorem renaming_commutes {e : Expr} (wf : WellFormed e) (s : String ↪ String) (allowed : Int) :
    (∃ r, simplifyWithin allowed e = .ok r ∧
      simplifyWithin allowed (e.rename s) = .ok (r.mapExpr (rename s))) ∧
    ∀ (c : Chain) (args : List Expr), ∃ repeats singles : List (String × Int),
      c.collected args = (c.constants args).map ofInt ++
        repeats.map (fun t => multiple c.repetition t.1 t.2) ++ c.others args ++
          singles.map (fun t => .var t.1) ∧
      repeats.Pairwise (c.OccursBefore args) ∧ singles.Pairwise (c.OccursBefore args) := by
  constructor
  · exact exists_simplifyFrom_relabel (l := .ofNames s) Function.injective_id wf allowed 0
      allowed.toNat
  · intro c args
    exact c.collected_in_order args

/-- Two variables that change places in a sum do so in the simplified sum. -/
theorem renaming_commutes_of_sum :
    let e := node .add [node .add [.var "b", .var "a"], .var "b"]
    let e' := node .add [node .mul [ofInt 2, .var "b"], .var "a"]
    let s := (Equiv.swap "a" "b").toEmbedding
    WellFormed e ∧ e'.rename s = node .add [node .mul [ofInt 2, .var "a"], .var "b"] ∧
      ∃ r, r.expr = e' ∧ simplifyWithin 3 e = .ok r ∧
        simplifyWithin 3 (e.rename s) = .ok (r.mapExpr (rename s)) := by
  intro e e' s
  have wf : WellFormed e := by decide
  have renamed : e'.rename s = node .add [node .mul [ofInt 2, .var "a"], .var "b"] := by
    simp [rename, e', s, Relabelling.ofNames]
  obtain ⟨⟨r, steps, steps'⟩, _⟩ := renaming_commutes wf s 3
  have result : simplifiedWithin 3 e = .ok e' := by decide +kernel
  rw [simplifiedWithin, steps] at result
  exact ⟨wf, renamed, r, Except.ok.inj result, steps, steps'⟩

end Expr

end ArithTree
