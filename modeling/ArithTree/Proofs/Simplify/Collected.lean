import ArithTree.Simplify.Chain
import Mathlib.Algebra.BigOperators.Group.List.Basic
import Mathlib.Algebra.Ring.Nat

/-!
# What splicing chains and collecting like terms keeps

Nested chains are spliced into one. What relates a list of terms to the spliced list is shown by an
induction with three cases (`chainTermsAll_induction`).

Collecting the terms of a chain puts them into another order, writes each of them in its own way
(`Chain.tidy`), folds constants into one another and adds up the occurrences of a variable. The
first two are permutations of lists (`tidy_perm`, `collected_perm`), so a sum or product over the
terms does not notice them (`map_perm_of_kinds`, `map_collected_perm`). That leaves a law for
folding (`prod_foldConstants`) and one for counting (`prod_tally`): together, they say which
products over the terms of a chain stay the same.

Splicing and collecting look at little of the terms, so both commute with functions that keep this
(`chainTermsAll_map`, `collected_map`).
-/

namespace ArithTree

open ArithTree.Expr

/-! ## Splicing nested chains -/

namespace Expr

theorem isNode_iff {op : Op} {e : Expr} :
    isNode op e = true ↔ ∃ args, e = .node op args := by
  cases e <;> simp [isNode]

theorem chainTerms_of_not_isNode {op : Op} {e : Expr} (h : isNode op e = false) :
    e.chainTerms op = [e] := by
  cases e with
  | num | var => rw [chainTerms]
  | node o args =>
    have : o ≠ op := by simpa [isNode] using h
    rw [chainTerms, if_neg this]

/-- Induction on a list of terms and what they are spliced into: a term that is no chain itself
stays, and a nested chain is replaced by what its arguments are spliced into. -/
theorem chainTermsAll_induction {op : Op} {motive : List Expr → List Expr → Prop}
    (nil : motive [] [])
    (single : ∀ e es ts, isNode op e = false → motive es ts → motive (e :: es) (e :: ts))
    (splice : ∀ args es ts ts', motive args ts → motive es ts' →
      motive (.node op args :: es) (ts ++ ts')) :
    ∀ es, motive es (chainTermsAll op es)
  | [] => by
    rw [chainTermsAll]
    exact nil
  | e :: es => by
    rw [chainTermsAll]
    have rest := chainTermsAll_induction nil single splice es
    cases h : isNode op e with
    | false =>
      rw [chainTerms_of_not_isNode h]
      exact single e es _ h rest
    | true =>
      obtain ⟨args, rfl⟩ := isNode_iff.1 h
      rw [chainTerms, if_pos rfl]
      exact splice args es _ _ (chainTermsAll_induction nil single splice args) rest
termination_by es => sizeOf es
decreasing_by
  all_goals
    subst_vars
    simp only [List.cons.sizeOf_spec, Expr.node.sizeOf_spec]
    omega

/-- There is nothing to splice if no term is a chain itself. -/
theorem chainTermsAll_of_not_isNode {op : Op} {es : List Expr}
    (h : ∀ e ∈ es, isNode op e = false) : chainTermsAll op es = es := by
  induction es with
  | nil => rw [chainTermsAll]
  | cons e es ih =>
    rw [List.forall_mem_cons] at h
    rw [chainTermsAll, chainTerms_of_not_isNode h.1, ih h.2, List.singleton_append]

theorem mem_chainTermsAll {op : Op} {es : List Expr} {e : Expr} (he : e ∈ es)
    (h : isNode op e = false) : e ∈ chainTermsAll op es := by
  induction es with
  | nil => cases he
  | cons a es ih =>
    rw [chainTermsAll, List.mem_append]
    rcases List.mem_cons.1 he with rfl | he
    · rw [chainTerms_of_not_isNode h]
      exact .inl List.mem_cons_self
    · exact .inr (ih he)

theorem not_isNode_of_mem_chainTermsAll {op : Op} (es : List Expr) :
    ∀ t ∈ chainTermsAll op es, isNode op t = false := by
  refine chainTermsAll_induction (motive := fun _ ts => ∀ t ∈ ts, isNode op t = false)
    ?nil ?single ?splice es
  case nil => simp
  case single =>
    intro e es ts other ih
    exact List.forall_mem_cons.2 ⟨other, ih⟩
  case splice =>
    intro args es ts ts' ihargs ihes
    exact List.forall_mem_append.2 ⟨ihargs, ihes⟩

/-- Splicing nested chains commutes with a function that keeps what is a chain and what is none, if
it does so for a single nested chain. -/
theorem chainTermsAll_map {op : Op} {f : Expr → Expr} (kind : ∀ e, isNode op (f e) = isNode op e)
    (nested : ∀ args, (f (.node op args)).chainTerms op = chainTermsAll op (args.map f))
    (es : List Expr) : chainTermsAll op (es.map f) = (chainTermsAll op es).map f := by
  refine chainTermsAll_induction (motive := fun es ts => chainTermsAll op (es.map f) = ts.map f)
    ?nil ?single ?splice es
  case nil => rw [List.map_nil, chainTermsAll]
  case single =>
    intro e es ts other ih
    rw [List.map_cons, chainTermsAll, chainTerms_of_not_isNode ((kind e).trans other), ih,
      List.map_cons, List.singleton_append]
  case splice =>
    intro args es ts ts' ihargs ihes
    rw [List.map_cons, chainTermsAll, nested, ihargs, ihes, List.map_append]

end Expr

/-! ## Counting occurrences -/

theorem total_nonneg {v : String} {ts : List (String × Int)} (h : ∀ t ∈ ts, 0 < t.2) :
    0 ≤ total v ts := by
  induction ts with
  | nil => simp [total]
  | cons t ts ih =>
    rw [List.forall_mem_cons] at h
    have := ih h.2
    rw [total]
    split <;> omega

theorem total_filter_ne {v w : String} (hw : w ≠ v) (ts : List (String × Int)) :
    total w (ts.filter (·.1 ≠ v)) = total w ts := by
  induction ts with
  | nil => rfl
  | cons t ts ih =>
    obtain ⟨x, n⟩ := t
    by_cases hx : x = v
    · have : x ≠ w := fun h => hw (h ▸ hx)
      rw [List.filter_cons_of_neg (by simpa using hx), ih, total, if_neg this]
    · rw [List.filter_cons_of_pos (by simpa using hx), total, total, ih]

/-- The first variable of a tally takes all of its occurrences. -/
theorem tally_cons (v : String) (n : Int) (ts : List (String × Int)) :
    tally ((v, n) :: ts) = (v, n + total v ts) :: tally (ts.filter (·.1 ≠ v)) := by
  -- The names that are left are those of the terms that are for other variables.
  have names : (ts.map (·.1)).filter (fun w => !w == v) = (ts.filter (·.1 ≠ v)).map (·.1) := by
    rw [List.filter_map]
    congr 2
    funext t
    by_cases h : t.1 = v <;> simp [h]
  rw [tally, List.map_cons, List.eraseDups_cons, List.map_cons, names, tally, total, if_pos rfl]
  congr 1
  apply List.map_congr_left
  intro w hw
  have hw : w ≠ v := by
    obtain ⟨t, ht, rfl⟩ := List.mem_map.1 (List.mem_eraseDups.1 hw)
    simpa using (List.mem_filter.1 ht).2
  rw [total, if_neg (Ne.symm hw), total_filter_ne hw]

/-- Induction on what is left to be counted when one variable has been. -/
theorem tally_induction {motive : List (String × Int) → Prop} (nil : motive [])
    (cons : ∀ v n ts, motive (ts.filter (·.1 ≠ v)) → motive ((v, n) :: ts)) :
    ∀ ts, motive ts
  | [] => nil
  | (v, n) :: ts => cons v n ts (tally_induction nil cons (ts.filter (·.1 ≠ v)))
termination_by ts => ts.length
decreasing_by exact Nat.lt_succ_of_le (List.length_filter_le _ _)

theorem mem_of_mem_tally {ts : List (String × Int)} {t : String × Int} (h : t ∈ tally ts) :
    t.1 ∈ ts.map (·.1) := by
  obtain ⟨v, hv, rfl⟩ := List.mem_map.1 h
  exact List.mem_eraseDups.1 hv

theorem pos_of_mem_tally {ts : List (String × Int)} (h : ∀ t ∈ ts, 0 < t.2) :
    ∀ t ∈ tally ts, 0 < t.2 := by
  induction ts using tally_induction with
  | nil => simp [tally]
  | cons v n ts ih =>
    rw [List.forall_mem_cons] at h
    rw [tally_cons, List.forall_mem_cons]
    have := total_nonneg (v := v) h.2
    have := h.1
    exact ⟨by simp only at *; omega, ih fun t ht => h.2 t (List.mem_filter.1 ht).1⟩

theorem total_of_not_mem {v : String} {ts : List (String × Int)} (h : v ∉ ts.map (·.1)) :
    total v ts = 0 := by
  induction ts with
  | nil => rfl
  | cons t ts ih =>
    rw [List.map_cons, List.mem_cons, not_or] at h
    rw [total, if_neg (Ne.symm h.1), ih h.2]

/-- A tally of different variables changes nothing. -/
theorem tally_of_nodup {ts : List (String × Int)} (h : (ts.map (·.1)).Nodup) : tally ts = ts := by
  induction ts using tally_induction with
  | nil => rfl
  | cons v n ts ih =>
    rw [List.map_cons, List.nodup_cons] at h
    have rest : ts.filter (·.1 ≠ v) = ts := by
      apply List.filter_eq_self.2
      intro t ht
      have : t.1 ≠ v := fun heq => h.1 (List.mem_map.2 ⟨t, ht, heq⟩)
      simpa using this
    rw [rest] at ih
    rw [tally_cons, rest, ih h.2, total_of_not_mem h.1, Int.add_zero]

theorem length_tally_le (ts : List (String × Int)) : (tally ts).length ≤ ts.length := by
  induction ts using tally_induction with
  | nil => exact Nat.le_refl _
  | cons v n ts ih =>
    rw [tally_cons, List.length_cons, List.length_cons]
    exact Nat.succ_le_succ (Nat.le_trans ih (List.length_filter_le _ _))

/-- A tally is as long as what is counted only if all variables are different. -/
theorem nodup_of_length_tally {ts : List (String × Int)} (same : (tally ts).length = ts.length) :
    (ts.map (·.1)).Nodup := by
  induction ts using tally_induction with
  | nil => exact .nil
  | cons v n ts ih =>
    rw [tally_cons, List.length_cons, List.length_cons] at same
    have counted := length_tally_le (ts.filter (·.1 ≠ v))
    have fewer := List.length_filter_le (fun t : String × Int => decide (t.1 ≠ v)) ts
    have others : ∀ t ∈ ts, t.1 ≠ v := by
      simpa using List.length_filter_eq_length_iff.1
        (show (ts.filter (·.1 ≠ v)).length = ts.length by omega)
    have unchanged : ts.filter (·.1 ≠ v) = ts := List.filter_eq_self.2 (by simpa using others)
    have nodup := ih (by omega)
    rw [unchanged] at nodup
    rw [List.map_cons, List.nodup_cons]
    refine ⟨?_, nodup⟩
    intro hmem
    obtain ⟨t, ht, rfl⟩ := List.mem_map.1 hmem
    exact others t ht rfl

section Rename

variable {g : String → String} (hg : Function.Injective g)

include hg

theorem total_map (v : String) (ts : List (String × Int)) :
    total (g v) (ts.map (Prod.map g id)) = total v ts := by
  induction ts with
  | nil => rfl
  | cons t ts ih =>
    rw [List.map_cons, total, total, ih]
    simp only [Prod.map_fst, Prod.map_snd, hg.eq_iff, id_eq]

/-- The names of variables do not matter for counting as long as different ones stay different. -/
theorem tally_map (ts : List (String × Int)) :
    tally (ts.map (Prod.map g id)) = (tally ts).map (Prod.map g id) := by
  induction ts using tally_induction with
  | nil => rfl
  | cons v n ts ih =>
    have others : (ts.map (Prod.map g id)).filter (·.1 ≠ g v) =
        (ts.filter (·.1 ≠ v)).map (Prod.map g id) := by
      rw [List.filter_map]
      congr 2
      funext t
      simp [hg.eq_iff]
    rw [List.map_cons, Prod.map_apply, tally_cons, total_map hg, others, ih, tally_cons,
      List.map_cons, Prod.map_apply]
    rfl

end Rename

section Product

variable {M : Type*} [CommMonoid M]

/-- The occurrences of one variable may be counted apart. -/
theorem prod_split_variable (x : String → M) (v : String) {ts : List (String × Int)}
    (h : ∀ t ∈ ts, 0 < t.2) :
    (ts.map fun t => x t.1 ^ t.2.toNat).prod =
      x v ^ (total v ts).toNat * ((ts.filter (·.1 ≠ v)).map fun t => x t.1 ^ t.2.toNat).prod := by
  induction ts with
  | nil => simp [total]
  | cons t ts ih =>
    obtain ⟨w, n⟩ := t
    rw [List.forall_mem_cons] at h
    have nonneg := total_nonneg (v := v) h.2
    have pos : 0 < n := h.1
    by_cases hw : w = v
    -- A term for `v` joins the power that was split off.
    · subst hw
      rw [List.map_cons, List.prod_cons, ih h.2, total, if_pos rfl,
        List.filter_cons_of_neg (by simp), Int.toNat_add (Int.le_of_lt pos) nonneg, pow_add, mul_assoc]
    · rw [List.map_cons, List.prod_cons, ih h.2, total, if_neg hw,
        List.filter_cons_of_pos (by simpa using hw), List.map_cons, List.prod_cons, mul_left_comm]

/-- Adding up the occurrences of each variable keeps a product of powers. -/
theorem prod_tally (x : String → M) {ts : List (String × Int)} (h : ∀ t ∈ ts, 0 < t.2) :
    ((tally ts).map fun t => x t.1 ^ t.2.toNat).prod =
      (ts.map fun t => x t.1 ^ t.2.toNat).prod := by
  induction ts using tally_induction with
  | nil => rfl
  | cons v n ts ih =>
    rw [List.forall_mem_cons] at h
    rw [tally_cons, List.map_cons, List.prod_cons, List.map_cons, List.prod_cons,
      ih fun t ht => h.2 t (List.mem_filter.1 ht).1, prod_split_variable x v h.2,
      Int.toNat_add (Int.le_of_lt h.1) (total_nonneg h.2), pow_add, mul_assoc]

end Product

section Sum

variable {f : Int → Nat}

/-- The occurrences of one variable may be put together with `n` others of it. -/
theorem sum_split_variable (hf : ∀ m n, 0 < m → 0 < n → f (m + n) ≤ f m + f n) (v : String) {n : Int}
    (pos : 0 < n) {ts : List (String × Int)} (h : ∀ t ∈ ts, 0 < t.2) :
    f (n + total v ts) + ((ts.filter (·.1 ≠ v)).map fun t => f t.2).sum ≤
      f n + (ts.map fun t => f t.2).sum := by
  induction ts generalizing n with
  | nil => simp [total]
  | cons t ts ih =>
    rw [List.forall_mem_cons] at h
    rw [List.map_cons, List.sum_cons, total]
    by_cases hv : t.1 = v
    · rw [if_pos hv, List.filter_cons_of_neg (by simpa using hv), ← Int.add_assoc]
      have := ih (n := n + t.2) (by omega) h.2
      have := hf n t.2 pos h.1
      omega
    · rw [if_neg hv, List.filter_cons_of_pos (by simpa using hv), List.map_cons, List.sum_cons]
      have := ih pos h.2
      omega

/-- Adding up the occurrences of each variable does not raise the sum of a subadditive function. -/
theorem sum_tally_le (hf : ∀ m n, 0 < m → 0 < n → f (m + n) ≤ f m + f n)
    {ts : List (String × Int)} (h : ∀ t ∈ ts, 0 < t.2) :
    ((tally ts).map fun t => f t.2).sum ≤ (ts.map fun t => f t.2).sum := by
  induction ts using tally_induction with
  | nil => exact Nat.le_refl _
  | cons v n ts ih =>
    rw [List.forall_mem_cons] at h
    have merged := sum_split_variable hf v h.1 h.2
    have rest := ih fun t ht => h.2 t (List.mem_filter.1 ht).1
    rw [tally_cons, List.map_cons, List.sum_cons, List.map_cons, List.sum_cons]
    exact Nat.le_trans (Nat.add_le_add_left rest _) merged

end Sum

namespace Chain

variable (c : Chain)

/-! ## Folding constants -/

theorem prod_foldOnto {M : Type*} [CommMonoid M] {x : Int → M}
    (hx : ∀ a b n, c.fold? a b = some n → x n = x a * x b) (first : Int) (ns : List Int) :
    ((c.foldOnto first ns).map x).prod = x first * (ns.map x).prod := by
  induction ns generalizing first with
  | nil => simp [foldOnto]
  | cons n ns ih =>
    rw [foldOnto]
    split
    · next folded h => rw [ih, hx _ _ _ h, List.map_cons, List.prod_cons, mul_assoc]
    · rw [List.map_cons, List.prod_cons, ih, List.map_cons, List.prod_cons]

/-- Folding constants keeps a product over them if it keeps that of two. -/
theorem prod_foldConstants {M : Type*} [CommMonoid M] {x : Int → M}
    (hx : ∀ a b n, c.fold? a b = some n → x n = x a * x b) (ns : List Int) :
    ((c.foldConstants ns).map x).prod = (ns.map x).prod := by
  cases ns with
  | nil => rfl
  | cons n ns => rw [foldConstants, c.prod_foldOnto hx, List.map_cons, List.prod_cons]

/-! ## The terms of a chain -/

/-- How a variable and the number of its occurrences are written. -/
def term (t : String × Int) : Expr :=
  if t.2 = 1 then .var t.1 else multiple c.repetition t.1 t.2

/-- How a term is written if nothing is folded into it or counted with it. -/
def tidy (e : Expr) : Expr :=
  match e.constant?, e.occurrences? c.repetition with
  | some n, _ => ofInt n
  | none, some t => c.term t
  | none, none => e

/-- A variable that counts `n` times is the variable itself or a repetition. -/
theorem occurrences?_eq_some {repetition : Op} {e : Expr} {v : String} {n : Int}
    (h : occurrences? repetition e = some (v, n)) :
    e = .var v ∧ n = 1 ∨ ∃ k : Numeral, k.value = n ∧ 1 < n ∧
      (e = .node repetition [.var v, .num k] ∨
        repetition = .mul ∧ e = .node .mul [.num k, .var v]) := by
  unfold occurrences? at h
  split at h
  · cases h
    exact .inl ⟨rfl, rfl⟩
  · next op w k =>
    split at h
    · next hk =>
      cases h
      exact .inr ⟨k, rfl, hk.2, .inl (by rw [hk.1])⟩
    · cases h
  · next k w =>
    split at h
    · next hk =>
      cases h
      exact .inr ⟨k, rfl, hk.2, .inr ⟨hk.1, rfl⟩⟩
    · cases h
  · cases h

theorem pos_of_occurrences? {repetition : Op} {e : Expr} {t : String × Int}
    (h : occurrences? repetition e = some t) : 0 < t.2 := by
  rcases occurrences?_eq_some h with ⟨_, one⟩ | ⟨_, _, many, _⟩ <;> omega

/-- The term for counted occurrences is read as just as many. -/
theorem occurrences?_term (h : c.repetition = .mul ∨ c.repetition = .pow) {t : String × Int}
    (pos : 0 < t.2) : occurrences? c.repetition (c.term t) = some t := by
  unfold term
  split
  · next one => rw [occurrences?, ← one]
  · next many => exact occurrences?_multiple h t.1 (by omega)

theorem pos_of_mem_occurrences {args : List Expr} :
    ∀ t ∈ args.filterMap (occurrences? c.repetition), 0 < t.2 := by
  intro t ht
  obtain ⟨e, _, he⟩ := List.mem_filterMap.1 ht
  exact pos_of_occurrences? he

theorem pos_of_mem_counts {args : List Expr} : ∀ t ∈ c.counts args, 0 < t.2 :=
  pos_of_mem_tally c.pos_of_mem_occurrences

/-- A variable that does not occur more than once occurs once. -/
theorem filter_one_counts (args : List Expr) :
    (c.counts args).filter (·.2 == 1) =
      (c.counts args).filter fun t => !decide (1 < t.2) := by
  apply List.filter_congr
  intro t ht
  have := c.pos_of_mem_counts t ht
  by_cases h : t.2 = 1
  · simp [h]
  · have : (1 : Int) < t.2 := by omega
    simp [h, this]

/-- The terms of a chain are its constants, the terms that count as variables, and the others. -/
theorem tidy_perm (args : List Expr) :
    (args.map c.tidy).Perm ((args.filterMap constant?).map ofInt ++
      (args.filterMap (occurrences? c.repetition)).map c.term ++ c.others args) := by
  induction args with
  | nil => exact .nil
  | cons e es ih =>
    cases hc : e.constant? with
    | some n =>
      -- A constant is never counted, so it is only in the first group.
      have ho : e.occurrences? c.repetition = none := by
        cases e with
        | num => rfl
        | _ => simp [constant?] at hc
      simpa [tidy, hc, ho, others] using ih
    | none =>
      cases ho : e.occurrences? c.repetition with
      | some t =>
        simp only [List.map_cons, tidy, hc, ho, List.filterMap_cons_none hc,
          List.filterMap_cons_some ho, others, List.filter_cons, Option.isNone_none,
          Option.isNone_some, Bool.and_false, Bool.false_eq_true, if_false, List.append_assoc,
          List.cons_append] at ih ⊢
        exact (ih.cons _).trans List.perm_middle.symm
      | none =>
        simp only [List.map_cons, tidy, hc, ho, List.filterMap_cons_none hc,
          List.filterMap_cons_none ho, others, List.filter_cons, Option.isNone_none,
          Bool.and_self, if_true] at ih ⊢
        exact (ih.cons _).trans List.perm_middle.symm

/-- The terms that are collected, with the pairs of variables and numbers taken apart. -/
theorem collected_eq (args : List Expr) :
    c.collected args = (c.constants args).map ofInt ++
      ((c.counts args).filter (1 < ·.2)).map (fun t => multiple c.repetition t.1 t.2) ++
        c.others args ++ ((c.counts args).filter (·.2 == 1)).map fun t => .var t.1 := rfl

/-- The collected terms are the folded constants, the counted variables, and the others. -/
theorem collected_perm (args : List Expr) :
    (c.collected args).Perm ((c.constants args).map ofInt ++ (c.counts args).map c.term ++
      c.others args) := by
  have repeats : ((c.counts args).filter (1 < ·.2)).map (fun t => multiple c.repetition t.1 t.2) =
      ((c.counts args).filter (1 < ·.2)).map c.term := by
    apply List.map_congr_left
    intro t ht
    have : (1 : Int) < t.2 := by simpa using (List.mem_filter.1 ht).2
    rw [term, if_neg (by omega)]
  have singles : ((c.counts args).filter (·.2 == 1)).map (fun t => Expr.var t.1) =
      ((c.counts args).filter fun t => !decide (1 < t.2)).map c.term := by
    rw [c.filter_one_counts]
    apply List.map_congr_left
    intro t ht
    have : t.2 = 1 := by
      have := c.pos_of_mem_counts t (List.mem_filter.1 ht).1
      have : ¬ (1 : Int) < t.2 := by simpa using (List.mem_filter.1 ht).2
      omega
    rw [term, if_pos this]
  -- The counted variables were cut in two, and the others stand between the two parts.
  have counted := (List.filter_append_perm (fun t => decide (1 < t.2)) (c.counts args)).map c.term
  rw [List.map_append] at counted
  rw [collected_eq, repeats, singles]
  simp only [List.append_assoc]
  apply List.Perm.append_left _
  exact (List.Perm.append_left _ List.perm_append_comm).trans
    (by simpa [List.append_assoc] using counted.append_right _)

/-! What a function gives for terms of a chain, by the kinds of terms that are collected apart. -/

section Map

variable {α : Type*} {f : Expr → α}

theorem map_perm_of_kinds (tidy : ∀ e, f (c.tidy e) = f e) (args : List Expr) :
    (args.map f).Perm ((args.filterMap constant?).map (fun n => f (ofInt n)) ++
      (args.filterMap (occurrences? c.repetition)).map (fun t => f (c.term t)) ++
        (c.others args).map f) := by
  have tidied : args.map f = (args.map c.tidy).map f := by
    rw [List.map_map]
    exact List.map_congr_left fun e _ => (tidy e).symm
  rw [tidied]
  simpa only [List.map_append, List.map_map, Function.comp_def] using (c.tidy_perm args).map f

theorem map_collected_perm (f : Expr → α) (args : List Expr) :
    ((c.collected args).map f).Perm ((c.constants args).map (fun n => f (ofInt n)) ++
      (c.counts args).map (fun t => f (c.term t)) ++ (c.others args).map f) := by
  simpa only [List.map_append, List.map_map, Function.comp_def] using (c.collected_perm args).map f

end Map

/-- Collecting like terms commutes with a function that keeps what the terms count as, but for the
names of variables, among which different ones stay different. -/
theorem collected_map {f : Expr → Expr} {g : String → String} (hg : Function.Injective g)
    (integer : ∀ n, f (ofInt n) = ofInt n) (single : ∀ v, f (.var v) = .var (g v))
    (repeated : ∀ v n, f (multiple c.repetition v n) = multiple c.repetition (g v) n)
    {args : List Expr} (constant : ∀ a ∈ args, (f a).constant? = a.constant?)
    (counted : ∀ a ∈ args, (f a).occurrences? c.repetition =
      (a.occurrences? c.repetition).map (Prod.map g id)) :
    c.collected (args.map f) = (c.collected args).map f := by
  have constants : c.constants (args.map f) = c.constants args := by
    rw [constants, constants, List.filterMap_map]
    congr 1
    exact List.filterMap_congr constant
  have counts : c.counts (args.map f) = (c.counts args).map (Prod.map g id) := by
    rw [counts, counts, ← tally_map hg, List.filterMap_map, List.map_filterMap]
    congr 1
    exact List.filterMap_congr counted
  have others : c.others (args.map f) = (c.others args).map f := by
    rw [others, others, List.filter_map]
    congr 1
    apply List.filter_congr
    intro a ha
    simp only [Function.comp_apply, constant a ha, counted a ha, Option.isNone_map]
  rw [collected_eq, collected_eq, constants, counts, others]
  simp only [List.map_append, List.map_map, List.filter_map, Function.comp_def, integer, single,
    repeated, Prod.map_fst, Prod.map_snd, id_eq]

end Chain

end ArithTree
