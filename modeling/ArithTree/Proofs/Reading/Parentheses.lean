import ArithTree.Proofs.Reading.Sentences

/-!
# Parentheses

`Paired left right depth` says of any symbols that each `left` has a `right` as its partner, in
terms of how often they occur: no part at the start has more partners to the right than to the left,
and all of them have as many. It is what reading asks of parentheses (`balanced_iff`).

Tokens are in infix order if there is an operator between each operand and the next, whatever
parentheses stand before and after the operands. Such tokens are read as an expression if their
parentheses are paired, and reading never finds any other fault with them
(`reading_in_infixOrder`).
-/

namespace ArithTree

/-! ## Partners -/

section Paired

variable {α β : Type} [DecidableEq α] [DecidableEq β]

/-- Every `left` and every `right` have a partner, when `depth` times `left` has stood before. -/
structure Paired (left right : α) (depth : Nat) (ts : List α) : Prop where
  front : ∀ front, front <+: ts → front.count right ≤ depth + front.count left
  whole : ts.count right = depth + ts.count left

variable {left right : α} {depth : Nat}

theorem paired_nil : Paired left right depth [] ↔ depth = 0 := by
  constructor
  · intro h
    simpa using h.whole.symm
  · rintro rfl
    refine ⟨?_, rfl⟩
    intro front hfront
    rw [List.prefix_nil.1 hfront]
    exact Nat.le_refl _

/-- The first symbol changes the depth for those after it. -/
theorem paired_cons {t : α} {ts : List α} :
    Paired left right depth (t :: ts) ↔
      [t].count right ≤ depth + [t].count left ∧
        Paired left right (depth + [t].count left - [t].count right) ts := by
  have count (x : α) (us : List α) : (t :: us).count x = [t].count x + us.count x := by
    rw [← List.singleton_append, List.count_append]
  constructor
  · intro h
    have first := h.front [t] (List.prefix_append [t] ts)
    refine ⟨first, ?_, ?_⟩
    · intro front hfront
      have longer := h.front (t :: front) (List.cons_prefix_cons.2 ⟨rfl, hfront⟩)
      rw [count right front, count left front] at longer
      omega
    · have whole := h.whole
      rw [count right ts, count left ts] at whole
      omega
  · rintro ⟨first, h⟩
    refine ⟨?_, ?_⟩
    · intro front hfront
      rcases List.prefix_cons_iff.1 hfront with rfl | ⟨front', rfl, hfront'⟩
      · exact Nat.zero_le _
      · have shorter := h.front front' hfront'
        rw [count right front', count left front']
        omega
    · have whole := h.whole
      rw [count right ts, count left ts]
      omega

/-- Symbols may be renamed, as long as no other symbol becomes one of the two. -/
theorem paired_map {f : α → β} {left' right' : β} (hleft : ∀ t, f t = left' ↔ t = left)
    (hright : ∀ t, f t = right' ↔ t = right) {ts : List α} :
    Paired left' right' depth (ts.map f) ↔ Paired left right depth ts := by
  have same (t : α) (x : α) (y : β) (h : f t = y ↔ t = x) : [f t].count y = [t].count x := by
    by_cases eq : t = x
    · simp [eq, ← h.2 eq]
    · have ne : f t ≠ y := fun h' => eq (h.1 h')
      simp [eq, ne]
  induction ts generalizing depth with
  | nil => rw [List.map_nil, paired_nil, paired_nil]
  | cons t ts ih =>
    rw [List.map_cons, paired_cons, paired_cons, same t left left' (hleft t),
      same t right right' (hright t)]
    exact and_congr_right' ih

end Paired

/-! ## Tokens -/

/-- Can a token stand in an expression? -/
def Token.isKnown : Token → Bool
  | .tooLong _ | .unknown _ => false
  | _ => true

theorem balanced_iff {d : Nat} {ts : List Token} :
    Balanced d ts ↔ (∀ t ∈ ts, t.isKnown = true) ∧ Paired .opening .closing d ts := by
  induction ts generalizing d with
  | nil => simp [Balanced, paired_nil]
  | cons t ts ih =>
    rw [paired_cons, List.forall_mem_cons]
    cases t with
    | num | var | op => simp [Balanced, Token.isKnown, ih]
    | opening => simp [Balanced, Token.isKnown, ih]
    | closing => cases d <;> simp [Balanced, Token.isKnown, ih]
    | tooLong | unknown => simp [Balanced, Token.isKnown]

/-- An operand with opening parentheses before it and closing ones after it. -/
def enclosed (opens : Nat) (t : Token) (closes : Nat) : List Token :=
  List.replicate opens .opening ++ t :: List.replicate closes .closing

/-- Operands with an operator between each and the next. There may be any parentheses around each of
them, with partners or without. -/
inductive InfixOrder : List Token → Prop where
  | operand (opens closes : Nat) {t : Token} (h : t.isOperand = true) :
    InfixOrder (enclosed opens t closes)
  | next (opens closes : Nat) {t : Token} (h : t.isOperand = true) (o : Op) {ts : List Token}
      (rest : InfixOrder ts) : InfixOrder (enclosed opens t closes ++ .op o :: ts)

theorem Alternates.isKnown {complete : Bool} {ts : List Token} (h : Alternates complete ts) :
    ∀ t ∈ ts, t.isKnown = true := by
  induction h with
  | @operand t ht _ _ ih =>
    refine List.forall_mem_cons.2 ⟨?_, ih⟩
    cases t with
    | num | var => rfl
    | _ => cases ht
  | opening _ ih | op o _ ih | closing _ ih => exact List.forall_mem_cons.2 ⟨rfl, ih⟩
  | done => simp

theorem alternates_enclosed (opens closes : Nat) {t : Token} (h : t.isOperand = true)
    {rest : List Token} (hrest : Alternates true rest) :
    Alternates false (enclosed opens t closes ++ rest) := by
  have closed : Alternates true (List.replicate closes .closing ++ rest) := by
    induction closes with
    | zero => exact hrest
    | succ n ih => exact .closing ih
  rw [enclosed, List.append_assoc]
  induction opens with
  | zero => exact .operand h closed
  | succ n ih => exact .opening ih

theorem InfixOrder.alternates {ts : List Token} (h : InfixOrder ts) : Alternates false ts := by
  induction h with
  | operand opens closes ht => simpa using alternates_enclosed opens closes ht .done
  | next opens closes ht o _ ih => exact alternates_enclosed opens closes ht (.op o ih)

/-- Tokens in infix order are read as an expression if and only if their parentheses are paired. If
they are not, that is what is reported, and never an operator or an operand out of place. -/
theorem reading_in_infixOrder {ts : List Token} (h : InfixOrder ts) :
    ((∃ e, parseTokens .ok ts = .ok e) ↔ Paired .opening .closing 0 ts) ∧
      (parseTokens .ok ts = .error (.parse .unbalanced) ↔ ¬ Paired .opening .closing 0 ts) := by
  have alternates := h.alternates
  have balanced : Balanced 0 ts ↔ Paired .opening .closing 0 ts :=
    balanced_iff.trans (and_iff_right alternates.isKnown)
  rw [← balanced]
  rcases parseTokens_of_alternates alternates with ⟨paired, e, read⟩ | ⟨unpaired, refused⟩
  · simp [paired, read]
  · simp [unpaired, refused]

/-- As many parentheses are closed as are opened, but the second one is closed before it is
opened. -/
theorem reading_in_infixOrder_of_early_closing :
    let ts := tokens "( a + b ) ) * ( c"
    InfixOrder ts ∧ ts.count .opening = ts.count .closing ∧
      parseTokens .ok ts = .error (.parse .unbalanced) := by
  intro ts
  have order : InfixOrder ts := by
    have words : ts = enclosed 1 (.var "a") 0 ++ .op .add ::
        (enclosed 0 (.var "b") 2 ++ .op .mul :: enclosed 1 (.var "c") 0) := by decide +kernel
    rw [words]
    exact .next 1 0 rfl .add (.next 0 2 rfl .mul (.operand 1 0 rfl))
  refine ⟨order, by decide +kernel, (reading_in_infixOrder order).2.2 ?_⟩
  intro paired
  have early : (tokens "( a + b ) )") <+: ts := by decide +kernel
  exact absurd (paired.front _ early) (by decide +kernel)

end ArithTree
