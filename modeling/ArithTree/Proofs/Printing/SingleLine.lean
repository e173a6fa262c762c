import ArithTree.Proofs.Printing.Readability

/-!
# Texts on one line

Neither the prefix form of a legible expression (`newline_notMem_print?`) nor the message of a parse
error (`newline_notMem_message`) holds a line feed. The token in a message may hold one, but it is
quoted.
-/

namespace ArithTree

open ArithTree.Expr

/-! ## Printed expressions -/

theorem ne_newline_of_isLeafChar {c : Char} (h : isLeafChar c = true) : c ≠ '\n' := by
  rintro rfl
  exact absurd h (by decide)

/-- A legible expression is printed on one line. -/
theorem newline_notMem_print? {e : Expr} (legible : Legible e) {s : String}
    (h : e.print? = some s) : '\n' ∉ s.toList := by
  have leaf {e : Expr} {word : List Char} (h : PrintsAs e word) : '\n' ∉ word := fun hc =>
    ne_newline_of_isLeafChar (h.characters _ hc) rfl
  have all {es : List Expr} (h : ∀ e ∈ es, ∀ s, e.print? = some s → '\n' ∉ s.toList) {s : String}
      (hs : printAll? es = some s) : '\n' ∉ s.toList := by
    induction es generalizing s with
    | nil =>
      rw [printAll?] at hs
      cases hs
      simp
    | cons e es ih =>
      rw [List.forall_mem_cons] at h
      obtain ⟨first, rest, hfirst, hrest, hs⟩ := printAll?_cons_eq_some hs
      simp [hs, h.1 first hfirst, ih h.2 hrest]
  induction e using Expr.induction generalizing s with
  | num | var =>
    obtain word | ⟨_, _, ⟨⟩⟩ := printsAs_or_node legible h
    exact leaf word
  | node op args ih =>
    obtain ⟨rest, hrest, hs⟩ := print?_node_eq_some h
    have inner := all (fun e he s => ih e he (legible_node.1 legible e he)) hrest
    have symbol : '\n' ≠ op.symbol := by cases op <;> decide
    simp [hs, inner, symbol]

/-! ## Messages -/

theorem newline_notMem_hexDigits (width n : Nat) : '\n' ∉ hexDigits width n := by
  induction width generalizing n with
  | zero => simp [hexDigits]
  | succ width ih =>
    have digit : ∀ d, d < 16 → '\n' ≠ Nat.digitChar d := by decide
    simp [hexDigits, ih, digit _ (Nat.mod_lt n (by decide))]

theorem newline_notMem_escapeCode (n : Nat) : '\n' ∉ escapeCode n := by
  unfold escapeCode
  split
  · simp [newline_notMem_hexDigits]
  · split <;> simp [newline_notMem_hexDigits]

theorem newline_notMem_escapeChar {mark : Char} (hmark : mark ≠ '\n') (c : Char) :
    '\n' ∉ escapeChar mark c := by
  by_cases newline : c = '\n'
  · simp [escapeChar, newline, hmark.symm]
  · unfold escapeChar
    split_ifs <;> simp [newline_notMem_escapeCode, Ne.symm newline]

/-- A quoted text stands on one line. -/
theorem newline_notMem_quote (s : String) : '\n' ∉ (quote s).toList := by
  have mark : quoteMark s.toList ≠ '\n' := by
    unfold quoteMark
    split <;> decide
  unfold quote
  simp only [String.toList_ofList, List.cons_append, List.mem_cons, List.mem_append,
    List.mem_flatMap, not_or, not_exists, not_and, List.not_mem_nil, not_false_eq_true, and_true]
  exact ⟨mark.symm, fun c _ => newline_notMem_escapeChar mark c, mark.symm⟩

theorem newline_notMem_message (error : ParseError) : '\n' ∉ error.message.toList := by
  cases error with
  | unbalanced => decide
  | unexpected token => simp [ParseError.message, newline_notMem_quote]

end ArithTree
