import ArithTree.Proofs.Printing.Legible

/-!
# Reading the prefix form back

The prefix form of a legible expression determines the expression, whatever numbers of arguments its
operators have. No length or end is written: a leaf's word ends before the first character that no
leaf is printed with, and the arguments of an operator end at the parenthesis. What is printed is
therefore found again in front of any text, as long as that does not go on with a character of a
leaf (`print?_append_inj`).

Main statement: `prefix_form_determines`, for single expressions and for the test whether a pass has
changed anything.
-/

namespace ArithTree.Expr

/-! ## Printed forms -/

theorem print?_node_eq_some {op : Op} {args : List Expr} {s : String}
    (h : print? (.node op args) = some s) :
    ∃ rest, printAll? args = some rest ∧ s.toList = '(' :: op.symbol :: (rest.toList ++ [')']) := by
  rw [print?] at h
  obtain ⟨rest, hrest, ⟨⟩⟩ := Option.bind_eq_some_iff.1 h
  exact ⟨rest, hrest, by simp⟩

theorem printAll?_cons_eq_some {e : Expr} {es : List Expr} {s : String}
    (h : printAll? (e :: es) = some s) :
    ∃ first rest, e.print? = some first ∧ printAll? es = some rest ∧
      s.toList = ' ' :: (first.toList ++ rest.toList) := by
  rw [printAll?] at h
  obtain ⟨first, hfirst, h⟩ := Option.bind_eq_some_iff.1 h
  obtain ⟨rest, hrest, ⟨⟩⟩ := Option.bind_eq_some_iff.1 h
  exact ⟨first, rest, hfirst, hrest, by simp⟩

/-- A legible expression is printed as a word, or it is an application. -/
theorem printsAs_or_node {e : Expr} (legible : Legible e) {s : String} (h : e.print? = some s) :
    PrintsAs e s.toList ∨ ∃ op args, e = .node op args := by
  cases e with
  | num n =>
    rw [print?] at h
    exact .inl (printsAs_num (legible_num.1 legible) h)
  | var x =>
    rw [print?] at h
    cases h
    exact .inl (printsAs_var (legible_var.1 legible))
  | node op args => exact .inr ⟨op, args, rfl⟩

/-! ## Where printed forms end -/

/-- The text does not go on with a character that leaves are printed with. -/
def Delimited (rest : List Char) : Prop := ∀ c ∈ rest.head?, isLeafChar c = false

theorem delimited_closing (rest : List Char) : Delimited (')' :: rest) := by
  rintro _ ⟨⟩
  rfl

/-- The next argument or the end of the arguments delimits an argument. -/
theorem delimited_printAll? {es : List Expr} {s : String} (h : printAll? es = some s)
    (rest : List Char) : Delimited (s.toList ++ ')' :: rest) := by
  cases es with
  | nil =>
    rw [printAll?] at h
    cases h
    exact delimited_closing rest
  | cons e es =>
    obtain ⟨first, more, _, _, hs⟩ := printAll?_cons_eq_some h
    rw [hs]
    rintro _ ⟨⟩
    rfl

/-- A delimited word is the longest prefix that leaves are printed with. -/
theorem takeWhile_of_delimited {word rest : List Char} (hword : ∀ c ∈ word, isLeafChar c = true)
    (hrest : Delimited rest) : (word ++ rest).takeWhile isLeafChar = word := by
  rw [List.takeWhile_append_of_pos hword]
  cases rest with
  | nil => simp
  | cons c rest => simp [hrest c rfl]

theorem append_inj_of_printsAs {a b : Expr} {word word' rest rest' : List Char}
    (ha : PrintsAs a word) (hb : PrintsAs b word') (hrest : Delimited rest)
    (hrest' : Delimited rest') (same : word ++ rest = word' ++ rest') : a = b ∧ rest = rest' := by
  have words : word = word' := by
    rw [← takeWhile_of_delimited ha.characters hrest, same,
      takeWhile_of_delimited hb.characters hrest']
  subst words
  exact ⟨ha.leaf.symm.trans hb.leaf, List.append_cancel_left same⟩

/-- A leaf is not printed like an application. -/
theorem append_ne_application {e : Expr} {word : List Char} (h : PrintsAs e word)
    (rest cs : List Char) : word ++ rest ≠ '(' :: cs := by
  obtain ⟨nonempty, characters, _⟩ := h
  cases word with
  | nil => exact absurd rfl nonempty
  | cons c word =>
    rintro ⟨⟩
    exact absurd (characters '(' List.mem_cons_self) (by decide)

/-! ## Unique readability -/

/-- Arguments whose printed forms can be told apart are found again before a closing parenthesis. -/
theorem printAll?_append_inj {es : List Expr}
    (unique : ∀ a ∈ es, ∀ b, Legible b → ∀ s t, a.print? = some s → b.print? = some t →
      ∀ rest rest', Delimited rest → Delimited rest' →
        s.toList ++ rest = t.toList ++ rest' → a = b ∧ rest = rest')
    {fs : List Expr} (legible : ∀ b ∈ fs, Legible b) {s t : String}
    (hs : printAll? es = some s) (ht : printAll? fs = some t) {rest rest' : List Char}
    (same : s.toList ++ ')' :: rest = t.toList ++ ')' :: rest') : es = fs ∧ rest = rest' := by
  induction es generalizing fs s t with
  | nil =>
    rw [printAll?] at hs
    cases hs
    cases fs with
    | nil =>
      rw [printAll?] at ht
      cases ht
      exact ⟨rfl, List.tail_eq_of_cons_eq same⟩
    | cons b fs =>
      -- One list of arguments ends where the other one goes on.
      obtain ⟨_, _, _, _, ht⟩ := printAll?_cons_eq_some ht
      rw [ht] at same
      cases same
  | cons a es ih =>
    rw [List.forall_mem_cons] at unique
    obtain ⟨first, more, hfirst, hmore, hs⟩ := printAll?_cons_eq_some hs
    cases fs with
    | nil =>
      rw [printAll?] at ht
      cases ht
      rw [hs] at same
      cases same
    | cons b fs =>
      rw [List.forall_mem_cons] at legible
      obtain ⟨first', more', hfirst', hmore', ht⟩ := printAll?_cons_eq_some ht
      simp only [hs, ht, List.cons_append, List.append_assoc, List.cons.injEq, true_and] at same
      obtain ⟨rfl, same⟩ := unique.1 b legible.1 first first' hfirst hfirst' _ _
        (delimited_printAll? hmore rest) (delimited_printAll? hmore' rest') same
      obtain ⟨rfl, rfl⟩ := ih unique.2 legible.2 hmore hmore' same
      exact ⟨rfl, rfl⟩

/-- A legible expression is found again in front of any text that does not go on with a character
of a leaf. -/
theorem print?_append_inj {a : Expr} (ha : Legible a) : ∀ b, Legible b → ∀ s t,
    a.print? = some s → b.print? = some t → ∀ rest rest', Delimited rest → Delimited rest' →
      s.toList ++ rest = t.toList ++ rest' → a = b ∧ rest = rest' := by
  induction a using Expr.induction with
  | num | var =>
    intro b hb s t hs ht rest rest' hrest hrest' same
    obtain leaf | ⟨_, _, ⟨⟩⟩ := printsAs_or_node ha hs
    rcases printsAs_or_node hb ht with leaf' | ⟨op, args, rfl⟩
    · exact append_inj_of_printsAs leaf leaf' hrest hrest' same
    · obtain ⟨_, _, ht⟩ := print?_node_eq_some ht
      rw [ht] at same
      exact absurd same (append_ne_application leaf _ _)
  | node op args ih =>
    intro b hb s t hs ht rest rest' hrest hrest' same
    obtain ⟨more, hmore, hs⟩ := print?_node_eq_some hs
    rw [hs] at same
    rcases printsAs_or_node hb ht with leaf' | ⟨op', args', rfl⟩
    · exact absurd same.symm (append_ne_application leaf' _ _)
    · obtain ⟨more', hmore', ht⟩ := print?_node_eq_some ht
      simp only [ht, List.cons_append, List.append_assoc, List.nil_append, List.cons.injEq,
        true_and] at same
      obtain ⟨symbols, same⟩ := same
      have ops : op = op' := Op.symbol_injective symbols
      subst ops
      obtain ⟨rfl, rfl⟩ := printAll?_append_inj
        (fun e he => ih e he (legible_node.1 ha e he)) (legible_node.1 hb) hmore hmore' same
      exact ⟨rfl, rfl⟩

/-- Legible expressions are equal if they are printed alike. -/
theorem eq_of_print?_eq {a b : Expr} (ha : Legible a) (hb : Legible b) {s : String}
    (hs : a.print? = some s) (ht : b.print? = some s) : a = b := by
  have nothing : Delimited [] := by simp [Delimited]
  exact (print?_append_inj ha b hb s s hs ht [] [] nothing nothing rfl).1

/-- No other legible expression has the prefix form of a legible expression. So in the course of a
simplification, a pass has changed nothing if and only if what it leaves is printed as before. -/
theorem prefix_form_determines {e : Expr} (legible : Legible e) :
    (∀ b s, Legible b → e.print? = some s → b.print? = some s → e = b) ∧
      ∀ n x next, e.passTimes n = .ok x → x.pass = .ok next →
        ∀ s t, x.print? = some s → next.print? = some t → (next = x ↔ t = s) := by
  refine ⟨fun b s hb hs ht => eq_of_print?_eq legible hb hs ht, ?_⟩
  intro n x next times passed s t hs ht
  have hx : Legible x := legible_of_passTimes times legible
  constructor
  · rintro rfl
    exact Option.some.inj (ht.symm.trans hs)
  · rintro rfl
    exact eq_of_print?_eq (legible_of_pass passed hx) hx ht hs

/-- The first pass loses a spelling, which changes the expression and its prefix form. -/
theorem prefix_form_determines_of_spelling :
    let e := node .add [.num ⟨7, some "007"⟩, node .mul [], .var "x1"]
    let next := node .add [ofInt 7, node .mul [], .var "x1"]
    Legible e ∧ (∀ b, Legible b → b.print? = some "(+ 007 (*) x1)" → b = e) ∧
      e.pass = .ok next ∧ next.print? = some "(+ 7 (*) x1)" ∧ next ≠ e := by
  intro e next
  have legible : Legible e := by
    have seven : Numeral.Faithful ⟨7, some "007"⟩ := by
      rintro text ⟨⟩
      exact ⟨by decide, by decide⟩
    have x : IsVariable "x1".toList := ⟨by decide, by simp, by simp⟩
    simpa [e, legible_node, legible_num, legible_var] using ⟨seven, x⟩
  have empty : pass (node .mul []) = .ok (node .mul []) := by
    rw [pass_node]
    rfl
  have rule : applyRule .add [.num ⟨7, some "007"⟩, node .mul [], .var "x1"] = .ok next := by
    decide +kernel
  have passed : e.pass = .ok next := by
    rw [pass_node, rule]
    show ([ofInt 7, node .mul [], .var "x1"].mapM pass).map (collapse .add) = _
    rw [List.mapM_cons, List.mapM_cons, empty, List.mapM_cons, ofInt, pass_num, pass_var]
    rfl
  have hs : e.print? = some "(+ 007 (*) x1)" := by decide +kernel
  have ht : next.print? = some "(+ 7 (*) x1)" := by decide +kernel
  obtain ⟨unique, changed⟩ := prefix_form_determines legible
  refine ⟨legible, fun b hb hprint => (unique b _ hb hs hprint).symm, passed, ht, ?_⟩
  rw [Ne, changed 0 e next rfl passed _ _ hs ht]
  decide

end ArithTree.Expr
