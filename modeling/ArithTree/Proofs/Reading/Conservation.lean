import ArithTree.Proofs.Reading.Folding
import ArithTree.Proofs.Reading.Parentheses
import ArithTree.Proofs.Reading.Written
import ArithTree.Proofs.Simplify.Leaves

/-!
# Nothing is lost in reading

Whatever text is read as an expression, be it a sentence or not, every word of it is accounted for:
the operands are the leaves of the expression, in their order and in their spelling, the operators
are those of its applications, and all other words are parentheses, which are paired.

The code that is made of tokens pushes their operands in the order of the tokens, and the code of an
expression pushes its leaves from left to right (`ReadsTo.filterMap_pushed?`, `pushed?_code`). As
the two are the same code, so are the operands and the leaves.

Main statement: `reading_conserves`.
-/

namespace ArithTree

open ArithTree.Expr

/-! ## Words -/

/-- Is a word made of an optional minus sign and digits, or of letters and digits? -/
def isOperandWord (w : List Char) : Bool := Decimal.isDigits (Decimal.unsigned w) || isName w

namespace Token

theorem ofWord_eq_opening_iff {w : List Char} : ofWord w = .opening ↔ w = ['('] := by
  constructor
  · intro h
    cases standsFor_of_ofWord_eq h
    rfl
  · rintro rfl
    rfl

theorem ofWord_eq_closing_iff {w : List Char} : ofWord w = .closing ↔ w = [')'] := by
  constructor
  · intro h
    cases standsFor_of_ofWord_eq h
    rfl
  · rintro rfl
    rfl

theorem ofWord_eq_op_iff {w : List Char} {o : Op} : ofWord w = .op o ↔ w = [o.symbol] := by
  constructor
  · intro h
    cases standsFor_of_ofWord_eq h
    rfl
  · rintro rfl
    exact ofWord_symbol o

/-- The operator of a word is that of its token. -/
theorem op?_ofWord (w : List Char) : (ofWord w).op? = operatorOfWord? w := by
  have eq_some (t : Token) (o : Op) : t.op? = some o ↔ t = .op o := by
    cases t <;> simp [op?]
  ext o
  rw [eq_some, ofWord_eq_op_iff, operatorOfWord?_eq_some]

/-- A word that is printed for the leaf that it stands for. -/
theorem print?_of_leaf? {w : List Char} {e : Expr} (hw : w ≠ []) (h : (ofWord w).leaf? = some e) :
    e.print? = some (String.ofList w) := by
  rw [← print?_ofWord hw]
  generalize ofWord w = t at h
  cases t with
  | num | var =>
    cases h
    rw [Expr.print?, print?]
  | _ => cases h

/-- A word of an expression is an operand, an operator or a parenthesis, as its token is. -/
theorem kind_of_isKnown {w : List Char} (known : (ofWord w).isKnown = true) :
    ((ofWord w).leaf?.isSome = true ∧ isOperandWord w = true) ∨
      ((ofWord w).leaf? = none ∧ isOperandWord w = false ∧
        ((operatorOfWord? w).isSome = true ∨ w = ['('] ∨ w = [')'])) := by
  have stands := standsFor_ofWord w
  generalize ofWord w = t at stands known
  cases stands with
  | num read => exact .inl ⟨rfl, by simp [isOperandWord, ← Decimal.isSome_read?, read]⟩
  | var notNumeral name => exact .inl ⟨rfl, by simp [isOperandWord, name]⟩
  | op o =>
    exact .inr ⟨rfl, by cases o <;> decide, .inl (by rw [operatorOfWord?_eq_some.2 rfl]; rfl)⟩
  | opening => exact .inr ⟨rfl, by decide, .inr (.inl rfl)⟩
  | closing => exact .inr ⟨rfl, by decide, .inr (.inr rfl)⟩
  | tooLong | unknown => cases known

end Token

/-- The operand words among words of an expression are those that are printed for their leaves. -/
theorem map_print?_leaves {ws : List (List Char)} (isWord : ∀ w ∈ ws, w ≠ [])
    (known : ∀ w ∈ ws, (Token.ofWord w).isKnown = true) :
    ((ws.map Token.ofWord).filterMap Token.leaf?).map print? =
      (ws.filter isOperandWord).map fun w => some (String.ofList w) := by
  induction ws with
  | nil => rfl
  | cons w ws ih =>
    rw [List.forall_mem_cons] at isWord known
    have ih := ih isWord.2 known.2
    rcases Token.kind_of_isKnown known.1 with ⟨leaf, operand⟩ | ⟨noLeaf, noOperand, _⟩
    · obtain ⟨e, he⟩ := Option.isSome_iff_exists.1 leaf
      rw [List.map_cons, List.filterMap_cons_some he, List.map_cons, ih,
        Token.print?_of_leaf? isWord.1 he, List.filter_cons_of_pos operand, List.map_cons]
    · rw [List.map_cons, List.filterMap_cons_none noLeaf, ih,
        List.filter_cons_of_neg (by simp [noOperand])]

/-! ## Code -/

/-- The expression that an instruction pushes. -/
def Instr.pushed? : Instr → Option Expr
  | .push e => some e
  | .apply _ => none

theorem filterMap_pushed?_applied (spine : List Op) :
    (applied spine).filterMap Instr.pushed? = [] := by
  simp [applied, Instr.pushed?]

/-- Code pushes the operands of its tokens, in their order. -/
theorem Program.ReadsTo.filterMap_pushed? {held : List Held} {ts : List Token} {code : List Instr}
    (h : ReadsTo held ts code) : code.filterMap Instr.pushed? = ts.filterMap Token.leaf? := by
  induction h with
  | done spine => exact filterMap_pushed?_applied spine
  | leaf ht _ ih =>
    rw [List.filterMap_cons_some ht, ← ih]
    rfl
  | op o spine _ ih | closing spine _ ih =>
    rw [List.filterMap_append, filterMap_pushed?_applied, List.nil_append, ih]
    rfl
  | opening _ ih => exact ih

namespace Expr

/-- The code of an expression pushes its leaves, from left to right. -/
theorem pushed?_code {e : Expr} (binary : Binary e) :
    e.code.filterMap Instr.pushed? = e.leaves.map ofLeaf := by
  induction binary using Binary.induction with
  | num | var => simp [code, Instr.pushed?, ofLeaf]
  | pair op left right _ _ ihl ihr => simp [code, Instr.pushed?, ihl, ihr]

/-- The operators of the applications in an expression. -/
def operators (e : Expr) : List Op := e.applications.filterMap root?

/-- The code of an expression applies its operators. -/
theorem op?_code {e : Expr} (binary : Binary e) :
    e.code.filterMap Instr.op? = e.operators := by
  have roots := congrArg (List.filterMap id) (map_root?_applications binary)
  rw [List.filterMap_map, List.filterMap_map] at roots
  exact (List.filterMap_some.symm.trans roots.symm)

/-- There is one leaf more than there are applications to two arguments. -/
theorem length_leaves {e : Expr} (binary : Binary e) :
    e.leaves.length = e.operators.length + 1 := by
  rw [← op?_code binary]
  induction binary using Binary.induction with
  | num | var => simp [code, Instr.op?]
  | pair op left right _ _ ihl ihr =>
    simp only [leaves_node, leavesAll_cons, leavesAll_nil, List.append_nil, List.length_append, code,
      List.filterMap_append, ihl, ihr]
    simp [Instr.op?]
    omega

end Expr

/-- The leaves of an expression are among those of what its code pushes. -/
theorem exists_push_of_mem_leaves {e : Expr} {leaf : Numeral ⊕ String} (h : leaf ∈ e.leaves) :
    ∃ e', Instr.push e' ∈ e.code ∧ leaf ∈ e'.leaves := by
  fun_induction Expr.code e with
  | case1 op left right ihl ihr =>
    simp only [leaves_node, leavesAll_cons, leavesAll_nil, List.append_nil, List.mem_append] at h
    rcases h with h | h
    · obtain ⟨e', he', hleaf⟩ := ihl h
      exact ⟨e', by simp [he'], hleaf⟩
    · obtain ⟨e', he', hleaf⟩ := ihr h
      exact ⟨e', by simp [he'], hleaf⟩
  | case2 e => exact ⟨e, List.mem_singleton_self _, h⟩

theorem Expr.IsLeafOf.ofLeaf_eq {ts : List Token} {e : Expr} (h : e.IsLeafOf ts)
    {leaf : Numeral ⊕ String} (hleaf : leaf ∈ e.leaves) : ofLeaf leaf = e := by
  rcases h with ⟨n, _, rfl⟩ | ⟨x, _, rfl⟩
  all_goals
    simp only [leaves_num, leaves_var, List.mem_singleton] at hleaf
    rw [hleaf]
    rfl

/-- The leaves of what tokens leave on the stack stand among the tokens. -/
theorem Program.ReadsTo.isLeafOf_of_run {ts : List Token} {code : List Instr}
    (h : ReadsTo [] ts code) {out : Stack} (hrun : Stack.run .ok [] code = .ok out) {e : Expr}
    (he : e ∈ out) {leaf : Numeral ⊕ String} (hleaf : leaf ∈ e.leaves) :
    (ofLeaf leaf).IsLeafOf ts := by
  obtain ⟨e', hpush, hleaf'⟩ := exists_push_of_mem_leaves hleaf
  have pushed : Instr.push e' ∈ code := by
    rw [h.codes_eq hrun, Stack.codes]
    exact List.mem_flatMap.2 ⟨e, List.mem_reverse.2 he, hpush⟩
  have isLeaf := h.isLeafOf pushed
  exact (isLeaf.ofLeaf_eq hleaf') ▸ isLeaf

/-! ## Reading -/

/-- What is read from a text has two arguments to every operator. Its leaves are printed as the
operands among the words of the text, in the order of the words, and its operators are the operators
among them, of which there is one less. All other words are parentheses, which are paired. -/
theorem reading_conserves {s : String} {e : Expr} (h : parse s = .ok e) :
    Binary e ∧
      (e.leaves.map fun leaf => (ofLeaf leaf).print?) =
        ((words s.toList).filter isOperandWord).map (fun w => some (String.ofList w)) ∧
      e.operators.Perm ((words s.toList).filterMap operatorOfWord?) ∧
      ((words s.toList).filter isOperandWord).length =
        ((words s.toList).filterMap operatorOfWord?).length + 1 ∧
      (∀ w ∈ words s.toList, isOperandWord w = true ∨ (operatorOfWord? w).isSome = true ∨
        w = ['('] ∨ w = [')']) ∧
      Paired ['('] [')'] 0 (words s.toList) := by
  have binary : Binary e := binary_of_parse h
  have program : Program.ofTokens (tokens s) = ⟨e.code, none⟩ := code_of_parseTokens h
  have reads : Program.ReadsTo [] (tokens s) e.code := by
    have reads := @Program.readsTo_of_error [] (tokens s) (congrArg Program.error program)
    rwa [← Program.ofTokens, program] at reads
  obtain ⟨known, paired⟩ := balanced_iff.1 reads.balanced.1
  replace known : ∀ w ∈ words s.toList, (Token.ofWord w).isKnown = true := fun w hw =>
    known _ (List.mem_map_of_mem hw)
  have printed : (e.leaves.map fun leaf => (ofLeaf leaf).print?) =
      ((words s.toList).filter isOperandWord).map (fun w => some (String.ofList w)) := by
    rw [← map_print?_leaves (fun w hw => (mem_words hw).1) known]
    show _ = ((tokens s).filterMap Token.leaf?).map print?
    rw [← reads.filterMap_pushed?, pushed?_code binary, List.map_map]
    rfl
  have operators : e.operators.Perm ((words s.toList).filterMap operatorOfWord?) := by
    have perm := reads.ops_perm
    rw [op?_code binary, tokens, List.filterMap_map] at perm
    simpa only [Function.comp_def, Token.op?_ofWord, List.filterMap_nil, List.nil_append] using perm
  have count := length_leaves binary
  rw [operators.length_eq] at count
  have length := congrArg List.length printed
  rw [List.length_map, List.length_map] at length
  refine ⟨binary, printed, operators, by omega, ?_, ?_⟩
  · intro w hw
    rcases Token.kind_of_isKnown (known w hw) with ⟨_, operand⟩ | ⟨_, _, other⟩
    · exact .inl operand
    · exact .inr other
  · exact (paired_map (fun _ => Token.ofWord_eq_opening_iff)
      (fun _ => Token.ofWord_eq_closing_iff)).1 paired

/-- Operands with no operator between them, and parentheses around no expression. -/
theorem reading_conserves_of_misplaced_operators :
    let s := "( a 007 ) - ( b ) *"
    let e := node .sub [.var "a", node .mul [.num ⟨7, some "007"⟩, .var "b"]]
    parse s = .ok e ∧ e.operators.Perm ((words s.toList).filterMap operatorOfWord?) ∧
      (e.leaves.map fun leaf => (ofLeaf leaf).print?) = [some "a", some "007", some "b"] := by
  intro s e
  have hparse : parse s = .ok e := by decide +kernel
  obtain ⟨_, printed, operators, _⟩ := reading_conserves hparse
  exact ⟨hparse, operators, printed.trans (by decide +kernel)⟩

end ArithTree
