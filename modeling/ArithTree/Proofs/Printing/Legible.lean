import ArithTree.Proofs.Reading.Conservation
import ArithTree.Proofs.Simplify.Faults

/-!
# Legible expressions

An expression is legible if its leaves are such as reading gives: names of variables, and numerals
that have a text only if it is one that they are read from and not the canonical one. Operators may
have any number of arguments.

A leaf of a legible expression is determined by the word that is printed for it (`leafOfWord`). All
that is read is legible, also what is left of a text that is refused (`legible_of_run`), and passes
keep it so (`legible_of_pass`).
-/

namespace ArithTree

open ArithTree.Expr

/-! ## Leaves and words -/

/-- If a numeral has a text, then it is one that the numeral is read from, and not the canonical
one. -/
def Numeral.Faithful (n : Numeral) : Prop :=
  ∀ text, n.text = some text →
    Decimal.read? text.toList = some n.value ∧ text.toList ≠ Decimal.digits n.value

theorem Numeral.faithful_ofInt (n : Int) : (ofInt n).Faithful := by
  rintro text ⟨⟩

theorem Numeral.faithful_ofWord {word : List Char} {n : Int} (read : Decimal.read? word = some n) :
    (ofWord word n).Faithful := by
  intro text htext
  simp only [ofWord] at htext
  split at htext
  · cases htext
  · next other =>
    cases htext
    rw [String.toList_ofList]
    exact ⟨read, other⟩

/-- A faithful numeral is that of the word that is printed for it. -/
theorem Numeral.Faithful.eq_ofWord {n : Numeral} (h : n.Faithful) {word : String}
    (printed : n.print? = some word) :
    Decimal.read? word.toList = some n.value ∧ ofWord word.toList n.value = n := by
  obtain ⟨value, text⟩ := n
  cases text with
  | none =>
    obtain ⟨_, rfl⟩ := Decimal.write?_eq_some_iff.1 printed
    rw [String.toList_ofList]
    exact ⟨Decimal.read?_digits value, by simp [ofWord]⟩
  | some text =>
    obtain ⟨read, other⟩ := h text rfl
    have nonempty : text.isEmpty = false := by
      rw [← Bool.not_eq_true, String.isEmpty_iff]
      rintro rfl
      cases read
    have same : text = word := by simpa [print?, nonempty] using printed
    subst same
    exact ⟨read, by simpa [ofWord] using other⟩

/-- Is the leaf such as reading gives? -/
def LegibleLeaf : Numeral ⊕ String → Prop
  | .inl n => n.Faithful
  | .inr x => IsVariable x.toList

/-- The leaf that is printed as a word. -/
def leafOfWord (word : List Char) : Expr :=
  match Decimal.read? word with
  | some n => .num (.ofWord word n)
  | none => .var (String.ofList word)

/-- The words that are printed for leaves are made of letters, digits and the minus sign. -/
def isLeafChar (c : Char) : Bool := c.isAlphanum || c == '-'

theorem isLeafChar_of_read? {word : List Char} {n : Int} (read : Decimal.read? word = some n) :
    word ≠ [] ∧ ∀ c ∈ word, isLeafChar c = true := by
  have characters {ds : List Char} (h : Decimal.isDigits ds = true) :
      ds ≠ [] ∧ ∀ c ∈ ds, isLeafChar c = true := by
    obtain ⟨nonempty, digits⟩ := Decimal.isDigits_iff.1 h
    refine ⟨nonempty, fun c hc => ?_⟩
    simp [isLeafChar, Char.isAlphanum, digits c hc]
  have digits : Decimal.isDigits (Decimal.unsigned word) = true := by
    rw [← Decimal.isSome_read?, read]
    rfl
  unfold Decimal.unsigned at digits
  split at digits
  · exact ⟨by simp, List.forall_mem_cons.2 ⟨rfl, (characters digits).2⟩⟩
  · exact characters digits

/-- A legible leaf and the word that is printed for it. -/
structure PrintsAs (e : Expr) (word : List Char) : Prop where
  nonempty : word ≠ []
  characters : ∀ c ∈ word, isLeafChar c = true
  leaf : leafOfWord word = e

theorem printsAs_num {n : Numeral} (legible : n.Faithful) {word : String}
    (printed : n.print? = some word) : PrintsAs (.num n) word.toList := by
  obtain ⟨read, eq⟩ := legible.eq_ofWord printed
  obtain ⟨nonempty, characters⟩ := isLeafChar_of_read? read
  refine ⟨nonempty, characters, ?_⟩
  simp only [leafOfWord, read, eq]

theorem printsAs_var {x : String} (legible : IsVariable x.toList) :
    PrintsAs (.var x) x.toList := by
  refine ⟨legible.nonempty, ?_, ?_⟩
  · intro c hc
    simp [isLeafChar, legible.characters c hc]
  · simp only [leafOfWord, legible.read?_eq_none, String.ofList_toList]

namespace Expr

/-! ## Expressions -/

/-- All leaves of the expression are such as reading gives. -/
def Legible (e : Expr) : Prop := ∀ leaf ∈ e.leaves, LegibleLeaf leaf

theorem legible_num {n : Numeral} : Legible (.num n) ↔ n.Faithful := by
  simp [Legible, LegibleLeaf]

theorem legible_var {x : String} : Legible (.var x) ↔ IsVariable x.toList := by
  simp [Legible, LegibleLeaf]

theorem legible_node {op : Op} {args : List Expr} :
    Legible (.node op args) ↔ ∀ e ∈ args, Legible e := by
  simp only [Legible, leaves_node, leavesAll_eq_flatMap, List.mem_flatMap]
  exact ⟨fun h e he leaf hleaf => h leaf ⟨e, he, hleaf⟩,
    fun h leaf ⟨e, he, hleaf⟩ => h e he leaf hleaf⟩

/-! ## Reading -/

/-- The leaves that stand among the tokens of a text are legible. -/
theorem legibleLeaf_of_isLeafOf {s : String} {leaf : Numeral ⊕ String}
    (h : (ofLeaf leaf).IsLeafOf (tokens s)) : LegibleLeaf leaf := by
  rcases h with ⟨n, hn, eq⟩ | ⟨x, hx, eq⟩
  · obtain ⟨word, _, hword⟩ := List.mem_map.1 hn
    cases leaf <;> cases eq
    cases Token.standsFor_of_ofWord_eq hword with
    | num read => exact Numeral.faithful_ofWord read
  · obtain ⟨word, _, hword⟩ := List.mem_map.1 hx
    cases leaf <;> cases eq
    cases Token.standsFor_of_ofWord_eq hword with
    | var notNumeral name =>
      obtain ⟨nonempty, characters⟩ := isName_iff.1 name
      show IsVariable (String.ofList word).toList
      rw [String.toList_ofList]
      refine ⟨nonempty, characters, ?_⟩
      intro digits
      rw [Decimal.read?_of_isDigits (Decimal.isDigits_iff.2 ⟨nonempty, digits⟩)] at notNumeral
      cases notNumeral

/-- What the tokens of a text leave on the stack is legible. -/
theorem legible_of_run {s : String} {code : List Instr}
    (reads : Program.ReadsTo [] (tokens s) code) {out : Stack}
    (hrun : Stack.run .ok [] code = .ok out) : ∀ e ∈ out, Legible e :=
  fun _ he _ hleaf => legibleLeaf_of_isLeafOf (reads.isLeafOf_of_run hrun he hleaf)

theorem legible_of_parse {s : String} {e : Expr} (h : parse s = .ok e) : Legible e := by
  obtain ⟨hrun, herror⟩ := Program.eval_eq_ok.1 h
  exact legible_of_run (Program.readsTo_of_error herror) hrun e (List.mem_singleton_self e)

/-! ## Passes -/

/-- A pass keeps an expression legible: the leaves that it does not make are leaves that it finds,
and those that it makes have no text. -/
theorem legible_of_pass {e e' : Expr} (h : pass e = .ok e') (legible : Legible e) : Legible e' := by
  obtain ⟨_, passed, stems⟩ := exists_pass_leaves (wellFormed_of_pass h)
  cases h.symm.trans passed
  intro leaf hleaf
  rcases stems leaf hleaf with found | ⟨n, rfl⟩
  · exact legible leaf found
  · exact Numeral.faithful_ofInt n

theorem legible_of_passTimes {e e' : Expr} {n : Nat} (h : e.passTimes n = .ok e')
    (legible : Legible e) : Legible e' := by
  induction n generalizing e with
  | zero =>
    cases h
    exact legible
  | succ n ih =>
    obtain ⟨next, passed, rest⟩ := ok_of_bind h
    exact ih rest (legible_of_pass passed legible)

end Expr

end ArithTree
