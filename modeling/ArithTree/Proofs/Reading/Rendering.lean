import ArithTree.Proofs.Reading.Simulation
import ArithTree.Proofs.Reading.Words

/-!
# Reading what was rendered

A tree of binary operators is rendered as words in many ways: `Rendering` allows parentheses around
any subtree, and asks for them only where precedence and grouping do. Every rendering is read back
as the tree that it is a rendering of.

What is held while a rendering is read is a spine of operators whose right operands are not complete
yet. The invariant (`ofTokensFrom_rendering`) is that the code so far, followed by the operators of
the spine, is the code of the tree, and that all of the spine is released by any operator that may
follow.
-/

namespace ArithTree

/-! ## Precedence and grouping -/

namespace Op

/-- Powers bind their operands more tightly than products and quotients, and these more tightly than
sums and differences. -/
def Tighter : Op → Op → Prop
  | .pow, .mul | .pow, .div | .pow, .add | .pow, .sub => True
  | .mul, .add | .mul, .sub | .div, .add | .div, .sub => True
  | _, _ => False

/-- Sums and differences bind alike, and so do products and quotients. -/
def Alike : Op → Op → Prop
  | .add, .add | .add, .sub | .sub, .add | .sub, .sub => True
  | .mul, .mul | .mul, .div | .div, .mul | .div, .div => True
  | .pow, .pow => True
  | _, _ => False

/-- An application of `inner` needs no parentheses as the left operand of `outer`. -/
def BareLeft (outer inner : Op) : Prop := inner.Tighter outer ∨ inner.Alike outer ∧ outer ≠ .pow

/-- An application of `inner` needs no parentheses as the right operand of `outer`. -/
def BareRight (outer inner : Op) : Prop := inner.Tighter outer ∨ inner.Alike outer ∧ outer = .pow

theorem tighter_iff {a b : Op} : a.Tighter b ↔ b.precedence < a.precedence := by
  cases a <;> cases b <;> simp [Tighter, precedence]

theorem alike_iff {a b : Op} : a.Alike b ↔ a.precedence = b.precedence := by
  cases a <;> cases b <;> simp [Alike, precedence]

theorem bindsBefore_iff {earlier later : Op} :
    earlier.bindsBefore later = true ↔
      later.precedence < earlier.precedence ∨
        earlier.precedence = later.precedence ∧ later ≠ .pow := by
  cases later <;> simp [bindsBefore, side]

/-- Only a power binds as tightly as a power. -/
theorem eq_pow_of_precedence_le {o : Op} (h : Op.pow.precedence ≤ o.precedence) : o = .pow := by
  cases o <;> simp [precedence] at h ⊢

theorem precedence_le_of_tighter_or_alike {outer inner : Op}
    (h : inner.Tighter outer ∨ inner.Alike outer) : outer.precedence ≤ inner.precedence := by
  rcases h with tighter | alike
  · exact Nat.le_of_lt (tighter_iff.mp tighter)
  · exact Nat.le_of_eq (alike_iff.mp alike).symm

theorem precedence_le_of_bareLeft {outer inner : Op} (h : BareLeft outer inner) :
    outer.precedence ≤ inner.precedence :=
  precedence_le_of_tighter_or_alike (h.imp_right And.left)

theorem precedence_le_of_bareRight {outer inner : Op} (h : BareRight outer inner) :
    outer.precedence ≤ inner.precedence :=
  precedence_le_of_tighter_or_alike (h.imp_right And.left)

theorem bindsBefore_of_bareLeft {outer inner : Op} (h : BareLeft outer inner) {o : Op}
    (ho : inner.precedence ≤ o.precedence) : o.bindsBefore outer = true := by
  rw [bindsBefore_iff]
  rcases h with tighter | ⟨alike, hpow⟩
  · exact .inl (Nat.lt_of_lt_of_le (tighter_iff.mp tighter) ho)
  · rw [alike_iff.mp alike] at ho
    rcases Nat.lt_or_eq_of_le ho with higher | same
    · exact .inl higher
    · exact .inr ⟨same.symm, hpow⟩

theorem not_bindsBefore_of_bareRight {outer inner : Op} (h : BareRight outer inner) {o : Op}
    (ho : inner.precedence ≤ o.precedence) : outer.bindsBefore o = false := by
  rw [← Bool.not_eq_true, bindsBefore_iff]
  rcases h with tighter | ⟨alike, rfl⟩
  · have := tighter_iff.mp tighter
    omega
  · rw [alike_iff.mp alike] at ho
    rw [eq_pow_of_precedence_le ho]
    simp

end Op

/-! ## Renderings -/

/-- A word that an integer is spelled with: an optional minus sign and at most `maxDigits`
digits. -/
inductive Spells : Int → List Char → Prop where
  | plain {ds : List Char} (digits : ds ≠ [] ∧ ∀ c ∈ ds, c.isDigit = true)
      (length : ds.length ≤ maxDigits) : Spells (Decimal.value ds) ds
  | signed {ds : List Char} (digits : ds ≠ [] ∧ ∀ c ∈ ds, c.isDigit = true)
      (length : ds.length ≤ maxDigits) : Spells (-(Decimal.value ds : Int)) ('-' :: ds)

/-- A numeral and a word that it is read from. The numeral keeps the word unless that is the
canonical one. -/
structure Spelling (n : Numeral) (word : List Char) : Prop where
  spells : Spells n.value word
  text : n.text = if word = Decimal.digits n.value then none else some (String.ofList word)

/-- The name of a variable: letters and digits, and not digits alone. -/
structure IsVariable (name : List Char) : Prop where
  nonempty : name ≠ []
  characters : ∀ c ∈ name, c.isAlphanum = true
  notNumeral : ¬ ∀ c ∈ name, c.isDigit = true

/-- A tree of binary operators over numerals and variables that can be read. -/
inductive Readable : Expr → Prop where
  | num {n : Numeral} {word : List Char} (spelling : Spelling n word) : Readable (.num n)
  | var {x : String} (isVariable : IsVariable x.toList) : Readable (.var x)
  | application (op : Op) {left right : Expr} (hleft : Readable left) (hright : Readable right) :
    Readable (.node op [left, right])

/-- `Rendering bare t ws` says that the words `ws` render the tree `t`. If the words are an
application that is not in parentheses, `bare` is its operator. -/
inductive Rendering : (bare : Option Op) → Expr → List (List Char) → Prop where
  | num {n : Numeral} {word : List Char} (spelling : Spelling n word) :
    Rendering none (.num n) [word]
  | var {x : String} (isVariable : IsVariable x.toList) : Rendering none (.var x) [x.toList]
  | parentheses {bare : Option Op} {t : Expr} {ws : List (List Char)} (h : Rendering bare t ws) :
    Rendering none t (['('] :: ws ++ [[')']])
  | application {op : Op} {left right : Expr} {bareLeft bareRight : Option Op}
      {ws vs : List (List Char)} (hleft : Rendering bareLeft left ws)
      (hright : Rendering bareRight right vs) (allowedLeft : ∀ o ∈ bareLeft, op.BareLeft o)
      (allowedRight : ∀ o ∈ bareRight, op.BareRight o) :
    Rendering (some op) (.node op [left, right]) (ws ++ [op.symbol] :: vs)

/-- Every such tree can be rendered, for instance with all of its parentheses. -/
theorem Readable.exists_rendering {t : Expr} (h : Readable t) : ∃ ws, Rendering none t ws := by
  induction h with
  | num spelling => exact ⟨_, .num spelling⟩
  | var isVariable => exact ⟨_, .var isVariable⟩
  | application op _ _ ihl ihr =>
    obtain ⟨ws, hleft⟩ := ihl
    obtain ⟨vs, hright⟩ := ihr
    have bare : Rendering (some op) _ _ := .application hleft hright (by simp) (by simp)
    exact ⟨_, bare.parentheses⟩

/-! ## Words of renderings -/

theorem isWord_digits {ds : List Char} (h : ds ≠ [] ∧ ∀ c ∈ ds, c.isDigit = true) : IsWord ds := by
  refine ⟨h.1, fun c hc => isBlank_of_isAlphanum ?_⟩
  simp [Char.isAlphanum, h.2 c hc]

theorem Spells.isWord {n : Int} {word : List Char} (h : Spells n word) : IsWord word := by
  cases h with
  | plain digits => exact isWord_digits digits
  | signed digits =>
    refine ⟨by simp, ?_⟩
    rw [List.forall_mem_cons]
    exact ⟨by decide, (isWord_digits digits).2⟩

theorem Rendering.isWord {bare : Option Op} {t : Expr} {ws : List (List Char)}
    (h : Rendering bare t ws) : ∀ w ∈ ws, IsWord w := by
  induction h with
  | num spelling =>
    rw [List.forall_mem_singleton]
    exact spelling.spells.isWord
  | var isVariable =>
    rw [List.forall_mem_singleton]
    exact ⟨isVariable.nonempty, fun c hc => isBlank_of_isAlphanum (isVariable.characters c hc)⟩
  | parentheses _ ih =>
    simp only [List.cons_append, List.forall_mem_cons, List.forall_mem_append]
    exact ⟨isWord_singleton (by decide), ih, isWord_singleton (by decide), by simp⟩
  | @application op _ _ _ _ _ _ _ _ _ _ ihl ihr =>
    rw [List.forall_mem_append, List.forall_mem_cons]
    exact ⟨ihl, isWord_singleton (by cases op <;> decide), ihr⟩

/-! ## Tokens of words -/

/-- The words that an integer is spelled with are those that it is read from. -/
theorem spells_iff {n : Int} {word : List Char} :
    Spells n word ↔
      Decimal.read? word = some n ∧ (Decimal.unsigned word).length ≤ maxDigits := by
  constructor
  · intro h
    cases h with
    | plain digits length =>
      have digits := Decimal.isDigits_iff.2 digits
      exact ⟨Decimal.read?_of_isDigits digits, by rwa [Decimal.unsigned_of_isDigits digits]⟩
    | signed digits length =>
      exact ⟨Decimal.read?_minus_cons (Decimal.isDigits_iff.2 digits), length⟩
  · rintro ⟨read, short⟩
    unfold Decimal.read? at read
    split at read
    · split at read
      · next digits =>
        cases read
        exact .signed (Decimal.isDigits_iff.1 digits) short
      · cases read
    · split at read
      · next digits =>
        cases read
        rw [Decimal.unsigned_of_isDigits digits] at short
        exact .plain (Decimal.isDigits_iff.1 digits) short
      · cases read

/-- The name of a variable is no numeral. -/
theorem IsVariable.read?_eq_none {name : List Char} (h : IsVariable name) :
    Decimal.read? name = none := by
  unfold Decimal.read?
  split
  · next ds =>
    have minus := h.characters '-' List.mem_cons_self
    exact absurd minus (by decide)
  · rw [if_neg]
    intro digits
    exact h.notNumeral (Decimal.isDigits_iff.1 digits).2

namespace Token

theorem ofWord_of_spells {n : Int} {word : List Char} (h : Spells n word) :
    ofWord word = .num (.ofWord word n) := by
  obtain ⟨read, short⟩ := spells_iff.1 h
  rw [ofWord, read]
  show (if (Decimal.unsigned word).length ≤ maxDigits then _ else _) = _
  rw [if_pos short]

theorem ofWord_variable {x : String} (h : IsVariable x.toList) : ofWord x.toList = .var x := by
  have name : isName x.toList = true := isName_iff.2 ⟨h.nonempty, h.characters⟩
  rw [ofWord, h.read?_eq_none]
  show (if isName x.toList then _ else _) = _
  rw [if_pos name, String.ofList_toList]

theorem ofWord_opening : ofWord ['('] = .opening := rfl

theorem ofWord_closing : ofWord [')'] = .closing := rfl

theorem ofWord_symbol (op : Op) : ofWord [op.symbol] = .op op := by
  cases op <;> rfl

end Token

/-! ## Code -/

/-- The stack code of a tree of binary operators: that of its operands, then the operator. -/
def Expr.code : Expr → List Instr
  | .node op [left, right] => left.code ++ right.code ++ [.apply op]
  | e => [.push e]

namespace Program

/-- Nothing is released by operators that bind as tightly as `bare` or more so. -/
def Keeps (held : List Held) (bare : Option Op) : Prop :=
  ∀ root ∈ bare, ∀ o : Op, root.precedence ≤ o.precedence → release o held = ([], held)

/-- What reading a rendering does, whatever is held and whatever follows: it leaves a spine of
operators that bind as tightly as the tree's bare operator, and the code that it makes is that of
the tree once the spine is released. -/
theorem ofTokensFrom_rendering {bare : Option Op} {t : Expr} {ws : List (List Char)}
    (h : Rendering bare t ws) {held : List Held} (keeps : Keeps held bare) (rest : List Token) :
    ∃ code spine,
      ofTokensFrom held (ws.map Token.ofWord ++ rest) =
        (ofTokensFrom (spine.map .op ++ held) rest).after code ∧
      code ++ applied spine = t.code ∧
      ∀ o ∈ spine, ∃ root ∈ bare, root.precedence ≤ o.precedence := by
  induction h generalizing held rest with
  | @num n word spelling =>
    have token : Token.ofWord word = .num n := by
      rw [Token.ofWord_of_spells spelling.spells, Numeral.ofWord, ← spelling.text]
    refine ⟨[.push (.num n)], [], ?_, rfl, by simp⟩
    rw [List.map_singleton, token]
    rfl
  | @var x isVariable =>
    refine ⟨[.push (.var x)], [], ?_, rfl, by simp⟩
    rw [List.map_singleton, Token.ofWord_variable isVariable]
    rfl
  | @parentheses bare t ws _ ih =>
    -- An opening parenthesis keeps all that was held before it.
    have keeps' : Keeps (.opening :: held) bare := fun _ _ _ _ => rfl
    obtain ⟨code, spine, read, complete, _⟩ := ih keeps' (.closing :: rest)
    refine ⟨code ++ applied spine, [], ?_, by simpa [applied] using complete, by simp⟩
    have tokens : (['('] :: ws ++ [[')']]).map Token.ofWord ++ rest =
        .opening :: (ws.map Token.ofWord ++ .closing :: rest) := by
      simp [Token.ofWord_opening, Token.ofWord_closing]
    rw [tokens, ofTokensFrom, read, ofTokensFrom, close_spine, after_after]
    rfl
  | @application op left right bareLeft bareRight ws vs hleft hright allowedLeft allowedRight ihl
      ihr =>
    have keepsLeft : Keeps held bareLeft := by
      intro root hroot o ho
      exact keeps op rfl o (Nat.le_trans (Op.precedence_le_of_bareLeft (allowedLeft root hroot)) ho)
    have keepsRight : Keeps (.op op :: held) bareRight := by
      intro root hroot o ho
      rw [release, Op.not_bindsBefore_of_bareRight (allowedRight root hroot) ho]
      rfl
    -- The left operand leaves a spine, which the operator releases: the left operand is complete.
    -- Then the operator is held, and the right operand does not release it.
    obtain ⟨codeLeft, spineLeft, readLeft, completeLeft, tightLeft⟩ :=
      ihl keepsLeft (.op op :: (vs.map Token.ofWord ++ rest))
    obtain ⟨codeRight, spineRight, readRight, completeRight, tightRight⟩ := ihr keepsRight rest
    have released : release op (spineLeft.map .op ++ held) = (applied spineLeft, held) := by
      refine release_spine ?_ (keeps op rfl op (Nat.le_refl _))
      intro o ho
      obtain ⟨root, hroot, tight⟩ := tightLeft o ho
      exact Op.bindsBefore_of_bareLeft (allowedLeft root hroot) tight
    refine ⟨left.code ++ codeRight, spineRight ++ [op], ?_, ?_, ?_⟩
    · have tokens : (ws ++ [op.symbol] :: vs).map Token.ofWord ++ rest =
          ws.map Token.ofWord ++ .op op :: (vs.map Token.ofWord ++ rest) := by
        simp [Token.ofWord_symbol]
      rw [tokens, readLeft, ofTokensFrom, released]
      show ((ofTokensFrom (.op op :: held) _).after (applied spineLeft)).after codeLeft = _
      rw [readRight, after_after, after_after, ← completeLeft]
      simp
    · rw [Expr.code, ← completeRight]
      simp [applied]
    · intro o ho
      refine ⟨op, rfl, ?_⟩
      rcases List.mem_append.1 ho with ho | ho
      · obtain ⟨root, hroot, tight⟩ := tightRight o ho
        exact Nat.le_trans (Op.precedence_le_of_bareRight (allowedRight root hroot)) tight
      · have same : o = op := List.mem_singleton.1 ho
        exact same ▸ Nat.le_refl _

end Program

/-! ## Reading -/

theorem Stack.run_code {bare : Option Op} {t : Expr} {ws : List (List Char)}
    (h : Rendering bare t ws) (stack : Stack) : Stack.run .ok stack t.code = .ok (t :: stack) := by
  induction h generalizing stack with
  | num | var => rfl
  | parentheses _ ih => exact ih stack
  | application _ _ _ _ ihl ihr =>
    rw [Expr.code, Stack.run_append, Stack.run_append, ihl]
    show ((Stack.run .ok _ _).bind _) = _
    rw [ihr]
    rfl

/-- A text with any blanks between the words of a rendering is read as the tree that was
rendered. -/
theorem Expr.parse_of_rendering {bare : Option Op} {t : Expr} {ws : List (List Char)}
    (h : Rendering bare t ws) {s : String} (spaced : Spaced ws s.toList) : parse s = .ok t := by
  have nothing : Program.Keeps [] bare := fun _ _ _ _ => rfl
  obtain ⟨code, spine, read, complete, _⟩ := Program.ofTokensFrom_rendering h nothing []
  have program : Program.ofTokens (tokens s) = ⟨t.code, none⟩ := by
    rw [List.append_nil, List.append_nil, Program.ofTokensFrom, Program.finish_spine] at read
    rw [tokens, words_of_spaced spaced]
    show Program.ofTokensFrom [] _ = _
    rw [read, ← complete]
    rfl
  show (Program.ofTokens (tokens s)).eval .ok = _
  rw [program, Program.eval_eq_ok]
  exact ⟨Stack.run_code h [], rfl⟩

/-- Every readable tree has renderings, and each of them is read back as the tree. -/
theorem Expr.parse_renderings {t : Expr} (readable : Readable t) :
    (∃ ws, Rendering none t ws) ∧
      ∀ (bare : Option Op) (ws : List (List Char)) (s : String),
        Rendering bare t ws → Spaced ws s.toList → parse s = .ok t := by
  refine ⟨readable.exists_rendering, ?_⟩
  intro bare ws s h spaced
  exact parse_of_rendering h spaced

theorem Expr.parse_renderings_of_difference :
    let t := node .sub [node .pow [node .pow [.var "a", .num ⟨7, some "007"⟩], ofInt (-2)],
      node .mul [.var "b", ofInt 3]]
    Readable t ∧ parse " ( a ^ 007 ) ^ -2 - b  * ( ( 3 ) )" = .ok t := by
  intro t
  have a : IsVariable "a".toList := ⟨by decide, by simp, by simp⟩
  have b : IsVariable "b".toList := ⟨by decide, by simp, by simp⟩
  have seven : Spelling ⟨7, some "007"⟩ "007".toList :=
    ⟨@Spells.plain "007".toList ⟨by decide, by simp⟩ (by decide), by decide⟩
  have two : Spelling ⟨-2, none⟩ "-2".toList :=
    ⟨@Spells.signed "2".toList ⟨by decide, by simp⟩ (by decide), by decide⟩
  have three : Spelling ⟨3, none⟩ "3".toList :=
    ⟨@Spells.plain "3".toList ⟨by decide, by simp⟩ (by decide), by decide⟩
  have readable : Readable t :=
    .application _ (.application _ (.application _ (.var a) (.num seven)) (.num two))
      (.application _ (.var b) (.num three))
  have power : Rendering (some .pow) _ _ := .application (.var a) (.num seven) (by simp) (by simp)
  have left : Rendering (some .pow) _ _ :=
    .application power.parentheses (.num two) (by simp) (by simp)
  have right : Rendering (some .mul) _ _ :=
    .application (.var b) (Rendering.num three).parentheses.parentheses (by simp) (by simp)
  have rendering : Rendering (some .sub) t _ := .application left right
    (by simp [Op.BareLeft, Op.Tighter]) (by simp [Op.BareRight, Op.Tighter])
  refine ⟨readable, (parse_renderings readable).2 _ _ _ rendering (words_eq_iff.1 ?_)⟩
  decide +kernel

end ArithTree
