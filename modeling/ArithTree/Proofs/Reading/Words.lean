import ArithTree.Token

/-!
# Texts and their words

A text determines its words, but words can be written as a text in many ways: any blanks may stand
before, between and after them, as long as there is one between two words. `Spaced ws cs` says that
`cs` is such a text for the words `ws`. It is the converse of splitting a text (`words_eq_iff`).

Every word stands for one token; `Token.StandsFor` has a case for each kind of word
(`Token.standsFor_ofWord`).
-/

namespace ArithTree

/-- A word has characters, and none of them is a blank. -/
def IsWord (w : List Char) : Prop := w ≠ [] ∧ ∀ c ∈ w, isBlank c = false

theorem isWord_singleton {c : Char} (h : isBlank c = false) : IsWord [c] :=
  ⟨by simp, by simpa using h⟩

/-- A text that consists of the given words, with blanks between them. -/
inductive Spaced : List (List Char) → List Char → Prop where
  | nil : Spaced [] []
  | blank {ws : List (List Char)} {c : Char} {cs : List Char} (hc : isBlank c = true)
      (rest : Spaced ws cs) : Spaced ws (c :: cs)
  | last {w : List Char} (hw : IsWord w) : Spaced [w] w
  | word {w : List Char} {ws : List (List Char)} {c : Char} {cs : List Char} (hw : IsWord w)
      (hc : isBlank c = true) (rest : Spaced ws cs) : Spaced (w :: ws) (w ++ c :: cs)

/-- A word ends where a blank follows or the text does. -/
theorem words_append {w : List Char} (hw : IsWord w) {rest : List Char}
    (hrest : rest.head?.all isBlank = true) : words (w ++ rest) = w :: words rest := by
  obtain ⟨nonempty, unblank⟩ := hw
  induction w with
  | nil => exact absurd rfl nonempty
  | cons c w ih =>
    rw [List.forall_mem_cons] at unblank
    cases w with
    | nil =>
      -- The last character of the word: what follows is a blank or nothing.
      show words (c :: rest) = _
      rw [words, unblank.1, hrest]
      rfl
    | cons d w =>
      have hd : isBlank d = false := unblank.2 d List.mem_cons_self
      have inner : words (d :: w ++ rest) = (d :: w) :: words rest := ih (by simp) unblank.2
      show words (c :: (d :: w ++ rest)) = _
      rw [words, unblank.1, inner]
      simp [hd]

theorem words_of_spaced {ws : List (List Char)} {cs : List Char} (h : Spaced ws cs) :
    words cs = ws := by
  induction h with
  | nil => rfl
  | blank hc _ ih => rw [words_cons_blank hc, ih]
  | @last w hw =>
    have : words (w ++ []) = w :: words [] := words_append hw rfl
    simpa [words] using this
  | word hw hc _ ih =>
    rw [words_append hw (by simpa using hc), words_cons_blank hc, ih]

/-- A character that is no blank becomes part of the first word, or is one by itself. -/
theorem spaced_cons {c : Char} (hc : isBlank c = false) {ws : List (List Char)} {cs : List Char}
    (h : Spaced ws cs) :
    Spaced (if cs.head?.all isBlank then [c] :: ws else ws.modifyHead (c :: ·)) (c :: cs) := by
  have longer {w : List Char} (hw : IsWord w) : IsWord (c :: w) :=
    ⟨by simp, List.forall_mem_cons.2 ⟨hc, hw.2⟩⟩
  have first {w : List Char} (hw : IsWord w) (rest : List Char) :
      ((w ++ rest).head?.all isBlank) = false := by
    cases w with
    | nil => exact absurd rfl hw.1
    | cons d w => exact hw.2 d List.mem_cons_self
  cases h with
  | nil => exact .last (isWord_singleton hc)
  | @blank ws d cs hd rest =>
    have next : (d :: cs).head?.all isBlank = true := hd
    rw [if_pos next]
    exact .word (w := [c]) (isWord_singleton hc) hd rest
  | last hw =>
    have next := first hw []
    rw [List.append_nil] at next
    rw [next]
    exact .last (longer hw)
  | word hw hd rest =>
    rw [first hw _]
    exact .word (longer hw) hd rest

theorem spaced_words (cs : List Char) : Spaced (words cs) cs := by
  induction cs with
  | nil => exact .nil
  | cons c cs ih =>
    by_cases hc : isBlank c = true
    · rw [words_cons_blank hc]
      exact .blank hc ih
    · have := spaced_cons (by simpa using hc) ih
      rw [words, if_neg hc]
      exact this

/-- The words of a text are those that it consists of. -/
theorem words_eq_iff {ws : List (List Char)} {cs : List Char} :
    words cs = ws ↔ Spaced ws cs := by
  constructor
  · rintro rfl
    exact spaced_words cs
  · exact words_of_spaced

/-- The text of words with one blank between them. -/
def unwords : List (List Char) → List Char
  | [] => []
  | [w] => w
  | w :: v :: ws => w ++ ' ' :: unwords (v :: ws)

theorem spaced_unwords {ws : List (List Char)} (h : ∀ w ∈ ws, IsWord w) :
    Spaced ws (unwords ws) := by
  induction ws with
  | nil => exact .nil
  | cons w ws ih =>
    rw [List.forall_mem_cons] at h
    cases ws with
    | nil => exact .last h.1
    | cons v ws => exact .word h.1 rfl (ih h.2)

/-! ## Characters of words -/

theorem isBlank_of_isAlphanum {c : Char} (h : c.isAlphanum = true) : isBlank c = false := by
  have range : 48 ≤ c.toNat ∧ c.toNat ≤ 57 ∨ 65 ≤ c.toNat ∧ c.toNat ≤ 90 ∨
      97 ≤ c.toNat ∧ c.toNat ≤ 122 := by
    unfold Char.isAlphanum Char.isAlpha Char.isUpper Char.isLower Char.isDigit at h
    simp only [Bool.or_eq_true, Bool.and_eq_true, decide_eq_true_eq, UInt32.le_iff_toNat_le] at h
    unfold Char.toNat
    grind
  simp only [isBlank, blankRanges, List.any_cons, List.any_nil, Bool.or_false, Bool.or_eq_false_iff,
    Bool.and_eq_false_iff, decide_eq_false_iff_not]
  omega

/-! ## Tokens of words -/

theorem Decimal.isSome_read? (w : List Char) :
    (Decimal.read? w).isSome = Decimal.isDigits (Decimal.unsigned w) := by
  unfold Decimal.read? Decimal.unsigned
  split <;> split <;> simp_all

/-- The operator that a word is the symbol of. -/
def operatorOfWord? : List Char → Option Op
  | [c] => Op.ofSymbol? c
  | _ => none

theorem operatorOfWord?_eq_some {w : List Char} {o : Op} :
    operatorOfWord? w = some o ↔ w = [o.symbol] := by
  constructor
  · intro h
    unfold operatorOfWord? at h
    split at h
    · rw [Op.symbol_of_ofSymbol? h]
    · cases h
  · rintro rfl
    exact Op.ofSymbol?_symbol o

namespace Token

/-- A word and the token that it stands for. -/
inductive StandsFor : List Char → Token → Prop where
  | num {w : List Char} {n : Int} (read : Decimal.read? w = some n)
      (short : (Decimal.unsigned w).length ≤ maxDigits) : StandsFor w (.num (.ofWord w n))
  | tooLong {w : List Char} {n : Int} (read : Decimal.read? w = some n)
      (long : maxDigits < (Decimal.unsigned w).length) : StandsFor w (.tooLong (String.ofList w))
  | var {w : List Char} (notNumeral : Decimal.read? w = none) (name : isName w = true) :
    StandsFor w (.var (String.ofList w))
  | opening : StandsFor ['('] .opening
  | closing : StandsFor [')'] .closing
  | op (o : Op) : StandsFor [o.symbol] (.op o)
  | unknown {w : List Char} (notNumeral : Decimal.read? w = none) (noName : isName w = false)
      (noOperator : operatorOfWord? w = none) (notOpening : w ≠ ['(']) (notClosing : w ≠ [')']) :
    StandsFor w (.unknown (String.ofList w))

theorem standsFor_ofWord (w : List Char) : StandsFor w (ofWord w) := by
  unfold ofWord
  split
  · next n read =>
    split
    · next short => exact .num read short
    · next long => exact .tooLong read (Nat.lt_of_not_le long)
  · next read =>
    split
    · next name => exact .var read name
    · next noName =>
      replace noName : isName w = false := by simpa using noName
      unfold ofSymbol
      split
      · exact .opening
      · exact .closing
      · next c notOpening notClosing =>
        split
        · next o symbol => exact Op.symbol_of_ofSymbol? symbol ▸ .op o
        · next noSymbol =>
          exact .unknown read noName noSymbol (by simpa using notOpening) (by simpa using notClosing)
      · next notOpening notClosing notOne =>
        have noOperator : operatorOfWord? w = none := by
          unfold operatorOfWord?
          split
          · next c => exact absurd rfl (notOne c)
          · rfl
        exact .unknown read noName noOperator notOpening notClosing

theorem standsFor_of_ofWord_eq {w : List Char} {t : Token} (h : ofWord w = t) : StandsFor w t :=
  h ▸ standsFor_ofWord w

end Token

end ArithTree
