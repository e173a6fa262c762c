import ArithTree.Proofs.Reading.Rendering
import ArithTree.Proofs.Reading.Written
import Mathlib.Data.List.TakeWhile

/-!
# Scanning loses nothing

A text is scanned for its tokens, up to the first word that is a numeral of too many digits
(`IsOverlong`). This is the only kind of word that ends it; one that no expression contains is a
token like any other. Every token that was scanned is printed as its word (`Token.print?_ofWord`),
so the text can be put together again, up to its blanks, and scanned once more.

Reading an expression is reading what was scanned (`parseWith_eq_scan`).

Main statement: `scan_is_lossless`.
-/

namespace ArithTree

/-! ## Numerals that are too long -/

/-- A numeral that is too long to be read: an optional minus sign and more than `maxDigits` digits,
of which the first ones may be zeros. -/
inductive IsOverlong : List Char → Prop where
  | plain {ds : List Char} (digits : ∀ c ∈ ds, c.isDigit = true) (length : maxDigits < ds.length) :
    IsOverlong ds
  | signed {ds : List Char} (digits : ∀ c ∈ ds, c.isDigit = true) (length : maxDigits < ds.length) :
    IsOverlong ('-' :: ds)

theorem isOverlong_iff {w : List Char} :
    IsOverlong w ↔
      Decimal.isDigits (Decimal.unsigned w) = true ∧ maxDigits < (Decimal.unsigned w).length := by
  have isDigits {ds : List Char} (digits : ∀ c ∈ ds, c.isDigit = true)
      (length : maxDigits < ds.length) : Decimal.isDigits ds = true :=
    Decimal.isDigits_iff.2 ⟨List.ne_nil_of_length_pos (by omega), digits⟩
  constructor
  · intro h
    cases h with
    | plain digits length =>
      rw [Decimal.unsigned_of_isDigits (isDigits digits length)]
      exact ⟨isDigits digits length, length⟩
    | signed digits length => exact ⟨isDigits digits length, length⟩
  · rintro ⟨digits, length⟩
    rcases Decimal.eq_minus_or_unsigned w with signed | unsigned
    · rw [signed]
      exact .signed (Decimal.isDigits_iff.1 digits).2 length
    · rw [unsigned] at digits length
      exact .plain (Decimal.isDigits_iff.1 digits).2 length

theorem IsOverlong.isWord {w : List Char} (h : IsOverlong w) : IsWord w := by
  cases h with
  | plain digits length =>
    exact isWord_digits ⟨List.ne_nil_of_length_pos (by omega), digits⟩
  | signed digits length =>
    have rest := isWord_digits ⟨List.ne_nil_of_length_pos (by omega), digits⟩
    exact ⟨List.cons_ne_nil _ _, List.forall_mem_cons.2 ⟨rfl, rest.2⟩⟩

instance : DecidablePred IsOverlong := fun _ => decidable_of_iff _ isOverlong_iff.symm

namespace Token

/-- A word is too long if and only if its token is. -/
theorem tooLong?_eq_some {w : List Char} {word : String} :
    (ofWord w).tooLong? = some word ↔ IsOverlong w ∧ word = String.ofList w := by
  rw [isOverlong_iff, ← Decimal.isSome_read?]
  have stands := standsFor_ofWord w
  generalize ofWord w = t at stands
  cases stands with
  | num read short => simp [tooLong?, Nat.not_lt.2 short]
  | tooLong read long => simp [tooLong?, read, long, eq_comm]
  | var notNumeral | unknown notNumeral => simp [tooLong?, notNumeral]
  | opening | closing => simp [tooLong?, Decimal.read?, Decimal.isDigits]
  | op o => cases o <;> simp [tooLong?, Op.symbol, Decimal.read?, Decimal.isDigits]

theorem ofWord_of_isOverlong {w : List Char} (h : IsOverlong w) :
    ofWord w = .tooLong (String.ofList w) := by
  have long := tooLong?_eq_some.2 ⟨h, rfl⟩
  generalize ofWord w = t at long
  cases t with
  | tooLong word => exact congrArg tooLong (Option.some.inj long)
  | _ => cases long

theorem tooLong?_eq_none {w : List Char} : (ofWord w).tooLong? = none ↔ ¬ IsOverlong w := by
  rw [Option.eq_none_iff_forall_ne_some]
  simp [tooLong?_eq_some]

/-! ## Tokens for words -/

/-- A word and a token for it. The token is printed as the word, and it is a numeral if and only if
the word spells an integer. Then it has that integer for its value, and a text unless the word is
how the integer is written. -/
structure Denotes (w : List Char) (t : Token) : Prop where
  printed : t.print? = some (String.ofList w)
  numeral : (∃ n, t = .num n) ↔ ∃ value, Spells value w
  value : ∀ n, t = .num n → Spells n.value w
  text : ∀ n, t = .num n → (n.text = none ↔ w = Decimal.digits n.value)

theorem denotes_ofWord {w : List Char} (hw : w ≠ []) : Denotes w (ofWord w) where
  printed := print?_ofWord hw
  numeral := by
    constructor
    · rintro ⟨n, token⟩
      cases standsFor_of_ofWord_eq token with
      | num read short => exact ⟨_, spells_iff.2 ⟨read, short⟩⟩
    · rintro ⟨value, spells⟩
      exact ⟨_, ofWord_of_spells spells⟩
  value n token := by
    cases standsFor_of_ofWord_eq token with
    | num read short => exact spells_iff.2 ⟨read, short⟩
  text n token := by
    cases standsFor_of_ofWord_eq token with
    | num read short => exact Numeral.text_ofWord_eq_none_iff

end Token

/-! ## Scanning -/

/-- What scanning gives depends on the words of a text alone. -/
theorem scan_congr {s t : String} (same : words t.toList = words s.toList) : scan t = scan s := by
  rw [scan, scan, tokens, tokens, same]

/-- Without a numeral that is too long, there is a token for every word. -/
theorem scan_of_forall {s : String} (h : ∀ w ∈ words s.toList, ¬ IsOverlong w) :
    scan s = ⟨tokens s, none⟩ := by
  have none : ∀ t ∈ tokens s, t.tooLong? = none := by
    intro t ht
    obtain ⟨w, hw, rfl⟩ := List.mem_map.1 ht
    exact Token.tooLong?_eq_none.2 (h w hw)
  rw [scan, List.findSome?_eq_none_iff.2 none]
  congr 1
  apply List.takeWhile_eq_self_iff.2
  intro t ht
  rw [none t ht]
  rfl

/-- Scanning ends with the first numeral that is too long. -/
theorem scan_of_first {s : String} {before after : List (List Char)} {w : List Char}
    (split : words s.toList = before ++ w :: after) (fit : ∀ v ∈ before, ¬ IsOverlong v)
    (overlong : IsOverlong w) :
    scan s = ⟨before.map Token.ofWord, some (String.ofList w)⟩ := by
  have none : ∀ t ∈ before.map Token.ofWord, t.tooLong? = none := by
    simp only [List.forall_mem_map]
    intro v hv
    exact Token.tooLong?_eq_none.2 (fit v hv)
  have passed : ∀ t ∈ before.map Token.ofWord, t.tooLong?.isNone = true := by
    intro t ht
    rw [none t ht]
    rfl
  rw [scan, tokens, split, List.map_append, List.map_cons, Token.ofWord_of_isOverlong overlong,
    List.takeWhile_append_of_pos passed, List.takeWhile_cons_of_neg (by simp [Token.tooLong?]),
    List.append_nil, List.findSome?_append, List.findSome?_eq_none_iff.2 none]
  rfl

theorem tooLong_scan_eq_none_iff {s : String} :
    (scan s).tooLong = none ↔ ∀ w ∈ words s.toList, ¬ IsOverlong w := by
  show (tokens s).findSome? Token.tooLong? = none ↔ _
  simp only [List.findSome?_eq_none_iff, tokens, List.forall_mem_map, Token.tooLong?_eq_none]

/-- Scanning a text ends in one of these ways. -/
theorem scan_cases (s : String) :
    scan s = ⟨tokens s, none⟩ ∨
      ∃ before w after, words s.toList = before ++ w :: after ∧ IsOverlong w ∧
        scan s = ⟨before.map Token.ofWord, some (String.ofList w)⟩ := by
  cases found : (words s.toList).find? fun w => decide (IsOverlong w) with
  | none =>
    have fit : ∀ w ∈ words s.toList, ¬ IsOverlong w := by simpa using found
    exact .inl (scan_of_forall fit)
  | some w =>
    obtain ⟨overlong, before, after, split, fit⟩ := List.find?_eq_some_iff_append.1 found
    replace overlong : IsOverlong w := by simpa using overlong
    exact .inr ⟨before, w, after, split, overlong, scan_of_first split (by simpa using fit) overlong⟩

/-- The error that scanning ends with, if it does not reach the end of the text. -/
def Scan.error? (r : Scan) : Option ParseError := r.tooLong.map .unexpected

/-! ## Reading what was scanned -/

/-- No token behind a numeral that is too long is ever looked at. -/
theorem Program.ofTokensFrom_tooLong (held : List Held) (ts us : List Token) (word : String) :
    ofTokensFrom held (ts ++ .tooLong word :: us) = ofTokensFrom held (ts ++ [.tooLong word]) := by
  fun_induction ofTokensFrom held ts with
  | case1 => rfl
  | case2 held n ts ih => exact congrArg (after _) ih
  | case3 held x ts ih => exact congrArg (after _) ih
  | case4 held o ts code rest released ih =>
    simp only [List.cons_append, ofTokensFrom, released, ih]
  | case5 held ts ih => exact ih
  | case6 held ts code rest closed ih =>
    simp only [List.cons_append, ofTokensFrom, closed, ih]
  | case7 held ts code closed =>
    simp only [List.cons_append, ofTokensFrom, closed]
  | case8 | case9 => rfl

/-- Reading a text is reading what was scanned of it, and the numeral that is too long if scanning
ended with one. -/
theorem parseWith_eq_scan (adjust : Expr → Except Fault Expr) (s : String) :
    Expr.parseWith adjust s =
      parseTokens adjust ((scan s).tokens ++ (scan s).tooLong.toList.map .tooLong) := by
  rcases scan_cases s with complete | ⟨before, w, after, split, overlong, stopped⟩
  · rw [complete]
    show _ = parseTokens adjust (tokens s ++ [])
    rw [List.append_nil, Expr.parseWith]
  · have program : Program.ofTokens (tokens s) =
        Program.ofTokens (before.map Token.ofWord ++ [.tooLong (String.ofList w)]) := by
      rw [tokens, split, List.map_append, List.map_cons, Token.ofWord_of_isOverlong overlong]
      exact Program.ofTokensFrom_tooLong _ _ _ _
    rw [stopped, Expr.parseWith, parseTokens, program]
    rfl

/-- Scanning a text fails on numerals that are too long and on nothing else, and the tokens of all
words before the first one are found. If it does not fail, the tokens are printed as the words of
the text, and any text of these words, with other blanks between them, has the same tokens. Numerals
have the integers that their words spell, and no text if and only if the word is canonical. -/
theorem scan_is_lossless (s : String) :
    ((scan s).error? = none ↔ ∀ w ∈ words s.toList, ¬ IsOverlong w) ∧
      (∀ before w after, words s.toList = before ++ w :: after →
        (∀ v ∈ before, ¬ IsOverlong v) → IsOverlong w →
          (scan s).tokens = before.map Token.ofWord ∧
            (scan s).error? = some (.unexpected (String.ofList w))) ∧
      ((scan s).error? = none →
        (scan s).tokens = (words s.toList).map Token.ofWord ∧
          (scan s).tokens.map Token.print? =
            (words s.toList).map (fun w => some (String.ofList w)) ∧
          ∀ t : String, Spaced (words s.toList) t.toList → scan t = scan s) ∧
      ∀ w ∈ words s.toList, Token.Denotes w (Token.ofWord w) := by
  have error : (scan s).error? = none ↔ ∀ w ∈ words s.toList, ¬ IsOverlong w := by
    rw [Scan.error?, Option.map_eq_none_iff, tooLong_scan_eq_none_iff]
  have denotes : ∀ w ∈ words s.toList, Token.Denotes w (Token.ofWord w) :=
    fun w hw => Token.denotes_ofWord (mem_words hw).1
  refine ⟨error, ?_, ?_, denotes⟩
  · intro before w after split fit overlong
    rw [scan_of_first split fit overlong]
    exact ⟨rfl, rfl⟩
  · intro complete
    have all : (scan s).tokens = (words s.toList).map Token.ofWord := by
      rw [scan_of_forall (error.1 complete), tokens]
    refine ⟨all, ?_, ?_⟩
    · rw [all, List.map_map]
      apply List.map_congr_left
      intro w hw
      exact (denotes w hw).printed
    · intro t spaced
      exact scan_congr (words_of_spaced spaced)

/-- Padded numerals are scanned and keep their spelling, unless there is too much padding. -/
theorem scan_is_lossless_of_padded :
    let zeros := List.replicate (maxDigits + 1) '0'
    let s := "x1 007\t-0 ("
    let t := "x " ++ String.ofList zeros ++ " )"
    (scan s).tokens = [.var "x1", .num ⟨7, some "007"⟩, .num ⟨0, some "-0"⟩, .opening] ∧
      scan "\n x1 007 -0\t\t( " = scan s ∧
      (scan t).tokens = [.var "x"] ∧
      (scan t).error? = some (.unexpected (String.ofList zeros)) := by
  intro zeros s t
  obtain ⟨_, _, complete, _⟩ := scan_is_lossless s
  obtain ⟨all, _, again⟩ := complete (by decide +kernel)
  have overlong : IsOverlong zeros := by
    apply IsOverlong.plain
    · intro c hc
      rw [List.eq_of_mem_replicate hc]
      rfl
    · rw [List.length_replicate]
      exact Nat.lt_succ_self maxDigits
  have split : words t.toList = [['x']] ++ zeros :: [[')']] := by
    apply words_of_spaced
    rw [show t.toList = ['x'] ++ ' ' :: (zeros ++ ' ' :: [')']) by simp [t]]
    apply Spaced.word (isWord_singleton rfl) rfl
    exact .word overlong.isWord rfl (.last (isWord_singleton rfl))
  obtain ⟨_, stopped, _⟩ := scan_is_lossless t
  obtain ⟨found, error⟩ := stopped _ _ _ split (by decide) overlong
  refine ⟨all.trans (by decide +kernel), again _ ?_, found.trans (by decide +kernel), error⟩
  rw [← words_eq_iff]
  decide +kernel

end ArithTree
