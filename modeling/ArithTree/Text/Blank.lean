/-!
# Blanks, words and stripping

A blank separates words and surrounds lines: the white space of every script, the no-break spaces
and the four information separators. `words` cuts a text at its runs of blanks, `strip` takes blanks
from both of its ends.

Main statements: no word is empty or holds a blank (`mem_words`), and the characters of all words,
in order, are those of the text that are not blank (`flatten_words`).
-/

namespace ArithTree

/-- The characters that separate words, as ranges of code points. -/
def blankRanges : List (Nat × Nat) :=
  [(0x09, 0x0D), (0x1C, 0x20), (0x85, 0x85), (0xA0, 0xA0), (0x1680, 0x1680), (0x2000, 0x200A),
    (0x2028, 0x2029), (0x202F, 0x202F), (0x205F, 0x205F), (0x3000, 0x3000)]

/-- Does a character separate words? -/
def isBlank (c : Char) : Bool :=
  blankRanges.any fun (first, last) => first ≤ c.toNat && c.toNat ≤ last

/-- The maximal runs of characters that are not blank. -/
def words : List Char → List (List Char)
  | [] => []
  | c :: cs =>
    if isBlank c then words cs
    else if cs.head?.all isBlank then [c] :: words cs
    else (words cs).modifyHead (c :: ·)

/-- A text without the blanks at its start. -/
def stripLeft (cs : List Char) : List Char := cs.dropWhile isBlank

/-- A text without the blanks at its start and its end. -/
def strip (cs : List Char) : List Char := (stripLeft (stripLeft cs).reverse).reverse

theorem stripLeft_eq_nil_iff {cs : List Char} :
    stripLeft cs = [] ↔ ∀ c ∈ cs, isBlank c = true := by
  induction cs with
  | nil => simp [stripLeft]
  | cons c cs ih =>
    by_cases hc : isBlank c = true
    · rw [stripLeft, List.dropWhile_cons_of_pos hc, List.forall_mem_cons]
      exact ⟨fun h => ⟨hc, ih.1 h⟩, fun h => ih.2 h.2⟩
    · simp [stripLeft, hc]

/-- Nothing is left of a text if it holds nothing but blanks. -/
theorem strip_eq_nil_iff {cs : List Char} : strip cs = [] ↔ ∀ c ∈ cs, isBlank c = true := by
  rw [strip, List.reverse_eq_nil_iff, stripLeft_eq_nil_iff]
  simp only [List.mem_reverse]
  induction cs with
  | nil => simp [stripLeft]
  | cons c cs ih =>
    by_cases hc : isBlank c = true
    · simpa [stripLeft, hc] using ih
    · simp [stripLeft, hc]

theorem words_cons_blank {c : Char} (h : isBlank c = true) (cs : List Char) :
    words (c :: cs) = words cs := by
  simp [words, h]

/-- A text that starts with a word has a first word. -/
theorem words_ne_nil {c : Char} (h : isBlank c = false) :
    ∀ cs : List Char, words (c :: cs) ≠ []
  | [] => by simp [words, h]
  | d :: ds => by
    by_cases hd : isBlank d = true
    · simp [words, h, hd]
    · have := words_ne_nil (by simpa using hd : isBlank d = false) ds
      rw [words]
      cases hw : words (d :: ds) with
      | nil => exact absurd hw this
      | cons w ws => simp [h, hd]

/-- Words are not empty and hold no blank. -/
theorem mem_words {w : List Char} :
    ∀ {cs : List Char}, w ∈ words cs → w ≠ [] ∧ ∀ c ∈ w, isBlank c = false
  | [], hw => by simp [words] at hw
  | c :: cs, hw => by
    have ih {v : List Char} : v ∈ words cs → v ≠ [] ∧ ∀ d ∈ v, isBlank d = false := mem_words
    unfold words at hw
    split at hw
    · exact ih hw
    · next hc =>
      replace hc : isBlank c = false := by simpa using hc
      split at hw
      · rcases List.mem_cons.1 hw with rfl | hw
        · simp [hc]
        · exact ih hw
      · cases hws : words cs with
        | nil => simp [hws] at hw
        | cons v vs =>
          rw [hws] at ih
          rw [hws, List.modifyHead_cons, List.mem_cons] at hw
          rcases hw with rfl | hw
          · exact ⟨by simp, fun d hd => (List.mem_cons.1 hd).elim (· ▸ hc)
              ((ih List.mem_cons_self).2 d)⟩
          · exact ih (List.mem_cons_of_mem _ hw)

/-- Splitting a text into words loses its blanks and nothing else. -/
theorem flatten_words : ∀ cs : List Char, (words cs).flatten = cs.filter (!isBlank ·)
  | [] => rfl
  | c :: cs => by
    have ih := flatten_words cs
    unfold words
    split
    · next hc => simp [hc, ih]
    · next hc =>
      rw [List.filter_cons_of_pos (by simpa using hc), ← ih]
      split
      · rfl
      · next hd =>
        cases cs with
        | nil => simp at hd
        | cons d ds =>
          have := words_ne_nil (by simpa using hd : isBlank d = false) ds
          cases hw : words (d :: ds) with
          | nil => exact absurd hw this
          | cons w ws => rfl

end ArithTree
