import ArithTree.Convert
import ArithTree.Proofs.Printing.SingleLine
import ArithTree.Proofs.Reading.Printed
import ArithTree.Proofs.Reading.Sentences

/-!
# Lines that are converted

Every line with text is answered by one line, whatever the other lines are, until one is met whose
expression cannot be printed. A text that is not an expression is answered too: it is refused with a
parse error whose message can always be written (`read_or_refused`). No answer holds a line feed, as
long as no text does.

`converts_convertLine` says what becomes of a single line, `converts_convertLines` what becomes of
all of them.

Main statement: `conversion_isolates_errors`.
-/

namespace ArithTree

open ArithTree.Expr

/-! ## Reading and simplifying -/

namespace Expr

/-- A text is read, or it is refused with a parse error. If more than one expression is left, the
second one can be printed, for its integers stand in the text. -/
theorem read_or_refused (s : String) :
    (∃ e, parse s = .ok e) ∨ ∃ error, parse s = .error (.parse error) := by
  rcases (Program.ofTokens (tokens s)).refused_or_sole with refused | ⟨out, hrun, herror, sole⟩
  · exact .inr refused
  · show (∃ e, (Program.ofTokens (tokens s)).eval .ok = .ok e) ∨
      ∃ error, (Program.ofTokens (tokens s)).eval .ok = .error (.parse error)
    rw [sole, Stack.sole]
    split
    · exact .inl ⟨_, rfl⟩
    · exact .inr ⟨_, rfl⟩
    · next first second rest left =>
      have mem : second ∈ out := List.mem_reverse.1 (by rw [left]; simp)
      obtain ⟨text, written⟩ :=
        exists_print? (notOverlong_of_run (Program.readsTo_of_error herror) hrun second mem)
      exact .inr ⟨.unexpected text, by rw [print, written]; rfl⟩

/-- An expression as it is printed: simplified, or as it was read. -/
def prepared (simplify : Bool) (e : Expr) : Except Fault Expr :=
  if simplify then e.simplified else .ok e

/-- What was read can be simplified, and stays legible. -/
theorem exists_simplify_legible {s : String} {e : Expr} (h : parse s = .ok e) :
    ∃ r, simplify e = .ok r ∧ Legible r.expr := by
  have step (e : Expr) (h : WellFormed e ∧ Legible e) :
      ∃ e', pass e = .ok e' ∧ WellFormed e' ∧ Legible e' := by
    obtain ⟨e', passed, wf⟩ := exists_pass h.1
    exact ⟨e', passed, wf, legible_of_pass passed h.2⟩
  obtain ⟨r, simplified, _, legible⟩ :=
    exists_simplify step ⟨wellFormed_of_parse h, legible_of_parse h⟩
  exact ⟨r, simplified, legible⟩

theorem exists_prepared {s : String} {e : Expr} (h : parse s = .ok e) (simplify : Bool) :
    ∃ t, e.prepared simplify = .ok t ∧ Legible t := by
  cases simplify with
  | false => exact ⟨e, rfl, legible_of_parse h⟩
  | true =>
    obtain ⟨r, simplified, legible⟩ := exists_simplify_legible h
    exact ⟨r.expr, simplified_of_simplify simplified, legible⟩

end Expr

/-! ## Conversions -/

namespace Conversion

theorem andThen_of_fault {c : Conversion} {fault : Fault} (h : c.fault = some fault)
    (next : Conversion) : c.andThen next = c := by
  rw [andThen, h]

theorem andThen_of_no_fault {c : Conversion} (h : c.fault = none) (next : Conversion) :
    c.andThen next = ⟨c.written ++ next.written, c.log ++ next.log, next.fault⟩ := by
  rw [andThen, h]

theorem ownLog_append (first second : List Record) (written : List String) (fault : Option Fault) :
    ownLog ⟨written, first ++ second, fault⟩ =
      first.filter (·.origin = .converter) ++ second.filter (·.origin = .converter) :=
  List.filter_append _ _

end Conversion

/-! ## Single lines -/

/-- A line without the blanks at its start and its end. -/
def stripped (line : String) : String := String.ofList (strip line.toList)

/-- Does the line hold anything but blanks? -/
def hasText (line : String) : Bool := line.toList.any (!isBlank ·)

theorem isEmpty_stripped (line : String) : (stripped line).isEmpty = !hasText line := by
  rw [Bool.eq_iff_iff, String.isEmpty_iff, stripped, hasText]
  simp [strip_eq_nil_iff]

/-- An answer to a line: its text and the prefix form of its expression, or the parse error. -/
inductive Answers (simplify : Bool) (line : String) : String → Prop where
  | printed {e t : Expr} {s : String} (read : parse (stripped line) = .ok e)
      (prepared : e.prepared simplify = .ok t) (printed : t.print? = some s) :
    Answers simplify line (stripped line ++ " -> " ++ s)
  | refused {error : ParseError} (read : parse (stripped line) = .error (.parse error)) :
    Answers simplify line ("Error encountered: " ++ error.message)

/-- A line with text that is read as an expression, which cannot be printed. -/
structure Blocked (simplify : Bool) (line : String) : Prop where
  text : hasText line = true
  unprintable : ∃ e t, parse (stripped line) = .ok e ∧ e.prepared simplify = .ok t ∧
    t.print? = none

/-- The record of a line that is refused. -/
def refusal? (line : String) : Option Record :=
  match parse (stripped line) with
  | .error _ => some ⟨.converter, .debug, some ("failed to parse " ++ quote (stripped line))⟩
  | .ok _ => none

theorem Answers.unique {simplify : Bool} {line answer answer' : String}
    (h : Answers simplify line answer) (h' : Answers simplify line answer') :
    answer = answer' := by
  cases h with
  | printed read prepared printed =>
    cases h' with
    | printed read' prepared' printed' =>
      cases read.symm.trans read'
      cases prepared.symm.trans prepared'
      cases printed.symm.trans printed'
      rfl
    | refused read' => cases read.symm.trans read'
  | refused read =>
    cases h' with
    | printed read' => cases read.symm.trans read'
    | refused read' =>
      cases read.symm.trans read'
      rfl

theorem Answers.not_blocked {simplify : Bool} {line answer : String}
    (h : Answers simplify line answer) : ¬ Blocked simplify line := by
  rintro ⟨_, e, t, read, prepared, unprintable⟩
  cases h with
  | printed read' prepared' printed =>
    cases read.symm.trans read'
    cases prepared.symm.trans prepared'
    cases unprintable.symm.trans printed
  | refused read' => cases read.symm.trans read'

/-- An answer stands on one line if the text of its line does. -/
theorem Answers.newline_notMem {simplify : Bool} {line answer : String}
    (h : Answers simplify line answer) (clean : '\n' ∉ strip line.toList) :
    '\n' ∉ answer.toList := by
  cases h with
  | printed read prepared printed =>
    obtain ⟨_, prepared', legible⟩ := exists_prepared read simplify
    cases prepared.symm.trans prepared'
    simp [stripped, clean, newline_notMem_print? legible printed]
  | refused read => simp [newline_notMem_message]

/-- What becomes of a single line. -/
inductive Converts (simplify : Bool) (line : String) : Conversion → Prop where
  | blank (noText : hasText line = false) : Converts simplify line ⟨[], [], none⟩
  | answered {answer : String} {log : List Record} (text : hasText line = true)
      (answers : Answers simplify line answer)
      (logged : log.filter (·.origin = .converter) = (refusal? line).toList) :
    Converts simplify line ⟨[answer], log, none⟩
  | blocked {log : List Record} (blocked : Blocked simplify line)
      (logged : log.filter (·.origin = .converter) = []) :
    Converts simplify line ⟨[], log, some .unprintable⟩

/-- Only the simplifier logs what it does. -/
theorem filter_converter_log (r : Simplified) : r.log.filter (·.origin = .converter) = [] := by
  simp [Simplified.log, Event.record]

/-- What was read is reported as it was prepared, after a log of its simplification. -/
theorem exists_convertLine_of_parse {simplify : Bool} {line : String} (text : hasText line = true)
    {e : Expr} (h : parse (stripped line) = .ok e) :
    ∃ t log, e.prepared simplify = .ok t ∧ log.filter (·.origin = .converter) = [] ∧
      convertLine simplify line = report (stripped line) t log := by
  have nonempty : (String.ofList (strip line.toList)).isEmpty = false :=
    (isEmpty_stripped line).trans (by rw [text]; rfl)
  obtain ⟨r, simplified, _⟩ := exists_simplify_legible h
  rw [stripped] at h
  cases simplify with
  | false => exact ⟨e, [], rfl, rfl, by simp [convertLine, nonempty, h, stripped]⟩
  | true =>
    refine ⟨r.expr, r.log, simplified_of_simplify simplified, filter_converter_log r, ?_⟩
    simp [convertLine, nonempty, h, simplified, stripped]

theorem converts_convertLine (simplify : Bool) (line : String) :
    Converts simplify line (convertLine simplify line) := by
  have empty : (String.ofList (strip line.toList)).isEmpty = !hasText line := isEmpty_stripped line
  by_cases text : hasText line = true
  · rcases read_or_refused (stripped line) with ⟨e, read⟩ | ⟨error, read⟩
    · obtain ⟨t, log, prepared, logged, converted⟩ := exists_convertLine_of_parse text read
      rw [converted, report]
      split
      · next s printed =>
        refine .answered text (.printed read prepared printed) ?_
        rw [logged, refusal?, read]
        rfl
      · next unprintable => exact .blocked ⟨text, e, t, read, prepared, unprintable⟩ logged
    · have converted : convertLine simplify line =
          ⟨["Error encountered: " ++ error.message],
            [⟨.converter, .debug, some ("failed to parse " ++ quote (stripped line))⟩], none⟩ := by
        rw [stripped] at read
        simp [convertLine, empty, text, read, stripped]
      rw [converted]
      refine .answered text (.refused read) ?_
      rw [refusal?, read]
      rfl
  · have converted : convertLine simplify line = ⟨[], [], none⟩ := by
      simp [convertLine, empty, text]
    rw [converted]
    exact .blank (by simpa using text)

/-! ## All lines -/

/-- What becomes of lines: those before the first blocked one are answered, and none after them. -/
theorem converts_convertLines (simplify : Bool) (lines : List String) :
    ∃ before rest, lines = before ++ rest ∧ (∀ line ∈ before, ¬ Blocked simplify line) ∧
      (∀ line ∈ rest.head?, Blocked simplify line) ∧
      List.Forall₂ (Answers simplify) (before.filter hasText) (convertLines simplify lines).written ∧
      (convertLines simplify lines).ownLog = (before.filter hasText).filterMap refusal? ∧
      (convertLines simplify lines).fault = if rest = [] then none else some .unprintable := by
  induction lines with
  | nil => exact ⟨[], [], rfl, by simp, by simp, .nil, rfl, rfl⟩
  | cons line lines ih =>
    obtain ⟨before, rest, rfl, unblocked, blocked, answers, logged, fault⟩ := ih
    rw [convertLines]
    have converts := converts_convertLine simplify line
    generalize convertLine simplify line = c at converts
    cases converts with
    | blank noText =>
      rw [Conversion.andThen_of_no_fault rfl]
      refine ⟨line :: before, rest, rfl, ?_, blocked, ?_, ?_, fault⟩
      · exact List.forall_mem_cons.2 ⟨fun h => by simp [h.text] at noText, unblocked⟩
      · rw [List.filter_cons_of_neg (by simp [noText])]
        exact answers
      · rw [List.filter_cons_of_neg (by simp [noText])]
        exact logged
    | answered text answer logged' =>
      rw [Conversion.andThen_of_no_fault rfl]
      refine ⟨line :: before, rest, rfl, ?_, blocked, ?_, ?_, fault⟩
      · exact List.forall_mem_cons.2 ⟨answer.not_blocked, unblocked⟩
      · rw [List.filter_cons_of_pos text]
        exact .cons answer answers
      · rw [List.filter_cons_of_pos text, Conversion.ownLog_append, logged']
        change _ ++ Conversion.ownLog _ = _
        rw [logged]
        cases h : refusal? line <;> simp [h]
    | blocked isBlocked logged' =>
      rw [Conversion.andThen_of_fault rfl]
      exact ⟨[], line :: (before ++ rest), rfl, by simp, by simpa using isBlocked, .nil, logged',
        rfl⟩

/-- What is read and left as it is can be printed. -/
theorem not_blocked_of_unsimplified (line : String) : ¬ Blocked false line := by
  rintro ⟨_, e, t, read, ⟨⟩, unprintable⟩
  obtain ⟨text, written⟩ := exists_print? (notOverlong_of_parse read)
  cases unprintable.symm.trans written

/-- Up to the first line whose expression cannot be printed, every line with text is answered by one
line of the output, which depends on it alone, and the lines that are refused are logged. A
conversion fails if and only if there is such a line, and there is none if expressions are left as
they are. -/
theorem conversion_isolates_errors (simplify : Bool) {lines : List String}
    (clean : ∀ line ∈ lines, '\n' ∉ strip line.toList) :
    ∃ before rest answers,
      lines = before ++ rest ∧ (∀ line ∈ before, ¬ Blocked simplify line) ∧
        (∀ line ∈ rest.head?, Blocked simplify line) ∧
      List.Forall₂ (fun line answer => ∀ a, Answers simplify line a ↔ a = answer)
        (before.filter hasText) answers ∧
      (∀ answer ∈ answers, '\n' ∉ answer.toList) ∧
      (convertLines simplify lines).output = String.join (answers.map (· ++ "\n")) ∧
      (convertLines simplify lines).ownLog = (before.filter hasText).filterMap refusal? ∧
      (convertLines simplify lines).fault = (if rest = [] then none else some .unprintable) ∧
      (simplify = false → rest = []) := by
  obtain ⟨before, rest, rfl, unblocked, blocked, answers, logged, fault⟩ :=
    converts_convertLines simplify lines
  refine ⟨before, rest, _, rfl, unblocked, blocked, ?_, ?_, rfl, logged, fault, ?_⟩
  · refine answers.imp fun line answer h a => ⟨fun h' => h'.unique h, ?_⟩
    rintro rfl
    exact h
  · intro answer hanswer
    obtain ⟨line, hline, h⟩ := exists_of_mem_right answers hanswer
    have mem : line ∈ before := (List.mem_filter.1 hline).1
    exact h.newline_notMem (clean line (List.mem_append_left _ mem))
  · rintro rfl
    cases rest with
    | nil => rfl
    | cons line rest => exact absurd (blocked line rfl) (not_blocked_of_unsimplified line)

/-- An open group, a line of blanks and an unknown token between lines that are converted. -/
theorem conversion_isolates_errors_of_open_group :
    let lines := [" 1 + 1", "( 1 + 1", "\t", "a $ b", "a ^ 007\n"]
    (∀ line ∈ lines, '\n' ∉ strip line.toList) ∧ (convertLines false lines).fault = none ∧
      (convertLines false lines).output =
        "1 + 1 -> (+ 1 1)\nError encountered: Mismatched parens\n" ++
          "Error encountered: Invalid token: '$'\na ^ 007 -> (^ a 007)\n" := by
  intro lines
  have clean : ∀ line ∈ lines, '\n' ∉ strip line.toList := by decide +kernel
  obtain ⟨_, rest, _, _, _, _, _, _, _, _, fault, all⟩ := conversion_isolates_errors false clean
  rw [all rfl] at fault
  exact ⟨clean, fault, by decide +kernel⟩

end ArithTree
