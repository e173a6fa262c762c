import ArithTree.StackCode.OfTokens

/-!
# Spines of held operators

What is held back while tokens are read is made of spines: runs of operators whose right operands
are not complete yet, with an opening parenthesis between one spine and the next. The next operator
releases a part of the first spine, a closing parenthesis all of it, and the end of the tokens the
only one that may be left.

`Program.ReadsTo` says in these terms what code is made of tokens that are read to their end
(`Program.readsTo_of_error`). Each fact about such code is an induction over it.
-/

namespace ArithTree

/-- The operators that are still held, applied. -/
def applied (spine : List Op) : List Instr := spine.map .apply

/-- The numeral or the variable that a token stands for. -/
def Token.leaf? : Token → Option Expr
  | .num n => some (.num n)
  | .var x => some (.var x)
  | _ => none

namespace Program

theorem after_after (front more : List Instr) (p : Program) :
    (p.after more).after front = p.after (front ++ more) := by
  simp [after]

/-! ## What is released, closed and finished -/

/-- Operators that bind before the next one are released, down to what is kept. -/
theorem release_spine {next : Op} {spine : List Op} {held : List Held}
    (binds : ∀ o ∈ spine, o.bindsBefore next = true) (kept : release next held = ([], held)) :
    release next (spine.map .op ++ held) = (applied spine, held) := by
  induction spine with
  | nil => exact kept
  | cons o spine ih =>
    rw [List.forall_mem_cons] at binds
    simp [release, binds.1, ih binds.2, applied]

theorem exists_release (next : Op) (held : List Held) :
    ∃ spine rest, release next held = (applied spine, rest) ∧ held = spine.map .op ++ rest := by
  induction held with
  | nil => exact ⟨[], [], rfl, rfl⟩
  | cons h held ih =>
    cases h with
    | opening => exact ⟨[], .opening :: held, rfl, rfl⟩
    | op o =>
      unfold release
      split
      · obtain ⟨spine, rest, eq, rfl⟩ := ih
        exact ⟨o :: spine, rest, by rw [eq]; rfl, rfl⟩
      · exact ⟨[], .op o :: held, rfl, rfl⟩

theorem exists_spine (held : List Held) :
    (∃ spine : List Op, held = spine.map .op) ∨
      ∃ (spine : List Op) (rest : List Held), held = spine.map .op ++ .opening :: rest := by
  induction held with
  | nil => exact .inl ⟨[], rfl⟩
  | cons h held ih =>
    cases h with
    | opening => exact .inr ⟨[], held, rfl⟩
    | op o =>
      rcases ih with ⟨spine, rfl⟩ | ⟨spine, rest, rfl⟩
      · exact .inl ⟨o :: spine, rfl⟩
      · exact .inr ⟨o :: spine, rest, rfl⟩

theorem close_spine (spine : List Op) (held : List Held) :
    close (spine.map .op ++ .opening :: held) = (applied spine, some held) := by
  induction spine with
  | nil => rfl
  | cons o spine ih => simp [close, ih, applied]

theorem close_of_spine (spine : List Op) : close (spine.map .op) = (applied spine, none) := by
  induction spine with
  | nil => rfl
  | cons o spine ih => simp [close, ih, applied]

theorem finish_spine (spine : List Op) : finish (spine.map .op) = ⟨applied spine, none⟩ := by
  induction spine with
  | nil => rfl
  | cons o spine ih => simp [finish, ih, applied, after]

theorem finish_of_opening (spine : List Op) (held : List Held) :
    finish (spine.map .op ++ .opening :: held) = ⟨applied spine, some .unbalanced⟩ := by
  induction spine with
  | nil => rfl
  | cons o spine ih => simp [finish, ih, applied, after]

/-! ## Tokens that are read to their end -/

theorem ofTokensFrom_leaf {t : Token} {e : Expr} (h : t.leaf? = some e) (held : List Held)
    (ts : List Token) : ofTokensFrom held (t :: ts) = (ofTokensFrom held ts).after [.push e] := by
  cases t with
  | num | var =>
    cases h
    rfl
  | _ => cases h

/-- Tokens that are read to their end while operators are held, and the code that is made of
them. -/
inductive ReadsTo : List Held → List Token → List Instr → Prop where
  | done (spine : List Op) : ReadsTo (spine.map .op) [] (applied spine)
  | leaf {t : Token} {e : Expr} (ht : t.leaf? = some e) {held : List Held} {ts : List Token}
      {code : List Instr} (h : ReadsTo held ts code) : ReadsTo held (t :: ts) (.push e :: code)
  | op (o : Op) (spine : List Op) {held : List Held} {ts : List Token} {code : List Instr}
      (h : ReadsTo (.op o :: held) ts code) :
    ReadsTo (spine.map .op ++ held) (.op o :: ts) (applied spine ++ code)
  | opening {held : List Held} {ts : List Token} {code : List Instr}
      (h : ReadsTo (.opening :: held) ts code) : ReadsTo held (.opening :: ts) code
  | closing (spine : List Op) {held : List Held} {ts : List Token} {code : List Instr}
      (h : ReadsTo held ts code) :
    ReadsTo (spine.map .op ++ .opening :: held) (.closing :: ts) (applied spine ++ code)

theorem readsTo_of_error {held : List Held} {ts : List Token}
    (h : (ofTokensFrom held ts).error = none) : ReadsTo held ts (ofTokensFrom held ts).code := by
  induction ts generalizing held with
  | nil =>
    rw [ofTokensFrom] at h ⊢
    rcases exists_spine held with ⟨spine, rfl⟩ | ⟨spine, rest, rfl⟩
    · rw [finish_spine]
      exact .done spine
    · rw [finish_of_opening] at h
      cases h
  | cons t ts ih =>
    cases t with
    | num | var => exact .leaf rfl (ih h)
    | op o =>
      obtain ⟨spine, rest, released, rfl⟩ := exists_release o held
      rw [ofTokensFrom, released] at h ⊢
      exact .op o spine (@ih (.op o :: rest) h)
    | opening => exact .opening (@ih (.opening :: held) h)
    | closing =>
      rcases exists_spine held with ⟨spine, rfl⟩ | ⟨spine, rest, rfl⟩
      · rw [ofTokensFrom, close_of_spine] at h
        cases h
      · rw [ofTokensFrom, close_spine] at h ⊢
        exact .closing spine (@ih rest h)
    | tooLong | unknown => cases h

end Program

end ArithTree
