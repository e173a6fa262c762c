import ArithTree.Proofs.Reading.Rendering
import Mathlib.Algebra.Ring.Int.Defs
import Mathlib.Data.List.Chain

/-!
# Sentences of the infix grammar

A sentence is an operand, a sentence in parentheses, or two sentences with an operator between them.
Every sentence is read as an expression. What is read as an expression is a sentence if no operand
or group follows another one directly (`Separated`). Reading does not ask for the operator that is
missing there, it only counts: `1 2 +` is read as `1 + 2` is.

Tokens are followed one by one. `Continues` says what may follow where an operand is complete and
where one is expected. What continues the empty text is a sentence (`sentence_iff_continues`).
`Alternates` says the same but for the partners of parentheses: the code that is made of such tokens
runs to its end, and it leaves one expression if they are balanced (`run_of_alternates`), as they are
in what continues the empty text (`continues_iff`). On the other hand, reading
succeeds only if parentheses are balanced and there is one operand more than operators
(`ReadsTo.balanced`, `length_run`), and separated tokens of this kind continue the empty
text (`sum_effect_le`): an operator too many would have to be made up for by two operands with none
between them.
-/

namespace ArithTree

/-! ## The grammar -/

namespace Token

def isOperand : Token → Bool
  | .num _ | .var _ => true
  | _ => false

/-- Does a token begin an operand or a group? -/
def begins (t : Token) : Bool := t.isOperand || t = .opening

/-- Does a token end an operand or a group? -/
def ends (t : Token) : Bool := t.isOperand || t = .closing

end Token

/-- The sentences of the infix grammar. -/
inductive Sentence : List Token → Prop where
  | operand {t : Token} (h : t.isOperand = true) : Sentence [t]
  | parentheses {ts : List Token} (h : Sentence ts) : Sentence (.opening :: ts ++ [.closing])
  | application (op : Op) {ls rs : List Token} (hleft : Sentence ls) (hright : Sentence rs) :
    Sentence (ls ++ .op op :: rs)

/-- No operand or group follows another one directly: there is an operator between them. -/
def Separated (ts : List Token) : Prop :=
  ts.IsChain fun t u => ¬ (t.ends = true ∧ u.begins = true)

instance (ts : List Token) : Decidable (Separated ts) :=
  inferInstanceAs (Decidable (ts.IsChain fun t u => ¬ (t.ends = true ∧ u.begins = true)))

/-- What may follow inside `depth` open groups where an operand is complete, and where one is
expected. -/
inductive Continues : (complete : Bool) → (depth : Nat) → List Token → Prop where
  | operand {t : Token} (ht : t.isOperand = true) {d : Nat} {ts : List Token}
      (h : Continues true d ts) : Continues false d (t :: ts)
  | opening {d : Nat} {ts : List Token} (h : Continues false (d + 1) ts) :
    Continues false d (.opening :: ts)
  | op (o : Op) {d : Nat} {ts : List Token} (h : Continues false d ts) :
    Continues true d (.op o :: ts)
  | closing {d : Nat} {ts : List Token} (h : Continues true d ts) :
    Continues true (d + 1) (.closing :: ts)
  | done : Continues true 0 []

/-- What may follow where an operand is complete, and where one is expected, if parentheses need no
partners. -/
inductive Alternates : (complete : Bool) → List Token → Prop where
  | operand {t : Token} (ht : t.isOperand = true) {ts : List Token} (h : Alternates true ts) :
    Alternates false (t :: ts)
  | opening {ts : List Token} (h : Alternates false ts) : Alternates false (.opening :: ts)
  | op (o : Op) {ts : List Token} (h : Alternates false ts) : Alternates true (.op o :: ts)
  | closing {ts : List Token} (h : Alternates true ts) : Alternates true (.closing :: ts)
  | done : Alternates true []

/-! ## Sentences and what may follow -/

/-- What is left when a sentence ends inside `depth` open groups. Outside of the innermost group, it
makes the sentence that the group is part of complete. -/
def Closes : (depth : Nat) → List Token → Prop
  | 0, ts => ts = []
  | d + 1, ts => ∃ more, ts = .closing :: more ∧
    ∀ s, Sentence s → ∃ s' rest, s ++ more = s' ++ rest ∧ Sentence s' ∧ Closes d rest

/-- What follows a complete operand, or begins one, completes a sentence up to the end of the
group. -/
theorem exists_sentence {complete : Bool} {d : Nat} {ts : List Token}
    (h : Continues complete d ts) {s : List Token}
    (hs : if complete then Sentence s else s = []) :
    ∃ s' rest, s ++ ts = s' ++ rest ∧ Sentence s' ∧ Closes d rest := by
  induction h generalizing s with
  | @operand t ht _ _ _ ih =>
    obtain rfl : s = [] := hs
    exact ih (s := [t]) (Sentence.operand ht)
  | opening _ ih =>
    obtain rfl : s = [] := hs
    -- The group is a sentence, and begins one that goes on after its closing parenthesis.
    obtain ⟨group, rest, inside, hgroup, more, rfl, outside⟩ := ih (s := []) rfl
    obtain ⟨s', rest', eq, hs', closes⟩ := outside _ hgroup.parentheses
    refine ⟨s', rest', ?_, hs', closes⟩
    rw [← eq]
    simpa using inside
  | op o _ ih =>
    obtain ⟨right, rest, rfl, hright, closes⟩ := ih (s := []) rfl
    exact ⟨s ++ .op o :: right, rest, by simp, Sentence.application o hs hright, closes⟩
  | @closing d ts _ ih => exact ⟨s, .closing :: ts, rfl, hs, ts, rfl, fun _ h => ih h⟩
  | done => exact ⟨s, [], rfl, hs, rfl⟩

/-- A sentence may stand wherever an operand is expected. -/
theorem Sentence.continues {s : List Token} (h : Sentence s) {d : Nat} {rest : List Token}
    (hrest : Continues true d rest) : Continues false d (s ++ rest) := by
  induction h generalizing d rest with
  | operand ht => exact .operand ht hrest
  | parentheses _ ih =>
    rw [List.append_assoc, List.cons_append]
    exact .opening (ih (.closing hrest))
  | application op _ _ ihl ihr =>
    rw [List.append_assoc]
    exact ihl (.op op (ihr hrest))

theorem sentence_iff_continues {ts : List Token} : Sentence ts ↔ Continues false 0 ts := by
  constructor
  · intro h
    simpa using h.continues .done
  · intro h
    obtain ⟨s, rest, eq, hs, rfl⟩ := exists_sentence h (s := []) rfl
    rw [List.nil_append, List.append_nil] at eq
    exact eq ▸ hs

theorem Continues.not_begins {d : Nat} {ts : List Token} (h : Continues true d ts) :
    ∀ t ∈ ts.head?, t.begins = false := by
  cases h <;> simp [Token.begins, Token.isOperand]

theorem Continues.separated {complete : Bool} {d : Nat} {ts : List Token}
    (h : Continues complete d ts) : Separated ts := by
  induction h with
  | operand _ h ih | closing h ih =>
    refine List.isChain_cons.2 ⟨?_, ih⟩
    intro u hu
    simp [h.not_begins u hu]
  | opening _ ih | op _ _ ih =>
    exact List.isChain_cons.2 ⟨by simp [Token.ends, Token.isOperand], ih⟩
  | done => exact .nil

/-- In a sentence there is an operator between any two operands. -/
theorem Sentence.separated {ts : List Token} (h : Sentence ts) : Separated ts :=
  (sentence_iff_continues.1 h).separated

/-! ## Balanced tokens -/

/-- Parentheses are balanced, when `depth` groups are open, and there are only tokens that
expressions are made of. -/
def Balanced : (depth : Nat) → List Token → Prop
  | d, [] => d = 0
  | d, .opening :: ts => Balanced (d + 1) ts
  | 0, .closing :: _ => False
  | d + 1, .closing :: ts => Balanced d ts
  | _, .tooLong _ :: _ | _, .unknown _ :: _ => False
  | d, .num _ :: ts | d, .var _ :: ts | d, .op _ :: ts => Balanced d ts

theorem continues_iff {complete : Bool} {d : Nat} {ts : List Token} :
    Continues complete d ts ↔ Alternates complete ts ∧ Balanced d ts := by
  constructor
  · intro h
    induction h with
    | @operand t ht _ _ _ ih =>
      refine ⟨.operand ht ih.1, ?_⟩
      cases t with
      | num | var => exact ih.2
      | _ => cases ht
    | opening _ ih => exact ⟨.opening ih.1, ih.2⟩
    | op o _ ih => exact ⟨.op o ih.1, ih.2⟩
    | closing _ ih => exact ⟨.closing ih.1, ih.2⟩
    | done => exact ⟨.done, rfl⟩
  · rintro ⟨h, balanced⟩
    induction h generalizing d with
    | @operand t ht _ _ ih =>
      cases t with
      | num | var => exact .operand ht (ih balanced)
      | _ => cases ht
    | opening _ ih => exact .opening (ih balanced)
    | op o _ ih => exact .op o (ih balanced)
    | closing _ ih =>
      cases d with
      | zero => exact balanced.elim
      | succ d => exact .closing (ih balanced)
    | done =>
      obtain rfl : d = 0 := balanced
      exact .done

/-! The height of the stack changes by 1 for an operand, and by -1 for an operator once it is
applied. -/

def Token.effect : Token → Int
  | .num _ | .var _ => 1
  | .op _ => -1
  | _ => 0

def Held.effect : Held → Int
  | .op _ => -1
  | .opening => 0

def Instr.effect : Instr → Int
  | .push _ => 1
  | .apply _ => -1

/-- How many operands there can be more than operators, where an operand is complete and where one
is expected. -/
def room : (complete : Bool) → Int
  | true => 0
  | false => 1

/-- Separated tokens have no more operands than there is room for, and if they have as many, they
may follow. -/
theorem sum_effect_le {ts : List Token} {complete : Bool} {d : Nat} (separated : Separated ts)
    (first : complete = true → ∀ t ∈ ts.head?, t.begins = false) (balanced : Balanced d ts) :
    (ts.map Token.effect).sum ≤ room complete ∧
      ((ts.map Token.effect).sum = room complete → Continues complete d ts) := by
  induction ts generalizing complete d with
  | nil =>
    obtain rfl : d = 0 := balanced
    cases complete with
    | true => exact ⟨Int.le_refl 0, fun _ => .done⟩
    | false => exact ⟨by simp [room], by simp [room]⟩
  | cons t ts ih =>
    obtain ⟨next, rest⟩ := List.isChain_cons.1 separated
    have expected (begins : t.begins = true) : complete = false := by
      by_contra h
      exact absurd begins (by simp [first (by simpa using h) t rfl])
    have follows (ends : t.ends = true) : true = true → ∀ u ∈ ts.head?, u.begins = false := by
      intro _ u hu
      simpa [ends] using next u hu
    have ih {complete : Bool} := @ih complete
    rw [List.map_cons, List.sum_cons]
    cases t with
    | num | var =>
      obtain rfl := expected rfl
      obtain ⟨le, same⟩ := ih rest (follows rfl) balanced
      simp only [Token.effect, room] at *
      exact ⟨by omega, fun h => .operand rfl (same (by omega))⟩
    | opening =>
      obtain rfl := expected rfl
      obtain ⟨le, same⟩ := @ih false _ rest (by simp) balanced
      simp only [Token.effect, Int.zero_add]
      exact ⟨le, fun h => .opening (same h)⟩
    | op o =>
      obtain ⟨le, same⟩ := @ih false _ rest (by simp) balanced
      cases complete <;> simp only [Token.effect, room] at *
      case true => exact ⟨by omega, fun h => .op o (same (by omega))⟩
      -- Nothing makes up for an operator that stands where an operand is expected.
      case false => exact ⟨by omega, by omega⟩
    | closing =>
      cases d with
      | zero => exact balanced.elim
      | succ d =>
        obtain ⟨le, same⟩ := ih rest (follows rfl) balanced
        cases complete <;> simp only [Token.effect, room] at *
        case true => exact ⟨by omega, fun h => .closing (same (by omega))⟩
        case false => exact ⟨by omega, by omega⟩
    | tooLong | unknown => exact absurd balanced (by simp [Balanced])

/-! ## Code -/

section Code

variable {adjust : Expr → Except Fault Expr}

/-- The height of the stack after code that runs to its end. -/
theorem Stack.length_run {stack out : Stack} {code : List Instr}
    (h : Stack.run adjust stack code = .ok out) :
    (out.length : Int) = stack.length + (code.map Instr.effect).sum := by
  induction code generalizing stack with
  | nil =>
    cases h
    simp
  | cons i code ih =>
    rw [Stack.run_cons] at h
    obtain ⟨next, hstep, hrest⟩ := ok_of_bind h
    have height : (next.length : Int) = stack.length + i.effect := by
      cases Stack.executes_of_ok hstep with
      | pushed => simp [Instr.effect]
      | applied =>
        simp only [List.length_cons, Instr.effect]
        omega
    rw [ih hrest, height, List.map_cons, List.sum_cons]
    omega

/-- If applications are left as they are, code fails only with a parse error. -/
theorem Stack.parse_of_run_error {stack : Stack} {code : List Instr} {fault : Fault}
    (h : Stack.run .ok stack code = .error fault) : ∃ error, fault = .parse error := by
  induction code generalizing stack with
  | nil => cases h
  | cons i code ih =>
    rw [Stack.run_cons] at h
    cases hstep : Stack.step .ok stack i with
    | ok next =>
      rw [hstep] at h
      exact ih h
    | error fault' =>
      rw [hstep] at h
      cases h
      cases Stack.executes_of_error hstep with
      | refused rest failed => cases failed
      | short => exact ⟨_, rfl⟩

/-- If applications are left as they are, a program is refused before its code has run to its end,
or what it gives is the only expression of the stack. -/
theorem Program.refused_or_sole (p : Program) :
    (∃ error, p.eval .ok = .error (.parse error)) ∨
      ∃ out, Stack.run .ok [] p.code = .ok out ∧ p.error = none ∧ p.eval .ok = out.sole := by
  unfold Program.eval
  cases hrun : Stack.run .ok [] p.code with
  | error fault =>
    obtain ⟨error, rfl⟩ := Stack.parse_of_run_error hrun
    exact .inl ⟨error, rfl⟩
  | ok out =>
    cases herror : p.error with
    | some error => exact .inl ⟨error, rfl⟩
    | none => exact .inr ⟨out, rfl, rfl, rfl⟩

/-- Held operators can be applied if there is an expression for each of them and one more. -/
theorem Stack.exists_run_applied (stack : Stack) (spine : List Op)
    (enough : spine.length < stack.length) :
    ∃ out, Stack.run .ok stack (applied spine) = .ok out ∧
      out.length + spine.length = stack.length := by
  induction spine generalizing stack with
  | nil => exact ⟨stack, rfl, rfl⟩
  | cons o spine ih =>
    match stack, enough with
    | right :: left :: rest, enough =>
      simp only [List.length_cons] at enough ⊢
      obtain ⟨out, hrun, length⟩ := ih (.node o [left, right] :: rest)
        (by rw [List.length_cons]; omega)
      rw [List.length_cons] at length
      exact ⟨out, hrun, by omega⟩

namespace Program

theorem count_opening_spine (spine : List Op) : (spine.map Held.op).count .opening = 0 := by
  simp [List.count_eq_zero]

theorem sum_effect_spine (spine : List Op) :
    ((spine.map Held.op).map Held.effect).sum = -spine.length := by
  induction spine with
  | nil => rfl
  | cons o spine ih =>
    simp only [List.map_cons, List.sum_cons, ih, Held.effect, List.length_cons]
    omega

theorem sum_effect_applied (spine : List Op) :
    ((applied spine).map Instr.effect).sum = -spine.length := by
  induction spine with
  | nil => rfl
  | cons o spine ih =>
    rw [applied] at ih ⊢
    simp only [List.map_cons, List.sum_cons, ih, Instr.effect, List.length_cons]
    omega

theorem sum_effect_held_nonpos (held : List Held) : (held.map Held.effect).sum ≤ 0 := by
  induction held with
  | nil => exact Int.le_refl 0
  | cons h held ih =>
    rw [List.map_cons, List.sum_cons]
    cases h <;> simp only [Held.effect] <;> omega

theorem exists_leaf {t : Token} (h : t.isOperand = true) : ∃ e, t.leaf? = some e := by
  cases t with
  | num n => exact ⟨.num n, rfl⟩
  | var x => exact ⟨.var x, rfl⟩
  | _ => cases h

/-- If tokens are read to their end, they are balanced, and the code applies all of their operators
and those that were held. -/
theorem ReadsTo.balanced {held : List Held} {ts : List Token} {code : List Instr}
    (h : ReadsTo held ts code) :
    Balanced (held.count .opening) ts ∧
      (code.map Instr.effect).sum = (ts.map Token.effect).sum + (held.map Held.effect).sum := by
  induction h with
  | done spine =>
    rw [sum_effect_applied, sum_effect_spine]
    exact ⟨count_opening_spine spine, by simp⟩
  | @leaf t e ht _ _ _ _ ih =>
    obtain ⟨balanced, sum⟩ := ih
    cases t with
    | num | var =>
      refine ⟨balanced, ?_⟩
      simp only [List.map_cons, List.sum_cons, sum, Instr.effect, Token.effect]
      omega
    | _ => cases ht
  | op o spine _ ih =>
    obtain ⟨balanced, sum⟩ := ih
    rw [List.count_append, count_opening_spine, Nat.zero_add]
    rw [List.count_cons_of_ne (by simp)] at balanced
    refine ⟨balanced, ?_⟩
    simp only [List.map_append, List.sum_append, sum, sum_effect_applied, sum_effect_spine,
      List.map_cons, List.sum_cons, Held.effect, Token.effect]
    omega
  | opening _ ih =>
    obtain ⟨balanced, sum⟩ := ih
    rw [List.count_cons_self] at balanced
    refine ⟨balanced, ?_⟩
    simpa [Held.effect, Token.effect] using sum
  | closing spine _ ih =>
    obtain ⟨balanced, sum⟩ := ih
    rw [List.count_append, count_opening_spine, Nat.zero_add, List.count_cons_self]
    refine ⟨balanced, ?_⟩
    simp only [List.map_append, List.sum_append, sum, sum_effect_applied, sum_effect_spine,
      List.map_cons, List.sum_cons, Held.effect, Token.effect]
    omega

/-- The code for tokens that alternate runs to its end. Where an operand is complete, there is one
more expression on the stack than operators are held; where one is expected, there are as many. If
the tokens are balanced, they are read to their end, and one expression is left. -/
theorem run_of_alternates {complete : Bool} {ts : List Token} (h : Alternates complete ts)
    {held : List Held} {stack : Stack}
    (height : (stack.length : Int) + (held.map Held.effect).sum = 1 - room complete) :
    ∃ out, Stack.run .ok stack (ofTokensFrom held ts).code = .ok out ∧
      (Balanced (held.count .opening) ts ∧ (ofTokensFrom held ts).error = none ∧ out.length = 1 ∨
        ¬ Balanced (held.count .opening) ts ∧
          (ofTokensFrom held ts).error = some .unbalanced) := by
  induction h generalizing held stack with
  | @operand t ht ts _ ih =>
    obtain ⟨e, he⟩ := exists_leaf ht
    have same (d : Nat) : Balanced d (t :: ts) = Balanced d ts := by
      cases t with
      | num | var => rfl
      | _ => cases ht
    rw [ofTokensFrom_leaf he, same]
    apply @ih held (e :: stack)
    simp only [List.length_cons, room] at height ⊢
    omega
  | opening _ ih =>
    have inside := @ih (.opening :: held) stack (by simpa [Held.effect] using height)
    rwa [List.count_cons_self] at inside
  | op o _ ih =>
    obtain ⟨spine, rest, released, rfl⟩ := exists_release o held
    have nonpos := sum_effect_held_nonpos rest
    simp only [List.map_append, List.sum_append, sum_effect_spine, room] at height
    obtain ⟨next, hrun, length⟩ := Stack.exists_run_applied stack spine (by omega)
    have later := @ih (.op o :: rest) next
      (by simp only [List.map_cons, List.sum_cons, Held.effect, room]; omega)
    rw [List.count_cons_of_ne (by simp)] at later
    rw [ofTokensFrom, released, List.count_append, count_opening_spine, Nat.zero_add]
    simp only [after]
    rw [Stack.run_append, hrun]
    exact later
  | closing _ ih =>
    rcases exists_spine held with ⟨spine, rfl⟩ | ⟨spine, rest, rfl⟩
    -- There is no group to close.
    · simp only [sum_effect_spine, room] at height
      obtain ⟨out, hrun, _⟩ := Stack.exists_run_applied stack spine (by omega)
      rw [ofTokensFrom, close_of_spine, count_opening_spine]
      exact ⟨out, hrun, .inr ⟨id, rfl⟩⟩
    · have nonpos := sum_effect_held_nonpos rest
      simp only [List.map_append, List.sum_append, sum_effect_spine, room, List.map_cons,
        List.sum_cons, Held.effect] at height
      obtain ⟨next, hrun, length⟩ := Stack.exists_run_applied stack spine (by omega)
      have later := @ih rest next (by simp only [room]; omega)
      rw [ofTokensFrom, close_spine, List.count_append, count_opening_spine, Nat.zero_add,
        List.count_cons_self]
      simp only [after]
      rw [Stack.run_append, hrun]
      exact later
  | done =>
    rcases exists_spine held with ⟨spine, rfl⟩ | ⟨spine, rest, rfl⟩
    · simp only [sum_effect_spine, room] at height
      obtain ⟨out, hrun, length⟩ := Stack.exists_run_applied stack spine (by omega)
      rw [ofTokensFrom, finish_spine, count_opening_spine]
      exact ⟨out, hrun, .inl ⟨rfl, rfl, by omega⟩⟩
    -- A group is left open.
    · have nonpos := sum_effect_held_nonpos rest
      simp only [List.map_append, List.sum_append, sum_effect_spine, room, List.map_cons,
        List.sum_cons, Held.effect] at height
      obtain ⟨out, hrun, _⟩ := Stack.exists_run_applied stack spine (by omega)
      rw [ofTokensFrom, finish_of_opening, List.count_append, List.count_cons_self]
      exact ⟨out, hrun, .inr ⟨by simp [Balanced], rfl⟩⟩

end Program

end Code

/-! ## Reading -/

/-- However applications are adjusted, what is read is a sentence if it is separated. -/
theorem sentence_of_parseTokens {adjust : Expr → Except Fault Expr} {ts : List Token} {e : Expr}
    (separated : Separated ts) (h : parseTokens adjust ts = .ok e) : Sentence ts := by
  obtain ⟨hrun, herror⟩ := Program.eval_eq_ok.1 h
  obtain ⟨balanced, sum⟩ := (Program.readsTo_of_error herror).balanced
  have height := Stack.length_run hrun
  obtain ⟨_, continues⟩ := @sum_effect_le ts false _ separated (by simp) balanced
  refine sentence_iff_continues.2 (continues ?_)
  change ((Program.ofTokens ts).code.map Instr.effect).sum = _ at sum
  simp only [List.length_singleton, List.length_nil, List.map_nil, List.sum_nil, room] at *
  omega

/-- Tokens that alternate are read as an expression if they are balanced. If they are not, that is
what is reported. -/
theorem parseTokens_of_alternates {ts : List Token} (h : Alternates false ts) :
    Balanced 0 ts ∧ (∃ e, parseTokens .ok ts = .ok e) ∨
      ¬ Balanced 0 ts ∧ parseTokens .ok ts = .error (.parse .unbalanced) := by
  obtain ⟨out, hrun, ⟨balanced, herror, one⟩ | ⟨unbalanced, herror⟩⟩ :=
    @Program.run_of_alternates false ts h [] [] rfl
  · obtain ⟨e, rfl⟩ := List.length_eq_one_iff.1 one
    exact .inl ⟨balanced, e, Program.eval_eq_ok.2 ⟨hrun, herror⟩⟩
  · refine .inr ⟨unbalanced, ?_⟩
    unfold parseTokens Program.eval Program.ofTokens
    rw [hrun, herror]
    rfl

theorem Sentence.exists_parseTokens {ts : List Token} (h : Sentence ts) :
    ∃ e, parseTokens .ok ts = .ok e := by
  obtain ⟨alternates, balanced⟩ := continues_iff.1 (sentence_iff_continues.1 h)
  rcases parseTokens_of_alternates alternates with ⟨_, read⟩ | ⟨unbalanced, _⟩
  · exact read
  · exact absurd balanced unbalanced

/-- Separated tokens that are no sentence are refused. That more than one expression is left, and
the second of them has to be reported, is not among the reasons. -/
theorem exists_parseError {ts : List Token} (separated : Separated ts) (h : ¬ Sentence ts) :
    ∃ error, parseTokens .ok ts = .error (.parse error) := by
  rcases (Program.ofTokens ts).refused_or_sole with refused | ⟨out, hrun, herror, sole⟩
  · exact refused
  · have refused (e : Expr) : out.sole ≠ .ok e := fun he =>
      h (sentence_of_parseTokens separated (sole.trans he))
    obtain ⟨balanced, sum⟩ := (Program.readsTo_of_error herror).balanced
    have height := Stack.length_run hrun
    obtain ⟨le, _⟩ := @sum_effect_le ts false _ separated (by simp) balanced
    change ((Program.ofTokens ts).code.map Instr.effect).sum = _ at sum
    simp only [List.length_nil, List.map_nil, List.sum_nil, room] at *
    rw [parseTokens, sole]
    match out, height, refused with
    | [], _, _ => exact ⟨.unexpected "", rfl⟩
    | [e], _, refused => exact absurd rfl (refused e)
    | _ :: _ :: _, height, _ =>
      simp only [List.length_cons] at height
      omega

/-- The sentences are the separated tokens that are read as an expression. Other separated tokens
are refused with a parse error. -/
theorem sentence_iff_separated_and_read (ts : List Token) :
    (Sentence ts ↔ Separated ts ∧ ∃ e, parseTokens .ok ts = .ok e) ∧
      (Separated ts → ¬ Sentence ts → ∃ error, parseTokens .ok ts = .error (.parse error)) := by
  refine ⟨⟨?_, ?_⟩, exists_parseError⟩
  · intro h
    exact ⟨h.separated, h.exists_parseTokens⟩
  · rintro ⟨separated, e, he⟩
    exact sentence_of_parseTokens separated he

theorem sentence_iff_separated_and_read_of_missing_operand :
    let ts := tokens "( a + ) * 2"
    Separated ts ∧ ¬ Sentence ts ∧ ∃ error, parseTokens .ok ts = .error (.parse error) := by
  intro ts
  have separated : Separated ts := by decide +kernel
  have refused : parseTokens .ok ts = .error (.parse (.unexpected "+")) := by decide +kernel
  have notSentence : ¬ Sentence ts := by
    intro h
    obtain ⟨_, e, he⟩ := (sentence_iff_separated_and_read ts).1.1 h
    rw [refused] at he
    cases he
  exact ⟨separated, notSentence, (sentence_iff_separated_and_read ts).2 separated notSentence⟩

/-- Reading accepts operands with no operator between them, if there is one after them. -/
theorem reads_postfix_that_is_no_sentence :
    parseTokens .ok (tokens "1 2 +") = .ok (.node .add [.ofInt 1, .ofInt 2]) ∧
      ¬ Sentence (tokens "1 2 +") := by
  refine ⟨by decide +kernel, ?_⟩
  intro h
  exact absurd h.separated (by decide +kernel)

end ArithTree
