import ArithTree.Proofs.Reading.Conservation
import ArithTree.Proofs.Reading.Rendering
import ArithTree.Proofs.Simplify.Ceiling
import ArithTree.Proofs.Simplify.FixedPoint
import ArithTree.Proofs.Simplify.Iteration
import ArithTree.Proofs.Simplify.Overlong
import ArithTree.Simplify.Reading

/-!
# Printing what has been simplified

All that is read can be printed, and a simplified expression can be printed unless numbers of
occurrences have grown too long. How long they can grow depends on how many occurrences of variables
have been merged: with each of them, the bound on integers rises by once `Decimal.bound`. So if none
has been merged, all integers can be written. They also can be if the ceiling is not too long.

Main statement: `integers_of_simplified`.
-/

namespace ArithTree.Expr

/-! ## Printing -/

/-- An expression can be printed if all its integers can be written. -/
theorem exists_print? {e : Expr} (h : ∀ n ∈ e.numerals, n.value.natAbs < Decimal.bound) :
    ∃ text, e.print? = some text := by
  have numeral {n : Numeral} (h : n.value.natAbs < Decimal.bound) :
      ∃ text, n.print? = some text := by
    obtain ⟨digits, written⟩ := Option.isSome_iff_exists.1 (Decimal.write?_isSome_iff.2 h)
    unfold Numeral.print?
    split
    · split
      · exact ⟨digits, written⟩
      · exact ⟨_, rfl⟩
    · exact ⟨digits, written⟩
  have all {es : List Expr} (h : ∀ e ∈ es, ∃ text, e.print? = some text) :
      ∃ text, printAll? es = some text := by
    induction es with
    | nil => exact ⟨_, by rw [printAll?]⟩
    | cons e es ih =>
      rw [List.forall_mem_cons] at h
      obtain ⟨first, hfirst⟩ := h.1
      obtain ⟨rest, hrest⟩ := ih h.2
      exact ⟨_, by rw [printAll?, hfirst, hrest]; rfl⟩
  induction e using Expr.induction with
  | num n =>
    rw [print?]
    exact numeral (h n (by simp))
  | var x => exact ⟨x, by rw [print?]⟩
  | node op args ih =>
    obtain ⟨rest, hrest⟩ := all fun e he =>
      ih e he fun n hn => h n (mem_numerals_node.2 ⟨e, he, hn⟩)
    exact ⟨_, by rw [print?, hrest]; rfl⟩

/-! ## Reading -/

theorem natAbs_lt_of_mem_tokens {s : String} {n : Numeral} (h : .num n ∈ tokens s) :
    n.value.natAbs < Decimal.bound := by
  obtain ⟨word, _, hword⟩ := List.mem_map.1 h
  exact natAbs_lt_of_token hword

/-- No integer in what tokens leave on the stack is too long. -/
theorem notOverlong_of_run {s : String} {code : List Instr}
    (reads : Program.ReadsTo [] (tokens s) code) {out : Stack}
    (hrun : Stack.run .ok [] code = .ok out) :
    ∀ e ∈ out, ∀ n ∈ e.numerals, n.value.natAbs < Decimal.bound := by
  intro e he n hn
  obtain ⟨leaf, hleaf, numeral⟩ := List.mem_filterMap.1 hn
  rw [Sum.getLeft?_eq_some_iff.1 numeral] at hleaf
  obtain ⟨_, hmem, ⟨⟩⟩ | ⟨_, _, ⟨⟩⟩ := reads.isLeafOf_of_run hrun he hleaf
  exact natAbs_lt_of_mem_tokens hmem

/-- No integer that is read is too long. -/
theorem notOverlong_of_parse {s : String} {e : Expr} (h : parse s = .ok e) :
    ∀ n ∈ e.numerals, n.value.natAbs < Decimal.bound := by
  obtain ⟨hrun, herror⟩ := Program.eval_eq_ok.1 h
  exact notOverlong_of_run (Program.readsTo_of_error herror) hrun e (List.mem_singleton_self e)

/-! ## Bulk -/

/-- The bulk of an expression counts its variables, and by how much its integers are too long. -/
theorem bulk_eq (e : Expr) :
    e.bulk = (e.numerals.map fun n => excess n.value).sum + e.names.length := by
  unfold bulk numerals names
  induction e.leaves with
  | nil => rfl
  | cons leaf rest ih =>
    rw [List.map_cons, List.sum_cons, ih]
    cases leaf with
    | inl n =>
      simp only [List.filterMap_cons, Sum.getLeft?_inl, Sum.getRight?_inl, List.map_cons,
        List.sum_cons, leafBulk]
      omega
    | inr x =>
      simp only [List.filterMap_cons, Sum.getLeft?_inr, Sum.getRight?_inr, List.length_cons,
        leafBulk]
      omega

theorem placed_of_short {e : Expr} (h : ∀ n ∈ e.numerals, n.value.natAbs < Decimal.bound) :
    NotOverlong e ∧ Placed e := by
  induction e using Expr.induction with
  | num n => exact ⟨notOverlong_num.2 (h n (by simp)), everywhere_num _ n⟩
  | var x => exact ⟨notOverlong_var x, everywhere_var _ x⟩
  | node op args ih =>
    have each : ∀ e ∈ args, NotOverlong e ∧ Placed e := fun e he =>
      ih e he fun n hn => h n (mem_numerals_node.2 ⟨e, he, hn⟩)
    exact ⟨notOverlong_node _ _, placed_of_notOverlong each⟩

/-! ## Simplification -/

/-- What is known of the integers of `e` if it is what some passes have made of `source`. -/
structure Bounded (source e : Expr) : Prop where
  wellFormed : WellFormed e
  several : Several e
  placed : Placed e
  notOverlong : NotOverlong e
  bulk : e.bulk ≤ source.bulk
  ceiling : e.ceiling ≤ source.ceiling
  names : source.names.Nodup → e.names.Perm source.names

theorem exists_pass_bounded {source e : Expr} (h : Bounded source e) :
    ∃ e', pass e = .ok e' ∧ Bounded source e' := by
  have wf := h.wellFormed
  obtain ⟨e', passed, wf', several, placed, bulk, ceiling, names⟩ :=
    exists_pass_and (exists_pass wf) (exists_pass_and (exists_pass_several wf)
      (exists_pass_and (exists_pass_placed wf) (exists_pass_and (exists_pass_bulk wf)
        (exists_pass_and (exists_pass_ceiling wf) (exists_pass_names wf)))))
  obtain ⟨placed, keeps⟩ := placed h.several h.placed
  refine ⟨e', passed, wf', several h.several, placed, keeps h.notOverlong,
    Nat.le_trans bulk h.bulk, Nat.le_trans ceiling h.ceiling, ?_⟩
  intro nodup
  have perm := h.names nodup
  exact (names (perm.nodup_iff.2 nodup)).trans perm

/-- By how much the integers of an expression can be too long. -/
theorem Bounded.natAbs_lt {source e : Expr} (h : Bounded source e)
    (short : ∀ n ∈ source.numerals, n.value.natAbs < Decimal.bound) {n : Numeral}
    (hn : n ∈ e.numerals) :
    n.value.natAbs < (source.names.length - e.names.length + 1) * Decimal.bound := by
  have none : (source.numerals.map fun n => excess n.value).sum = 0 := by
    rw [List.sum_eq_zero_iff, List.forall_mem_map]
    intro n hn
    exact excess_eq_zero_iff.2 (short n hn)
  have part : excess n.value ≤ (e.numerals.map fun n => excess n.value).sum :=
    List.le_sum_of_mem (List.mem_map_of_mem hn)
  have bulk := h.bulk
  rw [bulk_eq, bulk_eq, none] at bulk
  have pos : 0 < Decimal.bound := Nat.lt_trans Nat.zero_lt_one Decimal.one_lt_bound
  rw [← Nat.div_lt_iff_lt_mul pos]
  change excess n.value < _
  omega

/-- The integers of what is simplified after reading. For each two occurrences of variables that are
merged, they can get longer, but those that are too long to be written are factors beside variables,
or exponents of variables, and none is greater than the ceiling. None is too long, and the
simplified expression is printed, if no variable occurs twice, if no occurrences have been merged,
or if the ceiling is not too long. -/
theorem integers_of_simplified {s : String} {e : Expr} (h : parse s = .ok e) :
    ∃ r, simplified e = .ok r ∧
      (∀ n ∈ r.numerals,
        n.value.natAbs < (e.names.length - r.names.length + 1) * Decimal.bound) ∧
      (∀ n ∈ r.numerals, n.value.natAbs ≤ e.ceiling) ∧
      NotOverlong r ∧ Placed r ∧
      (e.names.Nodup ∨ r.names.length = e.names.length ∨ e.ceiling < Decimal.bound →
        ∃ text, printSimplified e = .ok text) := by
  have short := notOverlong_of_parse h
  obtain ⟨notOverlong, placed⟩ := placed_of_short short
  have start : Bounded e e := ⟨wellFormed_of_parse h, several_of_parse h, placed, notOverlong,
    Nat.le_refl _, Nat.le_refl _, fun _ => .refl _⟩
  obtain ⟨r, steps, bounded⟩ := exists_simplifyFrom (fun _ => exists_pass_bounded) start
    (Int.ofNat maxPasses) 0 maxPasses
  have simplified : simplified e = .ok r.expr := simplified_of_simplify steps
  have merged {n : Numeral} (hn : n ∈ r.expr.numerals) := bounded.natAbs_lt short hn
  have lower {n : Numeral} (hn : n ∈ r.expr.numerals) : n.value.natAbs ≤ e.ceiling :=
    (natAbs_le_ceiling bounded.several hn).trans bounded.ceiling
  refine ⟨r.expr, simplified, fun _ => merged, fun _ => lower, bounded.notOverlong, bounded.placed,
    ?_⟩
  intro few
  have written : ∀ n ∈ r.expr.numerals, n.value.natAbs < Decimal.bound := by
    intro n hn
    rcases few with nodup | same | low
    · have same := (bounded.names nodup).length_eq
      simpa [same] using merged hn
    · simpa [same] using merged hn
    · exact Nat.lt_of_le_of_lt (lower hn) low
  obtain ⟨text, written⟩ := exists_print? written
  have printed : print r.expr = .ok text := by rw [print, written]
  refine ⟨text, ?_⟩
  unfold printSimplified
  rw [simplified]
  exact printed

theorem integers_of_simplified_of_quotient :
    let s := "3 * x + y ^ 2 * ( 12 / 8 ) - x"
    let e := node .sub [node .add [node .mul [ofInt 3, .var "x"],
      node .mul [node .pow [.var "y", ofInt 2], node .div [ofInt 12, ofInt 8]]], .var "x"]
    parse s = .ok e ∧ e.ceiling < Decimal.bound ∧ ∃ text, printSimplified e = .ok text := by
  intro s e
  have hparse : parse s = .ok e := by decide +kernel
  have low : e.ceiling < Decimal.bound := by decide +kernel
  obtain ⟨_, _, _, _, _, _, printed⟩ := integers_of_simplified hparse
  exact ⟨hparse, low, printed (.inr (.inr low))⟩

/-! ### Terms that are merged -/

theorem pass_sum_of_multiple {n : Numeral} (many : 1 < n.value) (x : String) :
    pass (.node .add [.node .mul [.num n, .var x], .var x]) =
      .ok (.node .mul [ofInt (n.value + 1), .var x]) := by
  have more : 1 < n.value + 1 := by omega
  have flat : chainTermsAll .add [.node .mul [.num n, .var x], .var x] =
      [.node .mul [.num n, .var x], .var x] :=
    chainTermsAll_of_not_isNode (by simp [isNode])
  have counts : Chain.sum.counts [.node .mul [.num n, .var x], .var x] = [(x, n.value + 1)] := by
    have occurrences : [Expr.node .mul [.num n, .var x], .var x].filterMap (occurrences? .mul) =
        [(x, n.value), (x, 1)] := by
      simp [occurrences?, many]
    rw [Chain.counts, Chain.repetition_sum, occurrences, tally_cons]
    simp [total, tally]
  have others : Chain.sum.others [.node .mul [.num n, .var x], .var x] = [] := by
    simp [Chain.others, occurrences?, many]
  have collected : Chain.sum.collected [.node .mul [.num n, .var x], .var x] =
      [.node .mul [ofInt (n.value + 1), .var x]] := by
    have constants : Chain.sum.constants [.node .mul [.num n, .var x], .var x] = [] := rfl
    have single : n.value + 1 ≠ 1 := by omega
    rw [Chain.collected_eq, counts, others]
    simp [constants, more, single, multiple]
  have kept : pass (.node .mul [ofInt (n.value + 1), .var x]) =
      .ok (.node .mul [ofInt (n.value + 1), .var x]) :=
    pass_of_stable (stable_multiple .mul x (n.value + 1))
  have rewrites := Rewrites.sum [.node .mul [.num n, .var x], .var x]
  rw [flat, collected] at rewrites
  exact rewrites.pass_node (.cons kept .nil)

/-- A coefficient that is too long keeps a product from being printed. -/
theorem print_overlong_multiple {n : Nat} (long : Decimal.bound ≤ n) (x : String) :
    print (.node .mul [ofInt n, .var x]) = .error .unprintable := by
  have unwritten : Decimal.write? n = none := by
    rw [← Option.not_isSome_iff_eq_none, Decimal.write?_isSome_iff, Int.natAbs_natCast]
    exact Nat.not_lt.2 long
  have unprinted : print? (.node .mul [ofInt n, .var x]) = none := by
    rw [print?, printAll?, ofInt, print?]
    show ((Decimal.write? n).bind _ >>= _) = _
    rw [unwritten]
    rfl
  rw [print, unprinted]

theorem value_nines (k : Nat) : Decimal.value (List.replicate k '9') + 1 = 10 ^ k := by
  induction k with
  | zero => rfl
  | succ k ih =>
    unfold Decimal.value at *
    rw [List.replicate_succ, Nat.ofDigitChars_cons, Nat.ofDigitChars_eq_ofDigitChars_zero,
      List.length_replicate, Nat.pow_succ]
    have nine : '9'.toNat - '0'.toNat = 9 := by decide
    rw [nine]
    omega

/-- `99...9 * x + x`, with as many digits as can be read, becomes `(* 100...0 x)`, which cannot be
printed. -/
theorem unprintable_of_merged_terms :
    let nines := List.replicate maxDigits '9'
    let s := String.ofList (nines ++ [' ', '*', ' ', 'x', ' ', '+', ' ', 'x'])
    ∃ e, parse s = .ok e ∧
      simplified e = .ok (.node .mul [ofInt (Decimal.bound : Nat), .var "x"]) ∧
      printSimplified e = .error .unprintable := by
  intro nines s
  let n : Numeral := .ofWord nines (Decimal.value nines : Nat)
  have digits : nines ≠ [] ∧ ∀ c ∈ nines, c.isDigit = true := by
    refine ⟨List.ne_nil_of_length_pos (by rw [List.length_replicate]; decide), ?_⟩
    intro c hc
    rw [List.eq_of_mem_replicate hc]
    rfl
  have value : n.value + 1 = (Decimal.bound : Nat) := by
    have := value_nines maxDigits
    show ((Decimal.value nines : Nat) : Int) + 1 = _
    exact_mod_cast this
  have many : 1 < n.value := by
    have := Decimal.two_lt_bound
    omega
  -- Reading
  have spelling : Spelling n nines :=
    ⟨.plain digits (Nat.le_of_eq List.length_replicate), rfl⟩
  have x : IsVariable "x".toList := ⟨by decide, by simp, by simp⟩
  have product : Rendering (some .mul) _ _ :=
    .application (.num spelling) (.var x) (by simp) (by simp)
  have rendering : Rendering (some .add) (.node .add [.node .mul [.num n, .var "x"], .var "x"]) _ :=
    .application product (.var x) (by simp [Op.BareLeft, Op.Tighter]) (by simp)
  have word {c : Char} (hc : isBlank c = false) : IsWord [c] := isWord_singleton hc
  have spaced : Spaced [nines, ['*'], ['x'], ['+'], ['x']] s.toList := by
    rw [String.toList_ofList]
    exact .word (isWord_digits digits) rfl (.word (word rfl) rfl (.word (word rfl) rfl
      (.word (word rfl) rfl (.last (word rfl)))))
  have hparse := parse_of_rendering rendering spaced
  -- Simplification
  have passed := pass_sum_of_multiple many "x"
  rw [value] at passed
  have fixed := pass_of_stable (stable_multiple .mul "x" (Decimal.bound : Nat))
  have simplified : simplified (.node .add [.node .mul [.num n, .var "x"], .var "x"]) =
      .ok (.node .mul [ofInt (Decimal.bound : Nat), .var "x"]) := by
    obtain ⟨r, steps, expr, _⟩ := simplifyFrom_of_fixedPoint (n := 1)
      (by rw [passTimes, passed]; rfl) fixed (Int.ofNat maxPasses) 0
      (show 1 < maxPasses by decide)
    exact (simplified_of_simplify steps).trans (congrArg Except.ok expr)
  refine ⟨_, hparse, simplified, ?_⟩
  show (Expr.simplified _).bind print = _
  rw [simplified, Except.bind]
  exact print_overlong_multiple (Nat.le_refl _) "x"

end ArithTree.Expr
