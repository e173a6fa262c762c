import ArithTree.Proofs.Simplify.Collected
import ArithTree.Simplify.Pass

/-!
# Well-formed expressions

`Everywhere P e` says that `P` holds of every application inside `e`. An expression is `WellFormed`
if every difference, quotient and power in it has two arguments; sums and products may have any
number of them. What is read from a text is well-formed, and so is what a rule makes of it.

Subexpressions are reached through lists of arguments, so each fact comes twice: for an expression
and for all of a list.
-/

namespace ArithTree

/-- May an application of `op` have `count` arguments? -/
def Op.Admits (op : Op) (count : Nat) : Prop := op = .add ∨ op = .mul ∨ count = 2

instance (op : Op) (count : Nat) : Decidable (op.Admits count) :=
  @instDecidableOr _ _ (instDecidableEqOp _ _) (@instDecidableOr _ _ (instDecidableEqOp _ _)
    (instDecidableEqNat _ _))

theorem Op.admits_pair (op : Op) (left right : Expr) : op.Admits [left, right].length :=
  .inr (.inr rfl)

namespace Expr

/-! ## Every application -/

section Everywhere

variable (P : Op → List Expr → Prop)

mutual

/-- `P` holds of every application in an expression. -/
def Everywhere : Expr → Prop
  | .num _ => True
  | .var _ => True
  | .node op args => P op args ∧ EverywhereAll args

/-- `P` holds of every application in every expression of a list. -/
def EverywhereAll : List Expr → Prop
  | [] => True
  | e :: es => Everywhere e ∧ EverywhereAll es

end

@[simp] theorem everywhere_num (n : Numeral) : Everywhere P (.num n) := by
  rw [Everywhere]
  trivial

@[simp] theorem everywhere_var (x : String) : Everywhere P (.var x) := by
  rw [Everywhere]
  trivial

theorem everywhereAll_iff {es : List Expr} :
    EverywhereAll P es ↔ ∀ e ∈ es, Everywhere P e := by
  induction es with
  | nil => simp [EverywhereAll]
  | cons e es ih => rw [EverywhereAll, ih, List.forall_mem_cons]

theorem everywhere_node {op : Op} {args : List Expr} :
    Everywhere P (.node op args) ↔ P op args ∧ ∀ e ∈ args, Everywhere P e := by
  rw [Everywhere, everywhereAll_iff]

theorem Everywhere.imp {Q : Op → List Expr → Prop} (h : ∀ op args, P op args → Q op args)
    {e : Expr} (he : Everywhere P e) : Everywhere Q e := by
  induction e using Expr.induction with
  | num | var => simp
  | node op args ih =>
    rw [everywhere_node] at he ⊢
    exact ⟨h op args he.1, fun e hmem => ih e hmem (he.2 e hmem)⟩

theorem everywhere_and {Q : Op → List Expr → Prop} {e : Expr} :
    Everywhere (fun op args => P op args ∧ Q op args) e ↔ Everywhere P e ∧ Everywhere Q e := by
  induction e using Expr.induction with
  | num | var => simp
  | node op args ih =>
    simp only [everywhere_node]
    constructor
    · rintro ⟨⟨p, q⟩, h⟩
      exact ⟨⟨p, fun e he => ((ih e he).1 (h e he)).1⟩, ⟨q, fun e he => ((ih e he).1 (h e he)).2⟩⟩
    · rintro ⟨⟨p, hp⟩, ⟨q, hq⟩⟩
      exact ⟨⟨p, q⟩, fun e he => (ih e he).2 ⟨hp e he, hq e he⟩⟩

variable {P}

theorem everywhere_of_mem_chainTermsAll {op : Op} {es : List Expr} (h : ∀ e ∈ es, Everywhere P e) :
    ∀ t ∈ chainTermsAll op es, Everywhere P t := by
  refine chainTermsAll_induction (motive := fun es ts => (∀ e ∈ es, Everywhere P e) →
    ∀ t ∈ ts, Everywhere P t) ?nil ?single ?splice es h
  case nil => simp
  case single =>
    intro e es ts _ ih h
    rw [List.forall_mem_cons] at h ⊢
    exact ⟨h.1, ih h.2⟩
  case splice =>
    intro args es ts ts' ihargs ihes h
    rw [List.forall_mem_cons] at h
    rw [List.forall_mem_append]
    exact ⟨ihargs ((everywhere_node P).1 h.1).2, ihes h.2⟩

theorem everywhere_multiple {repetition : Op} {v : String} {n : Int}
    (times : P .mul [ofInt n, .var v])
    (power : P .pow [.var v, ofInt n]) : Everywhere P (multiple repetition v n) := by
  unfold multiple
  split
  · exact (everywhere_node P).2 ⟨times, by simp [ofInt]⟩
  · exact (everywhere_node P).2 ⟨power, by simp [ofInt]⟩

/-- Collecting like terms makes no applications but repetitions of variables. -/
theorem everywhere_of_mem_collected (times : ∀ n v, 1 < n → P .mul [ofInt n, .var v])
    (power : ∀ v n, 1 < n → P .pow [.var v, ofInt n]) {c : Chain} {args : List Expr} {e : Expr}
    (h : ∀ a ∈ args, Everywhere P a) (he : e ∈ c.collected args) : Everywhere P e := by
  simp only [Chain.collected, List.mem_append, List.mem_map] at he
  rcases he with ((⟨n, _, rfl⟩ | ⟨⟨v, n⟩, ht, rfl⟩) | he) | ⟨⟨v, n⟩, _, rfl⟩
  · exact everywhere_num P _
  · have many : 1 < n := by simpa using (List.mem_filter.1 ht).2
    exact everywhere_multiple (times n v many) (power v n many)
  · exact h e (List.mem_filter.1 he).1
  · exact everywhere_var P v

variable (P)

variable [∀ op args, Decidable (P op args)]

mutual

def decEverywhere : (e : Expr) → Decidable (Everywhere P e)
  | .num n => .isTrue (everywhere_num P n)
  | .var x => .isTrue (everywhere_var P x)
  | .node op args =>
    @decidable_of_iff _ (P op args ∧ EverywhereAll P args) (by rw [Everywhere])
      (@instDecidableAnd _ _ _ (decEverywhereAll args))

def decEverywhereAll : (es : List Expr) → Decidable (EverywhereAll P es)
  | [] => .isTrue (by rw [EverywhereAll]; trivial)
  | e :: es =>
    @decidable_of_iff _ (Everywhere P e ∧ EverywhereAll P es) (by rw [EverywhereAll])
      (@instDecidableAnd _ _ (decEverywhere e) (decEverywhereAll es))

end

instance : DecidablePred (Everywhere P) := decEverywhere P

end Everywhere

/-! ## Numbers of arguments -/

/-- Every application has a number of arguments that its operator can have. -/
abbrev WellFormed : Expr → Prop := Everywhere fun op args => op.Admits args.length

theorem wellFormed_node {op : Op} {args : List Expr} :
    WellFormed (.node op args) ↔ op.Admits args.length ∧ ∀ e ∈ args, WellFormed e :=
  everywhere_node _

theorem wellFormed_ofInt (n : Int) : WellFormed (ofInt n) := everywhere_num _ _

/-- A sum or a product is well-formed if its arguments are. -/
theorem wellFormed_add {args : List Expr} :
    WellFormed (.node .add args) ↔ ∀ e ∈ args, WellFormed e := by
  simp [wellFormed_node, Op.Admits]

theorem wellFormed_mul {args : List Expr} :
    WellFormed (.node .mul args) ↔ ∀ e ∈ args, WellFormed e := by
  simp [wellFormed_node, Op.Admits]

theorem wellFormed_pair {op : Op} {left right : Expr} :
    WellFormed (.node op [left, right]) ↔ WellFormed left ∧ WellFormed right := by
  simp [wellFormed_node, Op.Admits]

end Expr

end ArithTree
