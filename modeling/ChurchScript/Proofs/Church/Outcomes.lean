import ChurchScript.Proofs.Church.Operators

/-!
# What compiled operators come out as

The text of a binary operator on two numerals, read back, and whether its term reduces
to the value of the operator. It does for sums and products, for quotients that are
zero, and for comparisons of zero with itself, and for nothing else: the other terms
reduce to normal forms of other shapes (`outcome_eq_iff`).
-/
namespace ChurchScript

open Script

namespace Script.BinaryOperator

/-- The value of an operator on two numbers. A difference stops at zero, and there is no
quotient by zero. -/
def value? : BinaryOperator → Nat → Nat → Option Value
  | add, m, n => some (.number (m + n))
  | sub, m, n => some (.number (m - n))
  | mul, m, n => some (.number (m * n))
  | div, m, n => if n = 0 then none else some (.number (m / n))
  | eq, m, n | strictEq, m, n => some (.boolean (decide (m = n)))
  | notEq, m, n | strictNotEq, m, n => some (.boolean (decide (m ≠ n)))
  | lt, m, n => some (.boolean (decide (m < n)))
  | le, m, n => some (.boolean (decide (m ≤ n)))
  | gt, m, n => some (.boolean (decide (n < m)))
  | ge, m, n => some (.boolean (decide (n ≤ m)))
  | other _, _, _ => none

/-- Where the encoding of an operator computes its value. -/
def Computed : BinaryOperator → Nat → Nat → Prop
  | add, _, _ | mul, _, _ => True
  | div, m, n => m < n
  | lt, m, n | le, m, n | gt, m, n | ge, m, n => m = 0 ∧ n = 0
  | _, _, _ => False

end Script.BinaryOperator

namespace Church

open Skeleton

section Operators

/-- What an inequation reduces to. -/
def notEqualOutcome (m n : Nat) : Skeleton :=
  if 0 < m ∧ n = 0 then boolean false else flipped

theorem not_equal_reduces (m n : Nat) :
    Reduces (Combinator.not.skeleton.apps [equalOutcome m n]) (notEqualOutcome m n) := by
  by_cases passed : 0 < m ∧ n = 0
  · simp only [equalOutcome, notEqualOutcome, if_pos passed]
    exact not_reduces true
  · simp only [equalOutcome, notEqualOutcome, if_neg passed]
    exact not_identity_reduces

/-- What a binary operator on two numerals reduces to. -/
def outcome? : BinaryOperator → Nat → Nat → Option Skeleton
  | .add, m, n => some (numeral (m + n))
  | .sub, m, n => some (lams 2 (app (iterate (bound 1) (bound 0) (n - 1)) (numeral m)))
  | .mul, m, n => some (numeral (m * n))
  | .div, _, _ => some (numeral 0)
  | .eq, m, n | .strictEq, m, n => some (equalOutcome m n)
  | .notEq, m, n | .strictNotEq, m, n => some (notEqualOutcome m n)
  | .lt, m, n => some (lessOutcome m n)
  | .le, m, n => some (notLessOutcome n m)
  | .gt, m, n => some (lessOutcome n m)
  | .ge, m, n => some (notLessOutcome m n)
  | .other _, _, _ => none

variable {op : BinaryOperator} {m n : Nat} {s : Skeleton}

/-- A combinator on two numerals, in compiled terms. -/
theorem use_numerals_reduces (I : Interpretation) (c : Combinator) (m n : Nat)
    {result : Skeleton} (reduces : Reduces (c.skeleton.apps [numeral m, numeral n]) result) :
    Reduces (I.denote (termTarget.use c [.numeral m, .numeral n])) result := by
  rw [Interpretation.denote_use]
  simpa [I.numeral] using reduces

theorem binary_reduces (I : Interpretation) (outcome : outcome? op m n = some s) :
    ∃ t, binary termTarget op (.numeral m) (.numeral n) = .ok t ∧ Reduces (I.denote t) s := by
  have negated : Reduces (I.denote (termTarget.use .not [termTarget.use .eq
      [.numeral m, .numeral n]])) (notEqualOutcome m n) := by
    rw [Interpretation.denote_use]
    have equal := use_numerals_reduces I .eq m n (eq_reduces m n)
    exact (Reduces.apps_arguments _ (.cons equal .nil)).trans (not_equal_reduces m n)
  cases op <;> cases outcome
  case add => exact ⟨_, rfl, use_numerals_reduces I .add m n (add_reduces m n)⟩
  case sub => exact ⟨_, rfl, use_numerals_reduces I .sub m n (sub_reduces m n)⟩
  case mul => exact ⟨_, rfl, use_numerals_reduces I .mul m n (mul_reduces m n)⟩
  case div => exact ⟨_, rfl, use_numerals_reduces I .div m n (div_reduces m n)⟩
  case eq => exact ⟨_, rfl, use_numerals_reduces I .eq m n (eq_reduces m n)⟩
  case strictEq => exact ⟨_, rfl, use_numerals_reduces I .eq m n (eq_reduces m n)⟩
  case notEq => exact ⟨_, rfl, negated⟩
  case strictNotEq => exact ⟨_, rfl, negated⟩
  case lt => exact ⟨_, rfl, use_numerals_reduces I .lt m n (lt_reduces m n)⟩
  case le => exact ⟨_, rfl, use_numerals_reduces I .le m n (le_reduces m n)⟩
  case gt => exact ⟨_, rfl, use_numerals_reduces I .lt n m (lt_reduces n m)⟩
  case ge => exact ⟨_, rfl, use_numerals_reduces I .ge m n (ge_reduces m n)⟩

theorem equalOutcome_normal (m n : Nat) : (equalOutcome m n).Normal := by
  unfold equalOutcome
  split
  · exact boolean_normal true
  · trivial

theorem notEqualOutcome_normal (m n : Nat) : (notEqualOutcome m n).Normal := by
  unfold notEqualOutcome
  split
  · exact boolean_normal false
  · exact flipped_normal

theorem lessOutcome_normal (m n : Nat) : (lessOutcome m n).Normal := by
  unfold lessOutcome
  split
  · exact dropping_normal m
  · trivial

theorem notLessOutcome_normal (m n : Nat) : (notLessOutcome m n).Normal := by
  unfold notLessOutcome
  split_ifs
  · exact boolean_normal true
  · exact dropping_normal m
  · exact flipped_normal

theorem difference_normal (m k : Nat) :
    (lams 2 (app (iterate (bound 1) (bound 0) k) (numeral m))).Normal := by
  refine ⟨?_, iterate_normal (f := bound 1) (x := bound 0) rfl trivial trivial k, numeral_normal m⟩
  cases k <;> rfl

theorem outcome_normal (outcome : outcome? op m n = some s) : s.Normal := by
  cases op <;> cases outcome
  case sub => exact difference_normal m (n - 1)
  case add | mul | div => exact numeral_normal _
  case eq | strictEq => exact equalOutcome_normal m n
  case notEq | strictNotEq => exact notEqualOutcome_normal m n
  case lt | gt => exact lessOutcome_normal _ _
  case le | ge => exact notLessOutcome_normal _ _

theorem difference_ne_numeral (m k result : Nat) :
    lams 2 (app (iterate (bound 1) (bound 0) k) (numeral m)) ≠ numeral result := by
  intro same
  -- The argument is an abstraction on one side only.
  cases result with
  | zero => simp [numeral, lams, iterate] at same
  | succ result => cases result <;> simp [numeral, lams, iterate] at same

theorem numeral_zero_eq_iff (result : Nat) : numeral 0 = numeral result ↔ result = 0 := by
  cases result <;> simp [numeral, lams, iterate]

theorem dropping_eq_boolean_iff (count : Nat) (b : Bool) :
    dropping count = boolean b ↔ count = 0 ∧ b = false := by
  match count with
  | 0 => cases b <;> simp [dropping, boolean, lams]
  | 1 => simp [dropping, boolean, lams]
  | count + 2 => cases count <;> simp [dropping, boolean, lams]

theorem flipped_ne_boolean (b : Bool) : flipped ≠ boolean b := by
  simp [flipped, boolean, lams]

theorem identity_ne_boolean (b : Bool) : identity ≠ boolean b := by
  simp [identity, boolean, lams]

theorem equalOutcome_ne (m n : Nat) : equalOutcome m n ≠ boolean (decide (m = n)) := by
  unfold equalOutcome
  split
  · have differ : m ≠ n := by omega
    simp [differ, boolean, lams]
  · exact identity_ne_boolean _

theorem notEqualOutcome_ne (m n : Nat) : notEqualOutcome m n ≠ boolean (decide (m ≠ n)) := by
  unfold notEqualOutcome
  split
  · have differ : m ≠ n := by omega
    simp [differ, boolean, lams]
  · exact flipped_ne_boolean _

theorem lessOutcome_eq_iff (m n : Nat) :
    lessOutcome m n = boolean (decide (m < n)) ↔ m = 0 ∧ n = 0 := by
  unfold lessOutcome
  split
  · simp [dropping_eq_boolean_iff, *]
  · simp [identity_ne_boolean, *]

theorem notLessOutcome_eq_iff (m n : Nat) :
    notLessOutcome m n = boolean (decide (n ≤ m)) ↔ m = 0 ∧ n = 0 := by
  unfold notLessOutcome
  split_ifs
  · simp [*]
  · simp [dropping_eq_boolean_iff, *]
  · simp [flipped_ne_boolean, *]

/-- What an operator comes out as is its value only where the encoding computes it. -/
theorem outcome_eq_iff (outcome : outcome? op m n = some s) {v : Value}
    (value : op.value? m n = some v) : s = v.skeleton ↔ op.Computed m n := by
  cases op <;> cases outcome
  case add | mul => cases value; exact iff_of_true rfl trivial
  case sub => cases value; exact iff_of_false (difference_ne_numeral m _ _) not_false
  case div =>
    by_cases zero : n = 0
    · simp [BinaryOperator.value?, zero] at value
    · simp only [BinaryOperator.value?, if_neg zero, Option.some.injEq] at value
      subst value
      exact (numeral_zero_eq_iff _).trans (Nat.div_eq_zero_iff_lt (Nat.pos_of_ne_zero zero))
  case eq | strictEq => cases value; exact iff_of_false (equalOutcome_ne m n) not_false
  case notEq | strictNotEq => cases value; exact iff_of_false (notEqualOutcome_ne m n) not_false
  case lt => cases value; exact lessOutcome_eq_iff m n
  case gt => cases value; exact (lessOutcome_eq_iff n m).trans and_comm
  case ge => cases value; exact notLessOutcome_eq_iff m n
  case le => cases value; exact (notLessOutcome_eq_iff n m).trans and_comm

theorem value_normal (v : Value) : v.skeleton.Normal := by
  cases v with
  | number n => exact numeral_normal n
  | boolean b => exact boolean_normal b

end Operators

section Reading

variable {codes : List Code} {terms : List Term}

theorem use_reads (c : Combinator) (arguments : List.Forall₂ Code.Reads codes terms) :
    (Code.target.use c codes).Reads (termTarget.use c terms) :=
  .apply (.combinator c) arguments

theorem binary_reads (op : BinaryOperator) {a b : Code} {t u v : Term} (left : a.Reads t)
    (right : b.Reads u) (translated : binary termTarget op t u = .ok v) :
    ∃ code, binary Code.target op a b = .ok code ∧ code.Reads v := by
  have inOrder (c : Combinator) := use_reads c (.cons left (.cons right .nil))
  have swapped (c : Combinator) := use_reads c (.cons right (.cons left .nil))
  cases op <;> cases translated
  case gt => exact ⟨_, rfl, swapped .lt⟩
  case notEq | strictNotEq => exact ⟨_, rfl, use_reads .not (.cons (inOrder .eq) .nil)⟩
  all_goals exact ⟨_, rfl, inOrder _⟩

/-- What the text of code is read as, unless it is too long or nested too deep. Every level
of nesting takes a character, so a text is read if its length is within the limit. -/
def ReadBack (code : Code) (t : Term) : Prop :=
  (∀ u, Term.parse code.text = .ok u → u = t) ∧
    (code.text.length ≤ Term.maxDepth → Term.parse code.text = .ok t)

theorem readBack_of_reads {code : Code} {t : Term} (reads : code.Reads t) : ReadBack code t := by
  obtain ⟨operand, spelled, rfl⟩ := reads
  rw [← Term.Phrase.single_lexemes] at spelled
  have levels : (Term.Phrase.single operand).levels ≤ code.text.length :=
    (Term.Phrase.single operand).levels_le.trans (spelled ▸ Lexeme.length_all_le _)
  have limits : Term.maxDepth ≤ Token.maxLength := by decide
  unfold ReadBack
  rw [Term.parse_spelled _ _ spelled]
  constructor
  · intro u parsed
    split at parsed
    · cases parsed
    · split at parsed
      · cases parsed
        rfl
      · cases parsed
  · intro short
    rw [if_neg (by omega), if_pos (by omega)]
    rfl

theorem numeralText_length (n : Nat) : (numeralText n).length = 3 * n + 9 := by
  have inner : (iterateText n).length = 3 * n + 1 := by
    induction n with
    | zero => rfl
    | succ n ih =>
      have marks : "f(".length = 2 ∧ ")".length = 1 := by decide
      simp only [iterateText, String.length_append, ih]
      omega
  have marks : "(λf.λx.".length = 7 ∧ ")".length = 1 := by decide
  simp only [numeralText, String.length_append, inner]
  omega

/-- Each argument of a combinator stands behind a blank. -/
def argumentsLength : List Code → Nat
  | [] => 0
  | code :: rest => 1 + code.text.length + argumentsLength rest

theorem use_length (c : Combinator) (arguments : List Code) :
    (Code.target.use c arguments).text.length =
      c.text.length + argumentsLength arguments + 2 := by
  have joined : (String.join ((Code.texts arguments).map (" " ++ ·))).length =
      argumentsLength arguments := by
    induction arguments with
    | nil => rfl
    | cons code rest ih =>
      have blank : " ".length = 1 := by decide
      simp only [Code.texts, argumentsLength, List.map_cons, String.join_cons,
        String.length_append, ih, blank]
  have text : (Code.target.use c arguments).text =
      "(" ++ c.text ++ String.join ((Code.texts arguments).map (" " ++ ·)) ++ ")" := by
    simp [Target.use, Code.target, Code.text, applyText]
  have parens : "(".length = 1 ∧ ")".length = 1 := by decide
  simp only [text, String.length_append, joined]
  omega

end Reading

section Text

variable {op : BinaryOperator} {m n : Nat} {s : Skeleton}

/-- The text of an operator on two numerals, read back. -/
theorem binary_text (outcome : outcome? op m n = some s) :
    ∃ code t, binary Code.target op (.numeral m) (.numeral n) = .ok code ∧ ReadBack code t ∧
      Reduces t.resolve.skeleton s := by
  obtain ⟨t, translated, reduces⟩ := binary_reduces (.ofArguments [] []) outcome
  obtain ⟨code, compiled, reads⟩ := binary_reads op (.numeral m) (.numeral n) translated
  refine ⟨code, t, compiled, readBack_of_reads reads, ?_⟩
  rw [Term.resolve_skeleton]
  exact reduces

/-- The outcome is the only normal form, so no other value is reduced to. -/
theorem outcome_reduces_iff {start : Skeleton} {v : Value} (outcome : outcome? op m n = some s)
    (reduces : Reduces start s) (value : op.value? m n = some v) :
    Reduces start v.term.resolve.skeleton ↔ op.Computed m n := by
  rw [Term.resolve_skeleton, Value.term_nameless, ← outcome_eq_iff outcome value]
  constructor
  · intro computed
    exact Skeleton.Normal.unique (outcome_normal outcome) (value_normal v) reduces computed
  · rintro rfl
    exact reduces

end Text

end Church
end ChurchScript
