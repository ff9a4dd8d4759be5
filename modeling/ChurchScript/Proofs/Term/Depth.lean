import Mathlib.Data.Nat.Choose.Basic
import ChurchScript.Proofs.Term.Printing

/-!
# The depth of terms that are read

The reader counts the arguments of an application from the left, but in the term the
first argument lies deepest, and the head below all of them (`Phrase.bottomFrom_eq`). So
the levels of nesting do not bound the depth of the term: a deep head or argument with
more arguments behind it lies deeper than it was counted. What the levels give is a
triangular number (`Phrase.depth_le_choose`), which is reached (`tower_depth`); and they
do bound the depth where parentheses stand around the last operand only
(`Phrase.depth_le_levels`).
-/
namespace ChurchScript.Term

/-- The number of nodes below the root on the longest path. -/
def descent : Term → Nat
  | var .. => 0
  | abs _ _ body => body.descent + 1
  | app f a => max f.descent a.descent + 1

/-- The work list visits the longest path of each of its terms. -/
theorem deepest_eq (best : Nat) (work : List (Term × Nat)) :
    deepest best work = work.foldl (fun best item => max best (item.2 + item.1.descent)) best := by
  fun_induction deepest best work with
  | case1 best => rfl
  | case2 best x index binder level rest ih => simpa [descent] using ih
  | case3 best x binder body level rest ih =>
    simp only [ih, List.foldl_cons, descent]
    congr 1
    omega
  | case4 best f a level rest ih =>
    simp only [ih, List.foldl_cons, descent]
    congr 1
    omega

theorem depth_eq (t : Term) : t.depth = t.descent + 1 := by
  simp [depth, deepest_eq, Nat.add_comm]

@[simp] theorem depth_var (x : String) (index : Option Nat) (binder : Option Binder) :
    (var x index binder).depth = 1 := by
  simp [depth_eq, descent]

@[simp] theorem depth_abs (x : String) (binder : Option Binder) (body : Term) :
    (abs x binder body).depth = body.depth + 1 := by
  simp [depth_eq, descent]

@[simp] theorem depth_app (f a : Term) : (app f a).depth = max f.depth a.depth + 1 := by
  simp only [depth_eq, descent]
  omega

theorem depth_pos (t : Term) : 0 < t.depth := by
  rw [depth_eq]
  exact Nat.succ_pos _

mutual

/-- The deepest node of the term of a phrase that stands at the given depth. Every
argument lies one node below the argument behind it, and the head below all of them;
parentheses are no node. -/
def Phrase.bottomFrom (depth : Nat) : Phrase → Nat
  | .abstraction _ body => body.bottomFrom (depth + 1)
  | .application head arguments =>
    max (head.bottomFrom (depth + arguments.length)) (bottomArgument depth arguments)

def Operand.bottomFrom (depth : Nat) : Operand → Nat
  | .name _ => depth
  | .group inner => inner.bottomFrom depth

def bottomArgument (depth : Nat) : List Operand → Nat
  | [] => depth
  | operand :: rest =>
    max (operand.bottomFrom (depth + rest.length + 1)) (bottomArgument depth rest)

end

mutual

theorem Phrase.bottomFrom_eq (phrase : Phrase) (depth : Nat) :
    phrase.bottomFrom (depth + 1) = depth + phrase.term.depth := by
  cases phrase with
  | abstraction x body =>
    have inner := body.bottomFrom_eq (depth + 1)
    simp only [Phrase.bottomFrom, Phrase.term, depth_abs]
    omega
  | application head others =>
    have first := head.bottomFrom_eq (depth + others.length)
    have whole := applyOperands_depth_eq others head.term depth
    simp only [Phrase.bottomFrom, Phrase.term, Nat.add_right_comm depth 1] at first ⊢
    omega

theorem Operand.bottomFrom_eq (operand : Operand) (depth : Nat) :
    operand.bottomFrom (depth + 1) = depth + operand.term.depth := by
  cases operand with
  | name x => simp [Operand.bottomFrom, Operand.term]
  | group inner => exact inner.bottomFrom_eq depth

theorem applyOperands_depth_eq (operands : List Operand) (f : Term) (depth : Nat) :
    depth + (applyOperands f operands).depth =
      max (depth + operands.length + f.depth) (bottomArgument (depth + 1) operands) := by
  have function := f.depth_pos
  cases operands with
  | nil =>
    simp only [applyOperands, bottomArgument, List.length_nil]
    omega
  | cons operand others =>
    have first := operand.bottomFrom_eq (depth + others.length + 1)
    have behind := applyOperands_depth_eq others (app f operand.term) depth
    simp only [applyOperands, bottomArgument, List.length_cons, depth_app,
      Nat.add_right_comm depth 1] at behind ⊢
    omega

end

mutual

/-- Every node on a path is opened by a lexeme of its own. -/
theorem Phrase.depth_le_length (phrase : Phrase) : phrase.term.depth ≤ phrase.lexemes.length := by
  cases phrase with
  | abstraction x body =>
    have inner := body.depth_le_length
    simp only [Phrase.term, Phrase.lexemes, depth_abs, List.length_cons]
    omega
  | application head others =>
    have first := head.depth_le_length
    have behind := applyOperands_depth_le_length others head.term
    simp only [Phrase.term, Phrase.lexemes, List.length_append]
    omega

theorem Operand.depth_le_length (operand : Operand) :
    operand.term.depth ≤ operand.lexemes.length := by
  cases operand with
  | name x => simp [Operand.term, Operand.lexemes]
  | group inner =>
    have inside := inner.depth_le_length
    simp only [Operand.term, Operand.lexemes, List.length_cons, List.length_append]
    omega

theorem applyOperands_depth_le_length (operands : List Operand) (f : Term) :
    (applyOperands f operands).depth ≤ f.depth + (operandLexemes operands).length := by
  cases operands with
  | nil => simp [applyOperands]
  | cons operand others =>
    have first := operand.depth_le_length
    have behind := applyOperands_depth_le_length others (app f operand.term)
    have function := f.depth_pos
    have argument := operand.term.depth_pos
    simp only [applyOperands, operandLexemes, List.length_append, depth_app] at behind ⊢
    omega

end

theorem applyOperands_depth_le {bound : Nat} (operands : List Operand) {f : Term}
    (function : f.depth ≤ bound) (each : ∀ operand ∈ operands, operand.term.depth ≤ bound) :
    (applyOperands f operands).depth ≤ bound + operands.length := by
  induction operands generalizing f bound with
  | nil => exact function
  | cons operand others ih =>
    have first := each operand (by simp)
    have applied : (app f operand.term).depth ≤ bound + 1 := by
      rw [depth_app]
      omega
    have behind := ih applied fun other member =>
      (each other (by simp [member])).trans (Nat.le_succ bound)
    rw [applyOperands, List.length_cons]
    omega

theorem length_le_operandLevels (operands : List Operand) :
    operands.length ≤ operandLevels operands := by
  induction operands with
  | nil => exact Nat.le_refl 0
  | cons operand others ih =>
    simp only [List.length_cons, operandLevels]
    omega

theorem levels_le_operandLevels {operands : List Operand} {operand : Operand}
    (member : operand ∈ operands) : operand.levels ≤ operandLevels operands := by
  induction operands with
  | nil => cases member
  | cons first others ih =>
    simp only [operandLevels]
    rcases List.mem_cons.mp member with rfl | later
    · omega
    · have := ih later
      omega

theorem Phrase.levels_pos (phrase : Phrase) : 0 < phrase.levels := by
  cases phrase <;> simp [Phrase.levels]

theorem choose_succ_two (n : Nat) : (n + 1).choose 2 = n + n.choose 2 := by
  rw [Nat.choose_succ_succ', Nat.choose_one_right]

mutual

/-- What the levels of a phrase say about the depth of its term. -/
theorem Phrase.depth_le_choose (phrase : Phrase) :
    phrase.term.depth ≤ 1 + phrase.levels.choose 2 := by
  cases phrase with
  | abstraction x body =>
    have inner := body.depth_le_choose
    have pos := body.levels_pos
    simp only [Phrase.term, Phrase.levels, depth_abs, choose_succ_two]
    omega
  | application head others =>
    -- The head and every argument are read with fewer levels than the whole.
    obtain ⟨levels, atMost⟩ : ∃ levels, max head.levels (operandLevels others) = levels := ⟨_, rfl⟩
    have first : head.term.depth ≤ 1 + levels.choose 2 := by
      have fewer : head.levels.choose 2 ≤ levels.choose 2 := Nat.choose_le_choose 2 (by omega)
      exact head.depth_le_choose.trans (Nat.add_le_add_left fewer 1)
    have each : ∀ operand ∈ others, operand.term.depth ≤ 1 + levels.choose 2 := by
      intro operand member
      have inside := levels_le_operandLevels member
      have fewer : operand.levels.choose 2 ≤ levels.choose 2 := Nat.choose_le_choose 2 (by omega)
      exact (operands_depth_le_choose others operand member).trans (Nat.add_le_add_left fewer 1)
    have whole := applyOperands_depth_le others first each
    have count := length_le_operandLevels others
    simp only [Phrase.term, Phrase.levels, atMost, choose_succ_two]
    omega

theorem Operand.depth_le_choose (operand : Operand) :
    operand.term.depth ≤ 1 + operand.levels.choose 2 := by
  cases operand with
  | name x => simp [Operand.term]
  | group inner => exact inner.depth_le_choose

theorem operands_depth_le_choose (operands : List Operand) :
    ∀ operand ∈ operands, operand.term.depth ≤ 1 + operand.levels.choose 2 := by
  cases operands with
  | nil => intro operand member; cases member
  | cons first others =>
    have here := first.depth_le_choose
    have behind := operands_depth_le_choose others
    intro operand member
    rcases List.mem_cons.mp member with rfl | later
    · exact here
    · exact behind operand later

end

/-- A phrase whose term is as deep as its levels allow: every head is the phrase before
it, in parentheses, with as many arguments as its level has room for. -/
def tower : Nat → Phrase
  | 0 => .application (.name "x") []
  | n + 1 => .application (.group (tower n)) (List.replicate (n + 1) (.name "x"))

theorem operandLevels_replicate (count : Nat) (x : String) :
    operandLevels (List.replicate count (.name x)) = count := by
  induction count with
  | zero => rfl
  | succ count ih => simp [List.replicate_succ, operandLevels, Operand.levels, ih]

theorem applyOperands_replicate_depth (count : Nat) (x : String) (f : Term) :
    (applyOperands f (List.replicate count (.name x))).depth = f.depth + count := by
  induction count generalizing f with
  | zero => rfl
  | succ count ih =>
    have pos := f.depth_pos
    rw [List.replicate_succ, applyOperands, ih, depth_app, Operand.term, depth_var]
    omega

theorem tower_levels (n : Nat) : (tower n).levels = n + 1 := by
  induction n with
  | zero => rfl
  | succ n ih => simp [tower, Phrase.levels, Operand.levels, operandLevels_replicate, ih]

theorem tower_depth (n : Nat) : (tower n).term.depth = 1 + (n + 1).choose 2 := by
  induction n with
  | zero => simp [tower, Phrase.term, applyOperands, Operand.term]
  | succ n ih =>
    rw [tower, Phrase.term, applyOperands_replicate_depth, Operand.term, ih,
      choose_succ_two (n + 1)]
    omega

def Operand.IsName (operand : Operand) : Prop := ∃ x, operand = .name x

mutual

/-- Parentheses stand around the last operand of an application only. -/
def Phrase.GroupsLast : Phrase → Prop
  | .abstraction _ body => body.GroupsLast
  | .application head arguments =>
    head.GroupsLast ∧ (arguments = [] ∨ head.IsName) ∧ argumentsGroupsLast arguments

def Operand.GroupsLast : Operand → Prop
  | .name _ => True
  | .group inner => inner.GroupsLast

def argumentsGroupsLast : List Operand → Prop
  | [] => True
  | operand :: rest =>
    operand.GroupsLast ∧ (rest = [] ∨ operand.IsName) ∧ argumentsGroupsLast rest

end

mutual

theorem Phrase.depth_le_levels (phrase : Phrase) (last : phrase.GroupsLast) :
    phrase.term.depth ≤ phrase.levels := by
  cases phrase with
  | abstraction x body =>
    have inner := body.depth_le_levels last
    simp only [Phrase.term, Phrase.levels, depth_abs]
    omega
  | application head others =>
    obtain ⟨headLast, alone | ⟨x, rfl⟩, othersLast⟩ := last
    · subst alone
      have first := head.depth_le_levels headLast
      simp only [Phrase.term, applyOperands, Phrase.levels]
      omega
    · have behind := applyOperands_depth_le_levels others othersLast (.name x)
      simp only [Phrase.term, Operand.term, Phrase.levels, depth_var] at behind ⊢
      omega

theorem Operand.depth_le_levels (operand : Operand) (last : operand.GroupsLast) :
    operand.term.depth ≤ operand.levels + 1 := by
  cases operand with
  | name x => simp [Operand.term]
  | group inner => exact (inner.depth_le_levels last).trans (Nat.le_succ _)

theorem applyOperands_depth_le_levels (operands : List Operand)
    (last : argumentsGroupsLast operands) (f : Term) :
    (applyOperands f operands).depth ≤ f.depth + operandLevels operands := by
  cases operands with
  | nil => simp [applyOperands]
  | cons operand others =>
    have function := f.depth_pos
    obtain ⟨operandLast, alone | ⟨x, rfl⟩, othersLast⟩ := last
    · subst alone
      have only := operand.depth_le_levels operandLast
      simp only [applyOperands, operandLevels, depth_app]
      omega
    · have behind := applyOperands_depth_le_levels others othersLast (app f (.name x))
      simp only [applyOperands, operandLevels, Operand.term, depth_app, depth_var] at behind ⊢
      omega

end

/-- The depth of a term that is read, and when it is within the limit. Only the levels of
the phrase are checked, which count an application from the other end; they bound the
depth by a triangular number, or by themselves where parentheses stand around last
operands only. The text is an upper bound in any case. -/
theorem parsed_depth_le_iff (source : String) (t : Term) (parsed : parse source = .ok t) :
    t.depth ≤ source.length ∧
      ∃ phrase : Phrase, Lexeme.all source.toList = phrase.lexemes ∧ phrase.term = t ∧
        phrase.deepestFrom 1 ≤ maxDepth ∧
        (t.depth ≤ maxDepth ↔ phrase.bottomFrom 1 ≤ maxDepth) ∧
        t.depth ≤ 1 + (phrase.deepestFrom 1).choose 2 ∧
        (phrase.GroupsLast → t.depth ≤ maxDepth) := by
  obtain ⟨phrase, spelled, rfl, fits⟩ := phrase_of_parse parsed
  have short : phrase.term.depth ≤ source.length :=
    calc phrase.term.depth ≤ phrase.lexemes.length := phrase.depth_le_length
      _ = (Lexeme.all source.toList).length := by rw [spelled]
      _ ≤ source.toList.length := Lexeme.length_all_le _
      _ = source.length := String.length_toList
  have levels : phrase.deepestFrom 1 = phrase.levels := by
    rw [phrase.deepestFrom_eq, Nat.zero_add]
  have bottom : phrase.bottomFrom 1 = phrase.term.depth := by
    rw [phrase.bottomFrom_eq, Nat.zero_add]
  refine ⟨short, phrase, spelled, rfl, ?_, ?_, ?_, ?_⟩
  · rwa [levels]
  · rw [bottom]
  · rw [levels]
    exact phrase.depth_le_choose
  · intro last
    exact (phrase.depth_le_levels last).trans fits

theorem lastGroup_depth_le :
    parse "f x (λy.y f)" = .ok (app (app (name "f") (name "x"))
      (lam "y" (app (name "y") (name "f")))) ∧
    (app (app (name "f") (name "x")) (lam "y" (app (name "y") (name "f")))).depth ≤ maxDepth := by
  have parsed : parse "f x (λy.y f)" = .ok (app (app (name "f") (name "x"))
      (lam "y" (app (name "y") (name "f")))) := by decide +kernel
  obtain ⟨-, phrase, spelled, -, -, -, -, bounded⟩ := parsed_depth_le_iff _ _ parsed
  have same : phrase = .application (.name "f") [.name "x",
      .group (.abstraction "y" (.application (.name "y") [.name "f"]))] :=
    Phrase.lexemes_injective (spelled.symm.trans (by decide +kernel))
  subst same
  refine ⟨parsed, bounded ?_⟩
  simp [Phrase.GroupsLast, Operand.GroupsLast, argumentsGroupsLast, Operand.IsName]

/-- Abstractions around a name. -/
def nested : Nat → Term
  | 0 => name "x"
  | n + 1 => lam "x" (nested n)

theorem nested_bare (n : Nat) : (nested n).Bare := by
  induction n with
  | zero => exact ⟨by decide, rfl, rfl⟩
  | succ n ih => exact ⟨by decide, rfl, ih⟩

theorem nested_depth (n : Nat) : (nested n).depth = n + 1 := by
  induction n with
  | zero => simp [nested]
  | succ n ih => simp [nested, ih]

theorem nested_levels (n : Nat) : (Phrase.ofTerm (nested n)).levels = n + 1 := by
  induction n with
  | zero => rfl
  | succ n ih => exact congrArg Nat.succ ih

theorem nested_length (n : Nat) : (nested n).text.length = 3 * n + 1 := by
  induction n with
  | zero => rfl
  | succ n ih =>
    simp only [nested, text, String.length_append, ih]
    have marks : "λ".length = 1 ∧ "x".length = 1 ∧ ".".length = 1 := by decide
    omega

/-- A deep function with two arguments: `(λx.…λx.x) x x`. -/
def deepHead (n : Nat) : Term :=
  app (app (nested (n + 1)) (name "x")) (name "x")

theorem deepHead_bare (n : Nat) : (deepHead n).Bare :=
  have named : (name "x").Bare := by decide
  ⟨⟨nested_bare (n + 1), named⟩, named⟩

theorem deepHead_depth (n : Nat) : (deepHead n).depth = n + 4 := by
  simp [deepHead, nested_depth]

theorem deepHead_levels (n : Nat) : (Phrase.ofTerm (deepHead n)).levels = n + 3 := by
  have inner := nested_levels n
  simp only [deepHead, nested, Phrase.ofTerm, Phrase.applied, Phrase.operand, Phrase.levels,
    Operand.levels, operandLevels, List.cons_append, List.nil_append]
  omega

theorem deepHead_length (n : Nat) : (deepHead n).text.length = 3 * n + 10 := by
  have inner := nested_length n
  have marks : "λ".length = 1 ∧ "x".length = 1 ∧ ".".length = 1 ∧ "(".length = 1 ∧
    ")".length = 1 ∧ " ".length = 1 := by decide
  simp only [deepHead, nested, text, String.length_append]
  omega

/-- The head of an application is read before the arguments that push it deeper: a text
at the limit of nesting, whose term lies beyond it. -/
theorem deepHead_exceeds :
    parse (deepHead 2045).text = .ok (deepHead 2045) ∧ maxDepth < (deepHead 2045).depth := by
  have short : ¬ (deepHead 2045).text.length > Token.maxLength := by
    rw [deepHead_length]
    decide
  have fits : (Phrase.ofTerm (deepHead 2045)).levels ≤ maxDepth := by
    rw [deepHead_levels]
    decide
  refine ⟨by rw [parse_text (deepHead_bare _), if_neg short, if_pos fits], ?_⟩
  rw [deepHead_depth]
  decide

end ChurchScript.Term
