import ChurchScript.Proofs.Term.Grammar
import ChurchScript.Term.Printer

/-!
# Printed terms are read back

Every term without annotations has a phrase of its own (`Phrase.ofTerm`), which its
text spells: parentheses stand around an abstraction that is applied and around an
argument that is no variable, and nowhere else. What a phrase is read as is known, so
the text of a term is read as the term, unless it is too long or nested too deeply.
-/
namespace ChurchScript.Term

/-- A term as it is read from text: its names are names of lambda text, and nothing in
it is annotated. -/
def Bare : Term → Prop
  | var x index binder => Lexeme.IsName x ∧ index = none ∧ binder = none
  | abs x binder body => Lexeme.IsName x ∧ binder = none ∧ body.Bare
  | app f a => f.Bare ∧ a.Bare

instance decidableBare : (t : Term) → Decidable t.Bare
  | var x index binder =>
    inferInstanceAs (Decidable (Lexeme.IsName x ∧ index = none ∧ binder = none))
  | abs x binder body =>
    have := decidableBare body
    inferInstanceAs (Decidable (Lexeme.IsName x ∧ binder = none ∧ body.Bare))
  | app f a =>
    have := decidableBare f
    have := decidableBare a
    inferInstanceAs (Decidable (f.Bare ∧ a.Bare))

theorem applyOperands_append (f : Term) (operands others : List Operand) :
    applyOperands f (operands ++ others) = applyOperands (applyOperands f operands) others := by
  induction operands generalizing f with
  | nil => rfl
  | cons operand rest ih => exact ih _

theorem operandLexemes_append (operands others : List Operand) :
    operandLexemes (operands ++ others) = operandLexemes operands ++ operandLexemes others := by
  induction operands with
  | nil => rfl
  | cons operand rest ih => simp only [List.cons_append, operandLexemes, ih, List.append_assoc]

namespace Phrase

/-- A phrase as an operand: a name stays as it is, all else is put in parentheses. -/
def operand : Phrase → Operand
  | application (.name x) [] => .name x
  | phrase => .group phrase

/-- A phrase with one more argument. An abstraction is put in parentheses first. -/
def applied (argument : Operand) : Phrase → Phrase
  | abstraction x body => application (.group (abstraction x body)) [argument]
  | application head arguments => application head (arguments ++ [argument])

/-- The phrase that the text of a term spells. -/
def ofTerm : Term → Phrase
  | var x _ _ => application (.name x) []
  | abs x _ body => abstraction x (ofTerm body)
  | app f a => (ofTerm f).applied (ofTerm a).operand

@[simp] theorem operand_term (phrase : Phrase) : phrase.operand.term = phrase.term := by
  unfold operand
  split <;> rfl

@[simp] theorem applied_term (phrase : Phrase) (argument : Operand) :
    (phrase.applied argument).term = app phrase.term argument.term := by
  cases phrase with
  | abstraction x body => rfl
  | application head others =>
    simp only [applied, Phrase.term, applyOperands_append]
    rfl

theorem applied_operand (phrase : Phrase) (argument : Operand) :
    (phrase.applied argument).operand = .group (phrase.applied argument) := by
  cases phrase with
  | abstraction x body => rfl
  | application head others =>
    unfold applied operand
    split
    · rename_i same
      simp at same
    · rfl

/-- Further arguments are written behind the first. -/
theorem applied_applied_lexemes (phrase : Phrase) (first second : Operand) :
    ((phrase.applied first).applied second).lexemes =
      (phrase.applied first).lexemes ++ second.lexemes := by
  cases phrase with
  | abstraction x body => simp [applied, Phrase.lexemes, operandLexemes]
  | application head others =>
    simp [applied, Phrase.lexemes, operandLexemes_append, operandLexemes]

theorem ofTerm_term {t : Term} (bare : t.Bare) : (ofTerm t).term = t := by
  induction t with
  | var x index binder =>
    obtain ⟨-, rfl, rfl⟩ := bare
    rfl
  | abs x binder body ih =>
    obtain ⟨-, rfl, bodyBare⟩ := bare
    exact congrArg (lam x) (ih bodyBare)
  | app f a ihf iha => simp [ofTerm, ihf bare.1, iha bare.2]

end Phrase

/-- The applied part of an application, as it is printed. -/
theorem function_spelled {f : Term} (spelled : Lexeme.all f.text.toList = (Phrase.ofTerm f).lexemes)
    (argument : Operand) :
    Lexeme.all (match f with
      | abs .. => "(" ++ f.text ++ ")"
      | _ => f.text).toList ++ argument.lexemes =
        ((Phrase.ofTerm f).applied argument).lexemes := by
  cases f with
  | var x index binder =>
    simp [spelled, Phrase.ofTerm, Phrase.applied, Phrase.lexemes, operandLexemes]
  | abs x binder body =>
    have split : ("(" ++ (abs x binder body).text ++ ")").toList =
        [] ++ '(' :: ((abs x binder body).text.toList ++ ')' :: []) := by simp
    rw [split, Lexeme.all_openParen, Lexeme.all_closeParen, spelled]
    simp [Phrase.ofTerm, Phrase.applied, Phrase.lexemes, Operand.lexemes, operandLexemes]
  | app g b => rw [spelled, Phrase.ofTerm, Phrase.applied_applied_lexemes]

/-- The argument of an application, as it is printed behind the applied part. -/
theorem argument_spelled (function : String) {a : Term}
    (spelled : Lexeme.all a.text.toList = (Phrase.ofTerm a).lexemes) :
    Lexeme.all (match a with
      | var .. => function ++ " " ++ a.text
      | _ => function ++ " (" ++ a.text ++ ")").toList =
        Lexeme.all function.toList ++ (Phrase.ofTerm a).operand.lexemes := by
  have grouped : (function ++ " (" ++ a.text ++ ")").toList =
      function.toList ++ ' ' :: ([] ++ '(' :: (a.text.toList ++ ')' :: [])) := by simp
  cases a with
  | var x index binder =>
    have split : (function ++ " " ++ (var x index binder).text).toList =
        function.toList ++ ' ' :: (var x index binder).text.toList := by simp
    rw [split, Lexeme.all_blank, spelled]
    simp [Phrase.ofTerm, Phrase.operand, Phrase.lexemes, operandLexemes]
  | abs x binder body =>
    rw [grouped, Lexeme.all_blank, Lexeme.all_openParen, Lexeme.all_closeParen, spelled]
    simp [Phrase.ofTerm, Phrase.operand, Operand.lexemes]
  | app g b =>
    rw [grouped, Lexeme.all_blank, Lexeme.all_openParen, Lexeme.all_closeParen, spelled,
      Phrase.ofTerm, Phrase.applied_operand]
    simp [Operand.lexemes]

/-- The text of a term is spelled by the phrase of the term. -/
theorem text_spelled {t : Term} (bare : t.Bare) :
    Lexeme.all t.text.toList = (Phrase.ofTerm t).lexemes := by
  induction t with
  | var x index binder =>
    rw [text, Lexeme.all_name x bare.1]
    simp [Phrase.ofTerm, Phrase.lexemes, Operand.lexemes, operandLexemes]
  | abs x binder body ih =>
    have split : (abs x binder body).text.toList =
        [] ++ 'λ' :: (x.toList ++ '.' :: body.text.toList) := by simp [text]
    rw [split, Lexeme.all_lambda, Lexeme.all_dot, Lexeme.all_name x bare.1, ih bare.2.2]
    simp [Phrase.ofTerm, Phrase.lexemes]
  | app f a ihf iha =>
    unfold text
    exact (argument_spelled _ (iha bare.2)).trans (function_spelled (ihf bare.1) _)

/-- What the text of a term is read as. -/
theorem parse_text {t : Term} (bare : t.Bare) :
    parse t.text =
      if t.text.length > Token.maxLength then
        .error (.sourceTooLong t.text.length Token.maxLength)
      else if (Phrase.ofTerm t).levels ≤ maxDepth then .ok t
      else .error (.nestingTooDeep maxDepth) := by
  rw [parse_spelled _ _ (text_spelled bare), Phrase.ofTerm_term bare]

/-- The text of a term without annotations is spelled by one phrase, that of the term. It
is read as the term if and only if it is not too long and that phrase is not nested too
deeply; it is read as nothing else, and never refused for its grammar. So no two such
terms have the same text. -/
theorem text_read_back (t : Term) (bare : t.Bare) :
    (∀ position expected, parse t.text ≠ .error (.parse position expected)) ∧
    (∀ u, parse t.text = .ok u → u = t) ∧
    (∃ phrase : Phrase, Lexeme.all t.text.toList = phrase.lexemes ∧ phrase.term = t ∧
      (parse t.text = .ok t ↔
        t.text.length ≤ Token.maxLength ∧ phrase.deepestFrom 1 ≤ maxDepth)) ∧
    ∀ u : Term, u.Bare → u.text = t.text → u = t := by
  have read := parse_text bare
  refine ⟨?_, ?_, ⟨.ofTerm t, text_spelled bare, Phrase.ofTerm_term bare, ?_⟩, ?_⟩
  · intro position expected refused
    rw [read] at refused
    split_ifs at refused <;> cases refused
  · intro u parsed
    rw [read] at parsed
    split_ifs at parsed
    cases parsed
    rfl
  · rw [read, Phrase.deepestFrom_eq, Nat.zero_add]
    split_ifs with long fits
    · simp [Nat.not_le.mpr long]
    · simp [Nat.not_lt.mp long, fits]
    · simp [fits]
  · intro u uBare same
    have phrases : Phrase.ofTerm u = Phrase.ofTerm t :=
      Phrase.lexemes_injective (by rw [← text_spelled uBare, ← text_spelled bare, same])
    rw [← Phrase.ofTerm_term uBare, phrases, Phrase.ofTerm_term bare]

/-- An abstraction that is applied, and arguments of each form. -/
def printedSample : Term :=
  app (app (lam "x" (app (name "x") (name "y"))) (app (name "f") (lam "z" (name "z")))) (name "x")

theorem printedSample_read_back :
    printedSample.Bare ∧ printedSample.text = "(λx.x y) (f (λz.z)) x" ∧
      parse printedSample.text = .ok printedSample ∧
      ∀ u : Term, u.Bare → u.text = printedSample.text → u = printedSample := by
  have bare : printedSample.Bare := by decide
  obtain ⟨-, -, ⟨phrase, spelled, -, read⟩, unique⟩ := text_read_back printedSample bare
  have fits : phrase.deepestFrom 1 ≤ maxDepth := by
    rw [phrase.deepestFrom_eq, Nat.zero_add]
    calc phrase.levels ≤ phrase.lexemes.length := phrase.levels_le
      _ = (Lexeme.all printedSample.text.toList).length := by rw [spelled]
      _ ≤ maxDepth := by decide +kernel
  exact ⟨bare, by decide +kernel, read.mpr ⟨by decide +kernel, fits⟩, unique⟩

end ChurchScript.Term
