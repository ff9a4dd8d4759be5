import ChurchScript.Church.Compiler
import ChurchScript.Proofs.Term.Phrase

/-!
# Lambda terms as a target

The same translation as to lambda text, carried out on lambda terms: scopes bind
names to terms, an application is nested to the left, a function is nested
abstractions, and each combinator stands for its own term.
-/
namespace ChurchScript

namespace Term

def lams (params : List String) (body : Term) : Term :=
  params.foldr lam body

def apps (head : Term) (arguments : List Term) : Term :=
  arguments.foldl app head

namespace Phrase

def lambdas (params : List String) (body : Phrase) : Phrase :=
  params.foldr abstraction body

/-- An operand by itself. -/
def single (operand : Operand) : Phrase := application operand []

/-- A name applied to operands. -/
def call (x : String) (arguments : List Operand) : Phrase := application (.name x) arguments

theorem lambdas_term (params : List String) (body : Phrase) :
    (lambdas params body).term = lams params body.term := by
  induction params with
  | nil => rfl
  | cons x rest ih => simpa [lambdas, lams, Phrase.term] using congrArg (lam x) ih

theorem lambdas_lexemes (params : List String) (body : Phrase) :
    (lambdas params body).lexemes =
      params.flatMap (fun x => [.lambda, .name x, .dot]) ++ body.lexemes := by
  induction params with
  | nil => rfl
  | cons x rest ih => simpa [lambdas, Phrase.lexemes] using ih

@[simp] theorem single_lexemes (operand : Operand) :
    (single operand).lexemes = operand.lexemes := by
  simp [single, Phrase.lexemes, operandLexemes]

end Phrase

theorem applyOperands_eq (f : Term) (operands : List Operand) :
    applyOperands f operands = apps f (operands.map Operand.term) := by
  induction operands generalizing f with
  | nil => rfl
  | cons operand rest ih => exact ih _

end Term

namespace Church

open Term (Phrase Operand)
open Term.Phrase

/-- Church's truth values, as operands. -/
def trueGroup : Operand := .group (lambdas ["x", "y"] (call "x" []))

def falseGroup : Operand := .group (lambdas ["x", "y"] (call "y" []))

/-- The phrase of `<`, which `<=` and `>=` negate. -/
def lessPhrase : Phrase :=
  lambdas ["m", "n"] (.application (.group (call "n" [falseGroup]))
    [.group (.application (.group (call "m" [trueGroup])) [falseGroup])])

def notPhrase : Phrase := lambdas ["p", "a", "b"] (call "p" [.name "b", .name "a"])

/-- What stands between the parentheses of a combinator. -/
def Combinator.phrase : Combinator → Phrase
  | .true => lambdas ["x", "y"] (call "x" [])
  | .false => lambdas ["x", "y"] (call "y" [])
  | .add => lambdas ["m", "n", "f", "x"]
    (call "m" [.name "f", .group (call "n" [.name "f", .name "x"])])
  | .sub => lambdas ["m", "n", "f", "x"]
    (call "n" [.group (lambdas ["g", "h"] (call "h" [.group (call "g" [.name "f"])])),
      .group (lambdas ["u"] (call "x" [])), .group (lambdas ["u"] (call "u" [])), .name "m"])
  | .mul => lambdas ["m", "n", "f", "x"] (call "m" [.group (call "n" [.name "f"]), .name "x"])
  | .div => lambdas ["m", "n"]
    (call "n" [.group (lambdas ["f", "x"] (call "m"
      [.group (lambdas ["g"] (call "f" [.group (call "g" [.name "x"])])),
        .group (lambdas ["x"] (call "x" []))])),
      .group (lambdas ["f", "x"] (call "x" []))])
  | .eq => lambdas ["m", "n"]
    (.application (.group (.application (.group (call "m" [.name "n"])) [falseGroup])) [trueGroup])
  | .lt => lessPhrase
  | .le => lambdas ["m", "n"] (.application (.group notPhrase)
    [.group (.application (.group lessPhrase) [.name "n", .name "m"])])
  | .ge => lambdas ["m", "n"] (.application (.group notPhrase)
    [.group (.application (.group lessPhrase) [.name "m", .name "n"])])
  | .not => notPhrase
  | .and => lambdas ["p", "q"] (call "p" [.name "q", .name "p"])
  | .or => lambdas ["p", "q"] (call "p" [.name "p", .name "q"])
  | .select => lambdas ["p", "a", "b"] (call "p" [.name "a", .name "b"])
  | .map => lambdas ["arr", "f"] (call "arr" [.name "f"])
  | .filter => lambdas ["arr", "pred"]
    (call "arr" [.group (lambdas ["x"] (call "pred" [.name "x"]))])
  | .property => lambdas ["obj", "prop"] (call "obj" [.name "prop"])
  | .identity => lambdas ["x"] (call "x" [])

def Combinator.term (c : Combinator) : Term := c.phrase.term

theorem Combinator.text_spelled (c : Combinator) :
    Lexeme.all c.text.toList = (Operand.group c.phrase).lexemes := by
  cases c <;> decide +kernel

/-- The term of a combinator is what its text is read as. -/
theorem Combinator.parse_text (c : Combinator) : Term.parse c.text = .ok c.term := by
  have spelled : Lexeme.all c.text.toList = (single (.group c.phrase)).lexemes := by
    rw [single_lexemes, c.text_spelled]
  have short : ¬ c.text.length > Token.maxLength := by cases c <;> decide +kernel
  have levels : (single (.group c.phrase)).levels ≤ Term.maxDepth := by cases c <;> decide +kernel
  rw [Term.parse_spelled _ _ spelled, if_neg short, if_pos levels]
  rfl

def termTarget : Target Term where
  name := Term.name
  combinator := Combinator.term
  numeral := Term.numeral
  apply := Term.apps
  function := Term.lams
  enter params scope := scope.bindParams Term.name params

/-- The translation of a script to a lambda term. -/
def compileTermWith (settings : Settings) (program : Script.Program) : Except Error Term :=
  (fun entry => Term.lams entry.params entry.body) <$> compileTo termTarget settings program

def compileTerm (program : Script.Program) : Except Error Term :=
  compileTermWith {} program

end Church
end ChurchScript
