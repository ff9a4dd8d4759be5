import ChurchScript.Term.Basic
import ChurchScript.Term.Token

/-!
# Reading lambda text

`λx.` reaches as far right as it can, application associates to the left and
parentheses group. Every expression and every argument of an application is
one level of nesting, and the levels left are the measure of the recursion:
when none is left, the text is refused.
-/
namespace ChurchScript.Term

/-- The deepest nesting that is read. -/
def maxDepth : Nat := 2048

/-- What comes next; past the last token it is the end of input. -/
def nextKind : List Token → Token.Kind
  | [] => .endOfInput
  | token :: _ => token.kind

def nextPosition : List Token → Nat
  | [] => 0
  | token :: _ => token.position

def refuse {α : Type} (expected : Expected) (tokens : List Token) : Except Error α :=
  .error (.parse (nextPosition tokens) expected)

/-- The name and the dot between `λ` and the body. -/
def boundName : List Token → Except Error (String × List Token)
  | ⟨.name, x, _⟩ :: rest =>
    match rest with
    | ⟨.dot, _, _⟩ :: rest => .ok (x, rest)
    | _ => refuse .dot rest
  | tokens => refuse .boundName tokens

/-- A name, or what `inner` reads between parentheses. -/
def operand (inner : List Token → Except Error (Term × List Token)) :
    List Token → Except Error (Term × List Token)
  | ⟨.name, x, _⟩ :: rest => .ok (name x, rest)
  | ⟨.openParen, _, _⟩ :: rest => do
    let (t, rest) ← inner rest
    match rest with
    | ⟨.closeParen, _, _⟩ :: rest => .ok (t, rest)
    | _ => refuse .closeParen rest
  | tokens => refuse .operand tokens

/-- Whether an application takes no further argument. -/
def endsApplication (tokens : List Token) : Bool :=
  match nextKind tokens with
  | .endOfInput | .closeParen | .dot => true
  | _ => false

mutual

/-- An expression with at most the given number of levels, and the tokens behind it. -/
def expression : Nat → List Token → Except Error (Term × List Token)
  | 0, _ => .error (.nestingTooDeep maxDepth)
  | levels + 1, ⟨.lambda, _, _⟩ :: rest => do
    let (x, rest) ← boundName rest
    let (body, rest) ← expression levels rest
    return (lam x body, rest)
  | levels + 1, tokens => do
    let (f, rest) ← operand (expression levels) tokens
    arguments levels f rest

/-- Applies `f` to the operands that follow, each one level deeper than the one
before it. -/
def arguments : Nat → Term → List Token → Except Error (Term × List Token)
  | 0, f, tokens =>
    if endsApplication tokens then .ok (f, tokens)
    else .error (.nestingTooDeep maxDepth)
  | levels + 1, f, tokens =>
    if endsApplication tokens then .ok (f, tokens)
    else do
      let (a, rest) ← operand (expression levels) tokens
      arguments levels (.app f a) rest

end

/-- The term that makes up all of the tokens. -/
def ofTokens (tokens : List Token) : Except Error Term := do
  let (t, rest) ← expression maxDepth tokens
  match nextKind rest with
  | .endOfInput => return t
  | _ => refuse .endOfInput rest

def parse (source : String) : Except Error Term := do
  ofTokens (← Token.scan source)

end ChurchScript.Term
