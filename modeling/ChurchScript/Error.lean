/-!
# Causes of failure

Everything that can go wrong between a script or a lambda text and its
diagram, as one type of causes, and the wording of each cause.
-/
namespace ChurchScript

/-- What the reader of lambda text wanted to see next. -/
inductive Expected where
  | boundName | dot | closeParen | operand | endOfInput
  deriving DecidableEq, Repr

def Expected.describe : Expected → String
  | .boundName => "a variable after `λ`"
  | .dot => "`.` after the bound variable"
  | .closeParen => "`)`"
  | .operand => "a variable or `(`"
  | .endOfInput => "end of input"

/-- A construct of a script that has no lambda expression. -/
inductive Construct where
  | recursion (name : String)
  | parameterPattern (kind : String)
  | declarationPattern (kind : String)
  | nestedFunction (name : String)
  | statement (kind : String)
  | expression (kind : String)
  | binaryOperator (token : String)
  | logicalOperator (token : String)
  | unaryOperator (token : String)
  | memberProperty
  deriving DecidableEq, Repr

def Construct.describe : Construct → String
  | .recursion name => s!"recursive function `{name}` cannot be inlined"
  | .parameterPattern kind => s!"parameter pattern `{kind}`"
  | .declarationPattern kind => s!"declaration pattern `{kind}`"
  | .nestedFunction name => s!"nested function declaration `{name}`"
  | .statement kind => s!"statement `{kind}`"
  | .expression kind => s!"expression `{kind}`"
  | .binaryOperator token => s!"binary operator `{token}`"
  | .logicalOperator token => s!"logical operator `{token}`"
  | .unaryOperator token => s!"unary operator `{token}`"
  | .memberProperty => "member expression property"

/-- A fault of a syntax tree. The kind of the node at fault is absent when the
node carries none. -/
inductive TreeFault where
  | invalidJson
  | untyped
  | missing (kind : Option String) (field : String)
  | notArray (kind : Option String) (field : String)
  | notString (kind : Option String) (field : String)
  | notProgram (kind : String)
  deriving DecidableEq, Repr

def TreeFault.describe : TreeFault → String
  | .invalidJson => "invalid JSON"
  | .untyped => "node without a `type` field"
  | .missing kind field =>
    let kind := kind.getD "?"
    s!"`{kind}` node is missing `{field}`"
  | .notArray kind field =>
    let kind := kind.getD "?"
    s!"`{field}` of `{kind}` is not an array"
  | .notString kind field =>
    let kind := kind.getD "?"
    s!"`{field}` of `{kind}` is not a string"
  | .notProgram kind => s!"expected a Program node at the root, found `{kind}`"

inductive Error where
  | noEntryPoint
  | noReturn (function : String)
  | unsupported (construct : Construct)
  | parse (position : Nat) (expected : Expected)
  | sourceTooLong (length limit : Nat)
  | nestingTooDeep (limit : Nat)
  | malformedTree (fault : TreeFault)
  deriving DecidableEq, Repr

def Error.message : Error → String
  | .noEntryPoint => "no function declarations found in input"
  | .noReturn function => s!"no return statement found in body of `{function}`"
  | .unsupported construct => "unsupported construct: " ++ construct.describe
  | .parse position expected =>
    s!"parse error at position {position}: expected " ++ expected.describe
  | .sourceTooLong length limit =>
    s!"source exceeds maximum length of {limit} characters ({length} given)"
  | .nestingTooDeep limit => s!"nesting exceeds maximum depth of {limit}"
  | .malformedTree fault => "malformed syntax tree: " ++ fault.describe

/-- If a computation in two parts succeeds, so does its first part, and the second on
the result of the first. -/
theorem ok_of_bind {α β : Type} {first : Except Error α} {next : α → Except Error β} {result : β}
    (success : (first >>= next) = .ok result) :
    ∃ value, first = .ok value ∧ next value = .ok result := by
  cases first with
  | error e => cases success
  | ok value => exact ⟨value, rfl, success⟩

end ChurchScript
