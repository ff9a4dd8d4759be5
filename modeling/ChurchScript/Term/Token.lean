import ChurchScript.Error

/-!
# Tokens of lambda text

A text is cut into maximal runs of name characters and single other
characters. Every run is a name, the four symbols `λ . ( )` are tokens of
their own, and all other characters are passed over. Positions count characters.
-/
namespace ChurchScript

inductive Token.Kind where
  | lambda | dot | name | openParen | closeParen | endOfInput
  deriving DecidableEq, Repr

structure Token where
  kind : Token.Kind
  text : String
  position : Nat
  deriving DecidableEq, Repr

namespace Token

/-- The longest text that is read, in characters. -/
def maxLength : Nat := 100000

def isNameChar (c : Char) : Bool :=
  c.isAlphanum || c == '_' || c.toNat == 39 || c == '+' || c == '*' || c == '-' || c == '/'

def Kind.ofSymbol? (c : Char) : Option Kind :=
  if c == 'λ' then some .lambda
  else if c == '.' then some .dot
  else if c == '(' then some .openParen
  else if c == ')' then some .closeParen
  else none

/-- Cuts a text, whose characters carry their positions, before and after every
character that continues no name. -/
def runs (cs : List (Char × Nat)) : List (List (Char × Nat)) :=
  cs.splitBy fun a b => isNameChar a.1 && isNameChar b.1

def ofRun? : List (Char × Nat) → Option Token
  | [] => none
  | (c, position) :: rest =>
    match Kind.ofSymbol? c with
    | some kind => some ⟨kind, String.singleton c, position⟩
    | none =>
      if isNameChar c then
        some ⟨.name, String.ofList (c :: rest.map Prod.fst), position⟩
      else none

/-- The tokens of a text of any length, closed by the end of input. -/
def ofChars (cs : List Char) : List Token :=
  (runs cs.zipIdx).filterMap ofRun? ++ [⟨.endOfInput, "", cs.length⟩]

def scan (source : String) : Except Error (List Token) :=
  if source.length > maxLength then
    .error (.sourceTooLong source.length maxLength)
  else .ok (ofChars source.toList)

end Token
end ChurchScript
