import ChurchScript.Json.Basic
import ChurchScript.Json.Token

/-!
# Reading JSON text

The tokens are taken in one by one, with a stack of the arrays and objects that
are still open.
-/
namespace ChurchScript.Json

/-- The arrays and objects that may lie inside each other. -/
def maxNesting : Nat := 127

/-- An array or object that is still open, with its contents so far in reverse. -/
inductive Open where
  | array (items : List Json)
  | object (members : List (String × Json)) (name : String)

/-- What a text read so far calls for. -/
inductive Reading where
  /-- A value; right behind an opening bracket also the end of the array. -/
  | value (first : Bool) (stack : List Open)
  /-- A member's name; right behind an opening brace also the end of the object. -/
  | name (first : Bool) (members : List (String × Json)) (stack : List Open)
  | colon (name : String) (members : List (String × Json)) (stack : List Open)
  /-- What may follow a value: more of what is open around it. -/
  | done (value : Json) (stack : List Open)

namespace Reading

/-- Begins a value with a token that is no end of anything. -/
def start (stack : List Open) : Token → Option Reading
  | .null => some (done .null stack)
  | .true => some (done (.bool true) stack)
  | .false => some (done (.bool false) stack)
  | .number x => some (done (.number x) stack)
  | .string s => some (done (.string s) stack)
  | .openBracket =>
    if stack.length < maxNesting then some (value true (.array [] :: stack)) else none
  | .openBrace => if stack.length < maxNesting then some (name true [] stack) else none
  | _ => none

def step : Reading → Token → Option Reading
  | value true (.array _ :: stack), .closeBracket => some (done (.array []) stack)
  | value _ stack, token => start stack token
  | name true _ stack, .closeBrace => some (done (.object []) stack)
  | name _ members stack, .string s => some (colon s members stack)
  | name .., _ => none
  | colon s members stack, .colon => some (value false (.object members s :: stack))
  | colon .., _ => none
  | done v (.array items :: stack), .comma => some (value false (.array (v :: items) :: stack))
  | done v (.array items :: stack), .closeBracket =>
    some (done (.array (v :: items).reverse) stack)
  | done v (.object members s :: stack), .comma => some (name false ((s, v) :: members) stack)
  | done v (.object members s :: stack), .closeBrace =>
    some (done (.object ((s, v) :: members).reverse) stack)
  | done .., _ => none

end Reading

def parse? (source : String) : Option Json := do
  let tokens ← Token.ofCharsFrom [] source.toList
  match ← tokens.foldlM Reading.step (.value false []) with
  | .done v [] => some v
  | _ => none

end ChurchScript.Json
