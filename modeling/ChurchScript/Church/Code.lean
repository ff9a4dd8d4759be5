import ChurchScript.Church.Target

/-!
# Code

The result of compiling a script: names, encodings and functions put together
by application, before it is written as lambda text.
-/
namespace ChurchScript.Church

inductive Code where
  | name (x : String)
  | combinator (c : Combinator)
  | numeral (n : Nat)
  | apply (head : Code) (arguments : List Code)
  | function (params : List String) (body : Code)
  deriving Repr

namespace Code

/-- A parameter stands for its own name. -/
def target : Target Code where
  name := name
  combinator := combinator
  numeral := numeral
  apply := apply
  function := function
  enter params scope := scope.bindParams name params

def zero : Code := target.zero

mutual

def text : Code → String
  | name x => x
  | combinator c => c.text
  | numeral n => numeralText n
  | apply head arguments => applyText head.text (texts arguments)
  | function params body => "(" ++ bindersText params ++ body.text ++ ")"

def texts : List Code → List String
  | [] => []
  | code :: rest => code.text :: texts rest

end

end Code

/-- A compiled script: the parameters of its entry point over its body. -/
structure EntryOf (α : Type) where
  params : List String
  body : α

abbrev Entry := EntryOf Code

def Entry.text (entry : Entry) : String :=
  bindersText entry.params ++ entry.body.text

end ChurchScript.Church
