import ChurchScript.Term.Basic

/-!
# Lambda text of a term

An application to the left needs no parentheses; an abstraction to the left
and every argument that is no variable get them.
-/
namespace ChurchScript.Term

def text : Term → String
  | var x _ _ => x
  | abs x _ body => "λ" ++ x ++ "." ++ body.text
  | app f a =>
    let function := match f with
      | abs .. => "(" ++ f.text ++ ")"
      | _ => f.text
    match a with
    | var .. => function ++ " " ++ a.text
    | _ => function ++ " (" ++ a.text ++ ")"

end ChurchScript.Term
