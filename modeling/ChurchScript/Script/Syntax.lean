import ChurchScript.Number.Binary64

/-!
# Scripts

The syntax of the JavaScript subset that has lambda expressions. A construct
outside of the subset keeps the name of its kind, so that it can be refused
where its surroundings are known.
-/
namespace ChurchScript.Script

inductive Literal where
  | number (value : Binary64)
  | boolean (value : Bool)
  | string (value : String)
  | null
  | other
  deriving DecidableEq, Repr

inductive BinaryOperator where
  | add | sub | mul | div
  | eq | strictEq | notEq | strictNotEq
  | lt | le | gt | ge
  | other (token : String)
  deriving DecidableEq, Repr

def BinaryOperator.ofToken (token : String) : BinaryOperator :=
  match token with
  | "+" => add
  | "-" => sub
  | "*" => mul
  | "/" => div
  | "==" => eq
  | "===" => strictEq
  | "!=" => notEq
  | "!==" => strictNotEq
  | "<" => lt
  | "<=" => le
  | ">" => gt
  | ">=" => ge
  | token => other token

inductive LogicalOperator where
  | and | or
  | other (token : String)
  deriving DecidableEq, Repr

def LogicalOperator.ofToken (token : String) : LogicalOperator :=
  match token with
  | "&&" => and
  | "||" => or
  | token => other token

inductive UnaryOperator where
  | not | minus
  | other (token : String)
  deriving DecidableEq, Repr

def UnaryOperator.ofToken (token : String) : UnaryOperator :=
  match token with
  | "!" => not
  | "-" => minus
  | token => other token

/-- What a parameter or a declaration binds. -/
inductive Pattern where
  | identifier (name : String)
  | unsupported (kind : String)
  deriving DecidableEq, Repr

def Pattern.name? : Pattern → Option String
  | identifier name => some name
  | unsupported _ => none

mutual

inductive Expr where
  | literal (value : Literal)
  | identifier (name : String)
  | binary (operator : BinaryOperator) (left right : Expr)
  | logical (operator : LogicalOperator) (left right : Expr)
  | unary (operator : UnaryOperator) (argument : Expr)
  | call (callee : Expr) (arguments : List Expr)
  | conditional (test consequent alternate : Expr)
  | function (func : Func)
  | member (object property : Expr) (computed : Bool)
  | unsupported (kind : String)

inductive Stmt where
  | function (func : Func)
  | declare (declarators : List Declarator)
  | ret (value : Option Expr)
  | switch (discriminant : Expr) (cases : List SwitchCase)
  | block (body : List Stmt)
  | empty
  | unsupported (kind : String)

/-- A declared name with its initial value. -/
structure Declarator where
  target : Pattern
  init : Option Expr

/-- A case of a switch; the default case has no test. -/
structure SwitchCase where
  test : Option Expr
  consequent : List Stmt

inductive Body where
  | block (statements : List Stmt)
  | expression (result : Expr)

/-- A function, declared or as an expression. -/
structure Func where
  name : Option String
  params : List Pattern
  body : Body

end

def Func.displayName (func : Func) : String :=
  func.name.getD "<anonymous>"

structure Program where
  body : List Stmt

/-- The functions declared at the top level with a name, in source order. -/
def Program.functions (program : Program) : List (String × Func) :=
  program.body.filterMap fun
    | .function func => func.name.map fun name => (name, func)
    | _ => none

end ChurchScript.Script
