import ChurchScript.Script.Syntax

/-!
# References

The names that a function refers to and does not bind itself. Parameters are
bound in the whole function, a declared name from its initial value on to the
end of its statement list; without an initial value it binds nothing. What
follows a returned value in a statement list is never reached.
-/
namespace ChurchScript.Script

/-- The names that a declaration list binds. -/
def declaredNames (declarators : List Declarator) : List String :=
  declarators.filterMap fun declarator => declarator.init.bind fun _ => declarator.target.name?

mutual

def Func.references (locals : List String) : Func → List String
  | ⟨_, params, body⟩ => body.references (params.filterMap Pattern.name? ++ locals)

def Body.references (locals : List String) : Body → List String
  | .block statements => statementReferences locals statements
  | .expression result => result.references locals

def statementReferences (locals : List String) : List Stmt → List String
  | [] => []
  | .function func :: rest => func.references locals ++ statementReferences locals rest
  | .declare declarators :: rest =>
    declaratorReferences locals declarators ++
      statementReferences (declaredNames declarators ++ locals) rest
  | .ret (some value) :: _ => value.references locals
  | .switch discriminant cases :: rest =>
    discriminant.references locals ++ caseReferences locals cases ++
      statementReferences locals rest
  | .block body :: rest => statementReferences locals body ++ statementReferences locals rest
  | .ret none :: rest => statementReferences locals rest
  | .empty :: rest => statementReferences locals rest
  | .unsupported _ :: rest => statementReferences locals rest

def declaratorReferences (locals : List String) : List Declarator → List String
  | [] => []
  | ⟨_, none⟩ :: rest => declaratorReferences locals rest
  | ⟨target, some init⟩ :: rest =>
    init.references locals ++ declaratorReferences (target.name?.toList ++ locals) rest

def caseReferences (locals : List String) : List SwitchCase → List String
  | [] => []
  | ⟨none, consequent⟩ :: rest =>
    statementReferences locals consequent ++ caseReferences locals rest
  | ⟨some test, consequent⟩ :: rest =>
    test.references locals ++ statementReferences locals consequent ++ caseReferences locals rest

def Expr.references (locals : List String) : Expr → List String
  | .literal _ => []
  | .identifier name => if locals.contains name then [] else [name]
  | .binary _ left right => left.references locals ++ right.references locals
  | .logical _ left right => left.references locals ++ right.references locals
  | .unary _ argument => argument.references locals
  | .call callee arguments => callee.references locals ++ expressionReferences locals arguments
  | .conditional test consequent alternate =>
    test.references locals ++ consequent.references locals ++ alternate.references locals
  | .function func => func.references locals
  | .member object property computed =>
    object.references locals ++ if computed then property.references locals else []
  | .unsupported _ => []

def expressionReferences (locals : List String) : List Expr → List String
  | [] => []
  | e :: rest => e.references locals ++ expressionReferences locals rest

end

end ChurchScript.Script
