import ChurchScript.Church.Code
import ChurchScript.Error
import ChurchScript.Script.CallGraph

/-!
# Compiling scripts

The first declared function is the entry point. A call of a declared function is
replaced by its body with the arguments in place of the parameters; a declared
function that is only named becomes a lambda, which is kept and used again.
Recursive functions are refused.

Every expression and every list of statements is one level of nesting, and there
is a limit to the levels. One level of the compiler is given by the level below
it and by the levels that the bodies of declared functions are compiled at
(`Level.above`), so the limit is what the recursion goes down along.
-/
namespace ChurchScript.Church

open Script

structure Settings where
  /-- The deepest nesting that is compiled. -/
  maxDepth : Nat := 512
  /-- Whether a function compiled to a lambda is kept for the next use. -/
  keepsFunctions : Bool := true
  deriving DecidableEq, Repr

/-- What the compiler knows of a script from the start. -/
structure Declarations where
  table : FunctionTable
  recursive : List String

def Declarations.ofTable (table : FunctionTable) : Declarations :=
  ⟨table, table.callGraph.recursive⟩

/-- Functions that were compiled to a lambda, newest first. -/
abbrev Kept (α : Type) := Scope α

abbrev Compile (α : Type) := StateT (Kept α) (Except Error)

/-- A case of a switch allows statements that a body does not: a break ends it, and
statements outside of the subset are passed over. -/
inductive Place where
  | body | case
  deriving DecidableEq, Repr

/-- How a list of statements ends. -/
inductive Exit (α : Type) where
  | returned (value : α)
  | broken
  | finished

def Exit.value? {α : Type} : Exit α → Option α
  | returned value => some value
  | _ => none

/-- How expressions and lists of statements are compiled. -/
structure Level (α : Type) where
  expression : Scope α → Expr → Compile α α
  statements : Place → Scope α → List Stmt → Compile α (Exit α)

def paramNames (func : Func) : Except Error (List String) :=
  func.params.mapM fun
    | .identifier name => .ok name
    | .unsupported kind => .error (.unsupported (.parameterPattern kind))

section Encodings

variable {α : Type} (target : Target α)

def literal : Literal → α
  | .number value =>
    match value.toNatUpTo? Term.maxNumeral with
    | some n => target.numeral n
    | none => target.zero
  | .boolean true => target.combinator .true
  | .boolean false => target.combinator .false
  | _ => target.zero

def binary (operator : BinaryOperator) (left right : α) : Except Error α :=
  match operator with
  | .add => .ok (target.use .add [left, right])
  | .sub => .ok (target.use .sub [left, right])
  | .mul => .ok (target.use .mul [left, right])
  | .div => .ok (target.use .div [left, right])
  | .eq | .strictEq => .ok (target.use .eq [left, right])
  | .notEq | .strictNotEq => .ok (target.use .not [target.use .eq [left, right]])
  | .lt => .ok (target.use .lt [left, right])
  | .le => .ok (target.use .le [left, right])
  | .gt => .ok (target.use .lt [right, left])
  | .ge => .ok (target.use .ge [left, right])
  | .other token => .error (.unsupported (.binaryOperator token))

def logical (operator : LogicalOperator) (left right : α) : Except Error α :=
  match operator with
  | .and => .ok (target.use .and [left, right])
  | .or => .ok (target.use .or [left, right])
  | .other token => .error (.unsupported (.logicalOperator token))

def unary (operator : UnaryOperator) (argument : α) : Except Error α :=
  match operator with
  | .not => .ok (target.use .not [argument])
  | .minus => .ok (target.use .sub [target.zero, argument])
  | .other token => .error (.unsupported (.unaryOperator token))

/-- A member that is named and not computed. -/
def namedMember (object : α) (property : Expr) : Except Error α :=
  match property with
  | .identifier name =>
    if name == "map" then .ok (target.use .map [object])
    else if name == "filter" then .ok (target.use .filter [object])
    else .ok (target.use .property [object, target.combinator .identity])
  | _ => .error (.unsupported .memberProperty)

end Encodings

namespace Level

variable {α : Type} (target : Target α) (settings : Settings) (declared : Declarations)
  (callee : String → Level α) (below : Level α)

/-- What a function gives back in a scope that binds its parameters. -/
def functionBody (func : Func) (scope : Scope α) : Compile α α :=
  match func.body with
  | .block statements => do
    match (← below.statements .body scope statements).value? with
    | some value => return value
    | none => throw (.noReturn func.displayName)
  | .expression result => below.expression scope result

def refuseRecursive (name : String) : Compile α Unit :=
  if declared.recursive.contains name then throw (.unsupported (.recursion name)) else return ()

/-- The body of a declared function with the arguments in place of its parameters. -/
def inlineCall (name : String) (func : Func) (arguments : List Expr) (scope : Scope α) :
    Compile α α := do
  refuseRecursive declared name
  let arguments ← arguments.mapM (below.expression scope)
  let params ← paramNames func
  functionBody (callee name) func (Scope.bindArguments {} target.zero params arguments)

/-- Keeps a function for the next use, if the settings say so. -/
def keep (name : String) (code : α) : Compile α Unit :=
  if settings.keepsFunctions then modify (·.bind name code) else return ()

/-- A declared function as a lambda. -/
def reference (name : String) (func : Func) : Compile α α := do
  refuseRecursive declared name
  let params ← paramNames func
  let body ← functionBody (callee name) func (target.enter params {})
  let code := target.function params body
  keep settings name code
  return code

/-- A name stands for what the scope binds it to, else for the declared function of
that name, else for itself. -/
def identifier (name : String) (scope : Scope α) : Compile α α := do
  match scope.lookup name with
  | some code => return code
  | none =>
    match (← get).lookup name with
    | some code => return code
    | none =>
      match declared.table.find? name with
      | some func => reference target settings declared callee name func
      | none => return target.name name

/-- The declared function that a call replaces by its body: named by the callee,
bound by no scope and not yet compiled to a lambda. -/
def inlined? (called : Expr) (scope : Scope α) (kept : Kept α) : Option (String × Func) :=
  match called with
  | .identifier name =>
    if scope.contains name || kept.contains name then none
    else (declared.table.find? name).map fun func => (name, func)
  | _ => none

def call (called : Expr) (arguments : List Expr) (scope : Scope α) : Compile α α := do
  match inlined? declared called scope (← get) with
  | some (name, func) => inlineCall target declared callee below name func arguments scope
  | none =>
    let head ← below.expression scope called
    let arguments ← arguments.mapM (below.expression scope)
    return target.apply head arguments

def compileExpression (scope : Scope α) : Expr → Compile α α
  | .literal value => return literal target value
  | .identifier name => identifier target settings declared callee name scope
  | .binary operator left right => do
    let left ← below.expression scope left
    let right ← below.expression scope right
    binary target operator left right
  | .logical operator left right => do
    let left ← below.expression scope left
    let right ← below.expression scope right
    logical target operator left right
  | .unary operator argument => do
    unary target operator (← below.expression scope argument)
  | .call called arguments => call target declared callee below called arguments scope
  | .conditional test consequent alternate => do
    let test ← below.expression scope test
    let consequent ← below.expression scope consequent
    let alternate ← below.expression scope alternate
    return target.use .select [test, consequent, alternate]
  | .function func => do
    let params ← paramNames func
    let body ← functionBody below func (target.enter params scope)
    return target.function params body
  | .member object property computed => do
    let object ← below.expression scope object
    if computed then
      return target.use .property [object, ← below.expression scope property]
    else namedMember target object property
  | .unsupported kind => throw (.unsupported (.expression kind))

/-- The scope after a declaration. A name without an initial value is not bound. -/
def declare (scope : Scope α) : List Declarator → Compile α (Scope α)
  | [] => return scope
  | ⟨.unsupported kind, _⟩ :: _ => throw (.unsupported (.declarationPattern kind))
  | ⟨.identifier _, none⟩ :: rest => declare scope rest
  | ⟨.identifier name, some init⟩ :: rest => do
    declare (scope.bind name (← below.expression scope init)) rest

/-- The value that the statements of a case give back, if they do. -/
def caseValue (scope : Scope α) (case : SwitchCase) : Compile α (Option α) :=
  Exit.value? <$> below.statements .case scope case.consequent

/-- The value of the first case without a test. -/
def defaultValue (scope : Scope α) (cases : List SwitchCase) : Compile α (Option α) :=
  match cases.find? (·.test.isNone) with
  | some case => caseValue below scope case
  | none => return none

/-- Puts a case with a test in front of the selection for the cases behind it. -/
def addCase (discriminant : α) (scope : Scope α) (case : SwitchCase)
    (folded : Option α) : Compile α (Option α) := do
  match case.test with
  | none => return folded
  | some test =>
    let test ← below.expression scope test
    match ← caseValue below scope case with
    | none => return folded
    | some result =>
      return some (target.use .select
        [target.use .eq [discriminant, test], result, folded.getD target.zero])

/-- A switch as a selection over its cases, the default case innermost; none if no
case gives back a value. The cases with a test are compiled from the last to the
first. -/
def switch (discriminant : Expr) (cases : List SwitchCase) (scope : Scope α) :
    Compile α (Option α) := do
  let discriminant ← below.expression scope discriminant
  let default ← defaultValue below scope cases
  cases.foldrM (addCase target below discriminant scope) default

def compileStatements (place : Place) (scope : Scope α) : List Stmt → Compile α (Exit α)
  | [] => return .finished
  | .declare declarators :: rest => do
    compileStatements place (← declare below scope declarators) rest
  | .ret (some value) :: _ => do return .returned (← below.expression scope value)
  | .ret none :: rest => compileStatements place scope rest
  | .empty :: rest => compileStatements place scope rest
  | .switch discriminant cases :: rest => do
    match ← switch target below discriminant cases scope with
    | some value => return .returned value
    | none => compileStatements place scope rest
  | .block body :: rest => do
    match ← below.statements place scope body with
    | .finished => compileStatements place scope rest
    | exit => return exit
  | .function func :: _ => throw (.unsupported (.nestedFunction func.displayName))
  | .unsupported kind :: rest =>
    match place with
    | .body => throw (.unsupported (.statement kind))
    | .case =>
      if kind == "BreakStatement" then return .broken
      else compileStatements place scope rest

/-- The level at which no nesting is left. -/
def bottom : Level α where
  expression _ _ := throw (.nestingTooDeep settings.maxDepth)
  statements _ _ _ := throw (.nestingTooDeep settings.maxDepth)

/-- The level that compiles what lies inside it at the level below, and the body of
a declared function at the level of that function. -/
def above : Level α where
  expression := compileExpression target settings declared callee below
  statements := compileStatements target below

/-- The level with a number of levels to go down. -/
def ofDepth : Nat → Level α
  | 0 => bottom settings
  | depth + 1 => above target settings declared (fun _ => ofDepth depth) (ofDepth depth)

end Level

/-- The declared function that a script starts with, and its name. -/
def entryPoint? (table : FunctionTable) : Option (String × Func) := do
  let (name, _) ← table.declarations.head?
  return (name, ← table.find? name)

def compileEntry {α : Type} (target : Target α) (top : Level α) (entry : Func) :
    Compile α (EntryOf α) := do
  let params ← paramNames entry
  let body ← Level.functionBody top entry (target.enter params {})
  return ⟨params, body⟩

/-- Compiles the entry point of a script at the level for its name. -/
def compileAt {α : Type} (target : Target α) (top : String → Level α) (table : FunctionTable) :
    Except Error (EntryOf α) :=
  match entryPoint? table with
  | none => .error .noEntryPoint
  | some (name, entry) => (compileEntry target (top name) entry).run' {}

def compileTo {α : Type} (target : Target α) (settings : Settings) (program : Program) :
    Except Error (EntryOf α) :=
  compileAt target (fun _ => Level.ofDepth target settings (Declarations.ofTable program.table)
    settings.maxDepth) program.table

def compileWith (settings : Settings) (program : Program) : Except Error Entry :=
  compileTo Code.target settings program

def compile (program : Program) : Except Error Entry :=
  compileWith {} program

end ChurchScript.Church
