import ChurchScript.Error
import ChurchScript.Json.Reader
import ChurchScript.Script.Syntax

/-!
# Reading scripts from syntax trees

A script comes as an ESTree syntax tree in JSON. Every node names its kind in
its field `type`; an absent field and a null field are the same. Wrappers that
only carry types or parentheses are passed through.
-/
namespace ChurchScript.Script.SyntaxTree

/-- A value inside of a node, and thus smaller than it. -/
abbrev Child (node : Json) := { child : Json // sizeOf child < sizeOf node }

def kind? (node : Json) : Option String :=
  (node.get? "type").bind Json.string?

def kind (node : Json) : Except Error String :=
  match kind? node with
  | some kind => .ok kind
  | none => .error (.malformedTree .untyped)

def optional (node : Json) (field : String) : Option (Child node) :=
  match h : node.get? field with
  | none => none
  | some .null => none
  | some child => some ⟨child, Json.sizeOf_lt_of_get? h⟩

def required (node : Json) (field : String) : Except Error (Child node) :=
  match optional node field with
  | some child => .ok child
  | none => .error (.malformedTree (.missing (kind? node) field))

def items (node : Json) (field : String) : Except Error (List (Child node)) := do
  match ← required node field with
  | ⟨.array children, below⟩ =>
    return children.attach.map fun ⟨child, inside⟩ =>
      ⟨child, by
        have := List.sizeOf_lt_of_mem inside
        simp only [Json.array.sizeOf_spec] at below
        omega⟩
  | _ => throw (.malformedTree (.notArray (kind? node) field))

def string (node : Json) (field : String) : Except Error String := do
  match ← required node field with
  | ⟨.string value, _⟩ => return value
  | _ => throw (.malformedTree (.notString (kind? node) field))

def pattern (node : Json) : Except Error Pattern := do
  match ← kind node with
  | "Identifier" => return .identifier (← string node "name")
  | kind => return .unsupported kind

/-- A literal; one that carries a pattern or a big integer has no value here. -/
def literal (node : Json) : Literal :=
  if (optional node "regex").isSome || (optional node "bigint").isSome then .other
  else
    match node.get? "value" with
    | some (.number value) => .number value
    | some (.bool value) => .boolean value
    | some (.string value) => .string value
    | some .null => .null
    | none => .null
    | some _ => .other

def computed (node : Json) : Bool :=
  match node.get? "computed" with
  | some (.bool value) => value
  | _ => false

mutual

def expression (node : Json) : Except Error Expr := do
  match ← kind node with
  | "Literal" | "NumericLiteral" | "BooleanLiteral" | "StringLiteral" =>
    return .literal (literal node)
  | "NullLiteral" => return .literal .null
  | "Identifier" => return .identifier (← string node "name")
  | "BinaryExpression" =>
    let operator ← string node "operator"
    let left ← expression (← required node "left").1
    let right ← expression (← required node "right").1
    return .binary (.ofToken operator) left right
  | "LogicalExpression" =>
    let operator ← string node "operator"
    let left ← expression (← required node "left").1
    let right ← expression (← required node "right").1
    return .logical (.ofToken operator) left right
  | "UnaryExpression" =>
    let operator ← string node "operator"
    let argument ← expression (← required node "argument").1
    return .unary (.ofToken operator) argument
  | "CallExpression" =>
    let callee ← expression (← required node "callee").1
    let arguments ← (← items node "arguments").mapM fun child => expression child.1
    return .call callee arguments
  | "ConditionalExpression" =>
    let test ← expression (← required node "test").1
    let consequent ← expression (← required node "consequent").1
    let alternate ← expression (← required node "alternate").1
    return .conditional test consequent alternate
  | "ArrowFunctionExpression" | "FunctionExpression" => return .function (← function node)
  | "MemberExpression" =>
    let object ← expression (← required node "object").1
    let property ← expression (← required node "property").1
    return .member object property (computed node)
  | "TSAsExpression" | "TSNonNullExpression" | "TSSatisfiesExpression" | "TSTypeAssertion"
  | "ParenthesizedExpression" => expression (← required node "expression").1
  | kind => return .unsupported kind
termination_by 2 * sizeOf node + 1

def function (node : Json) : Except Error Func := do
  let name ← (optional node "id").mapM fun child => string child.1 "name"
  let params ← (← items node "params").mapM fun child => pattern child.1
  let body ← required node "body"
  match ← kind body.1 with
  | "BlockStatement" => return ⟨name, params, .block (← block body.1)⟩
  | _ => return ⟨name, params, .expression (← expression body.1)⟩
termination_by 2 * sizeOf node

def block (node : Json) : Except Error (List Stmt) := do
  (← items node "body").mapM fun child => statement child.1
termination_by 2 * sizeOf node

def declarator (node : Json) : Except Error Declarator := do
  let target ← pattern (← required node "id").1
  let init ← (optional node "init").mapM fun child => expression child.1
  return ⟨target, init⟩
termination_by 2 * sizeOf node

def switchCase (node : Json) : Except Error SwitchCase := do
  let test ← (optional node "test").mapM fun child => expression child.1
  let consequent ← (← items node "consequent").mapM fun child => statement child.1
  return ⟨test, consequent⟩
termination_by 2 * sizeOf node

def statement (node : Json) : Except Error Stmt := do
  match ← kind node with
  | "FunctionDeclaration" => return .function (← function node)
  | "VariableDeclaration" =>
    return .declare (← (← items node "declarations").mapM fun child => declarator child.1)
  | "ReturnStatement" =>
    return .ret (← (optional node "argument").mapM fun child => expression child.1)
  | "SwitchStatement" =>
    let discriminant ← expression (← required node "discriminant").1
    let cases ← (← items node "cases").mapM fun child => switchCase child.1
    return .switch discriminant cases
  | "BlockStatement" => return .block (← block node)
  | "EmptyStatement" => return .empty
  | "ExportNamedDeclaration" => exported node "ExportNamedDeclaration"
  | "ExportDefaultDeclaration" => exported node "ExportDefaultDeclaration"
  | kind => return .unsupported kind
termination_by 2 * sizeOf node + 1

/-- What an export node of the given kind declares. -/
def exported (node : Json) (exportKind : String) : Except Error Stmt := do
  match optional node "declaration" with
  | none => return .unsupported exportKind
  | some child =>
    match ← kind child.1 with
    | "FunctionDeclaration" => return .function (← function child.1)
    | "VariableDeclaration" => statement child.1
    | _ => return .unsupported exportKind
termination_by 2 * sizeOf node

end

def program (root : Json) : Except Error Program := do
  match ← kind root with
  | "Program" => return ⟨← block root⟩
  | "File" => program (← required root "program").1
  | kind => throw (.malformedTree (.notProgram kind))
termination_by sizeOf root

end ChurchScript.Script.SyntaxTree

namespace ChurchScript.Script

def Program.parse (source : String) : Except Error Program :=
  match Json.parse? source with
  | some root => SyntaxTree.program root
  | none => .error (.malformedTree .invalidJson)

end ChurchScript.Script
