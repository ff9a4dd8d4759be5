import ChurchScript.Script.SyntaxTree

/-!
# What is read of a syntax tree

Every value of a syntax tree is read in a role, and its role and kind say which members are
looked at and what for (`Role.members`). Nothing else is: two values of one kind whose listed
members read the same, read the same (`Role.read_congr`), with the same result or the same
fault.
-/
namespace ChurchScript.Script.SyntaxTree

/-- The member of a node, unless it is absent or null. -/
def member? (node : Json) (field : String) : Option Json :=
  (optional node field).map Subtype.val

/-- What a value of a syntax tree is read as. -/
inductive Role where
  | root | statement | declaration | body | expression
  | pattern | declarator | switchCase | functionName
  deriving DecidableEq

/-- What a member is looked at for. -/
inductive Use where
  /-- the value itself -/
  | value
  /-- the value, or that it is a list or an object -/
  | scalar
  /-- whether there is one -/
  | presence
  /-- a node -/
  | node (role : Role)
  /-- a list of nodes -/
  | nodes (role : Role)

def functionMembers : List (String × Use) :=
  [("id", .node .functionName), ("params", .nodes .pattern), ("body", .node .body)]

def expressionMembers (kind : String) : List (String × Use) :=
  match kind with
  | "Literal" | "NumericLiteral" | "BooleanLiteral" | "StringLiteral" =>
    [("regex", .presence), ("bigint", .presence), ("value", .scalar)]
  | "Identifier" => [("name", .value)]
  | "BinaryExpression" | "LogicalExpression" =>
    [("operator", .value), ("left", .node .expression), ("right", .node .expression)]
  | "UnaryExpression" => [("operator", .value), ("argument", .node .expression)]
  | "CallExpression" => [("callee", .node .expression), ("arguments", .nodes .expression)]
  | "ConditionalExpression" =>
    [("test", .node .expression), ("consequent", .node .expression),
      ("alternate", .node .expression)]
  | "ArrowFunctionExpression" | "FunctionExpression" => functionMembers
  | "MemberExpression" =>
    [("object", .node .expression), ("property", .node .expression), ("computed", .value)]
  | "TSAsExpression" | "TSNonNullExpression" | "TSSatisfiesExpression" | "TSTypeAssertion"
  | "ParenthesizedExpression" => [("expression", .node .expression)]
  | _ => []

def statementMembers (kind : String) : List (String × Use) :=
  match kind with
  | "FunctionDeclaration" => functionMembers
  | "VariableDeclaration" => [("declarations", .nodes .declarator)]
  | "ReturnStatement" => [("argument", .node .expression)]
  | "SwitchStatement" => [("discriminant", .node .expression), ("cases", .nodes .switchCase)]
  | "BlockStatement" => [("body", .nodes .statement)]
  | "ExportNamedDeclaration" | "ExportDefaultDeclaration" => [("declaration", .node .declaration)]
  | _ => []

/-- The members that are looked at besides the kind, in a value of a role that names its kind
or names none. Declarators, cases and the names of functions may be of any kind. -/
def Role.members : Role → Option String → List (String × Use)
  | .root, some "Program" => [("body", .nodes .statement)]
  | .root, some "File" => [("program", .node .root)]
  | .statement, some kind => statementMembers kind
  | .declaration, some "FunctionDeclaration" => functionMembers
  | .declaration, some "VariableDeclaration" => [("declarations", .nodes .declarator)]
  | .body, some kind =>
    if kind = "BlockStatement" then statementMembers kind else expressionMembers kind
  | .expression, some kind => expressionMembers kind
  | .pattern, some "Identifier" => [("name", .value)]
  | .declarator, _ => [("id", .node .pattern), ("init", .node .expression)]
  | .switchCase, _ => [("test", .node .expression), ("consequent", .nodes .statement)]
  | .functionName, _ => [("name", .value)]
  | _, _ => []

/-- What an export hands on, if it is a declaration. -/
def declared (node : Json) : Except Error (Option Stmt) := do
  match ← kind node with
  | "FunctionDeclaration" | "VariableDeclaration" => return some (← statement node)
  | _ => return none

/-- The body of a function. -/
def functionBody (node : Json) : Except Error Body := do
  match ← kind node with
  | "BlockStatement" => return .block (← block node)
  | _ => return .expression (← expression node)

abbrev Role.Result : Role → Type
  | .root => Program
  | .statement => Stmt
  | .declaration => Option Stmt
  | .body => Body
  | .expression => Expr
  | .pattern => Pattern
  | .declarator => Declarator
  | .switchCase => SwitchCase
  | .functionName => String

def Role.read : (role : Role) → Json → Except Error role.Result
  | .root => program
  | .statement => SyntaxTree.statement
  | .declaration => declared
  | .body => functionBody
  | .expression => SyntaxTree.expression
  | .pattern => SyntaxTree.pattern
  | .declarator => SyntaxTree.declarator
  | .switchCase => SyntaxTree.switchCase
  | .functionName => fun node => string node "name"

/-- What shows of a value where lists and objects are not looked into. -/
def outline : Json → Json
  | .array _ => .array []
  | .object _ => .array []
  | value => value

/-- What a value reads as where a list of nodes is wanted, if it is a list. -/
def Role.readAll (role : Role) : Json → Option (Except Error (List role.Result))
  | .array items => some (items.mapM role.read)
  | _ => none

/-- Whether two members tell the same. -/
def Use.Same (before after : Option Json) : Use → Prop
  | .value => before = after
  | .scalar => before.map outline = after.map outline
  | .presence => before.isSome = after.isSome
  | .node role => before.map role.read = after.map role.read
  | .nodes role => before.map role.readAll = after.map role.readAll

theorem member?_eq_get? (node : Json) (field : String) :
    member? node field = (node.get? field).bind fun
      | .null => none
      | value => some value := by
  unfold member? optional
  split <;> rename_i found <;> simp only [found, Option.map_none, Option.map_some, Option.bind]

theorem kind?_eq_member? (node : Json) : kind? node = (member? node "type").bind Json.string? := by
  rw [kind?, member?_eq_get?]
  rcases node.get? "type" with _ | (_ | _ | _ | _ | _ | _) <;> rfl

/-! Every access to a node goes through its members. -/

section Access

variable (role : Role) (node : Json) (field : String)

theorem required_read :
    (required node field >>= fun child => role.read child.1) =
      match (member? node field).map role.read with
      | some result => result
      | none => .error (.malformedTree (.missing (kind? node) field)) := by
  unfold required member?
  cases optional node field <;> rfl

theorem optional_read :
    (optional node field).mapM (fun child => role.read child.1) =
      ((member? node field).map role.read).mapM id := by
  unfold member?
  cases optional node field <;> rfl

theorem items_read :
    (items node field >>= fun children => children.mapM fun child => role.read child.1) =
      match (member? node field).map role.readAll with
      | some (some results) => results
      | some none => .error (.malformedTree (.notArray (kind? node) field))
      | none => .error (.malformedTree (.missing (kind? node) field)) := by
  unfold items required member?
  rcases optional node field with _ | ⟨_ | _ | _ | _ | children | _, below⟩
  case some.array =>
    change List.mapM _ (List.map _ children.attach) = children.mapM role.read
    rw [List.mapM_map]
    change children.attach.mapM (role.read ∘ Subtype.val) = _
    rw [← List.mapM_map, List.attach_map_subtype_val]
  all_goals rfl

theorem string_eq :
    string node field =
      match member? node field with
      | some (.string value) => .ok value
      | some _ => .error (.malformedTree (.notString (kind? node) field))
      | none => .error (.malformedTree (.missing (kind? node) field)) := by
  unfold string required member?
  rcases optional node field with _ | ⟨_ | _ | _ | _ | _ | _, below⟩ <;> rfl

theorem literal_eq :
    literal node =
      if (member? node "regex").isSome || (member? node "bigint").isSome then .other
      else
        match (member? node "value").map outline with
        | some (.number value) => .number value
        | some (.bool value) => .boolean value
        | some (.string value) => .string value
        | some _ => .other
        | none => .null := by
  rw [literal, member?_eq_get? node "value", member?, member?, Option.isSome_map, Option.isSome_map]
  rcases node.get? "value" with _ | (_ | _ | _ | _ | _ | _) <;> rfl

theorem computed_eq :
    computed node =
      match member? node "computed" with
      | some (.bool value) => value
      | _ => false := by
  rw [computed, member?_eq_get?]
  rcases node.get? "computed" with _ | (_ | _ | _ | _ | _ | _) <;> rfl

end Access

section Congruence

variable {before after : Json} {field : String} {α : Type} (role : Role)

theorem kind_bind_congr (kinds : kind? before = kind? after) {next next' : String → Except Error α}
    (rest : ∀ kind, kind? before = some kind → next kind = next' kind) :
    (kind before >>= next) = (kind after >>= next') := by
  rw [kind, kind, ← kinds]
  cases named : kind? before with
  | none => rfl
  | some kind => exact rest kind named

theorem required_congr (kinds : kind? before = kind? after)
    (same : (Use.node role).Same (member? before field) (member? after field)) :
    (required before field >>= fun child => role.read child.1) =
      (required after field >>= fun child => role.read child.1) := by
  rw [required_read, required_read, kinds, same]

theorem required_bind_congr (kinds : kind? before = kind? after)
    (same : (Use.node role).Same (member? before field) (member? after field))
    {next next' : role.Result → Except Error α} (rest : ∀ result, next result = next' result) :
    (required before field >>= fun child => role.read child.1 >>= next) =
      (required after field >>= fun child => role.read child.1 >>= next') := by
  cases funext rest
  rw [← bind_assoc, ← bind_assoc, required_congr role kinds same]

theorem optional_bind_congr
    (same : (Use.node role).Same (member? before field) (member? after field))
    {next next' : Option role.Result → Except Error α}
    (rest : ∀ result, next result = next' result) :
    ((optional before field).mapM (fun child => role.read child.1) >>= next) =
      ((optional after field).mapM (fun child => role.read child.1) >>= next') := by
  cases funext rest
  rw [optional_read, optional_read, same]

theorem items_congr (kinds : kind? before = kind? after)
    (same : (Use.nodes role).Same (member? before field) (member? after field)) :
    (items before field >>= fun children => children.mapM fun child => role.read child.1) =
      (items after field >>= fun children => children.mapM fun child => role.read child.1) := by
  rw [items_read, items_read, kinds, same]

theorem items_bind_congr (kinds : kind? before = kind? after)
    (same : (Use.nodes role).Same (member? before field) (member? after field))
    {next next' : List role.Result → Except Error α}
    (rest : ∀ results, next results = next' results) :
    (items before field >>= fun children =>
        children.mapM (fun child => role.read child.1) >>= next) =
      (items after field >>= fun children =>
        children.mapM (fun child => role.read child.1) >>= next') := by
  cases funext rest
  rw [← bind_assoc, ← bind_assoc, items_congr role kinds same]

theorem string_congr (kinds : kind? before = kind? after)
    (same : Use.value.Same (member? before field) (member? after field)) :
    string before field = string after field := by
  rw [string_eq, string_eq, kinds, same]

theorem literal_congr
    (regex : Use.presence.Same (member? before "regex") (member? after "regex"))
    (bigint : Use.presence.Same (member? before "bigint") (member? after "bigint"))
    (value : Use.scalar.Same (member? before "value") (member? after "value")) :
    literal before = literal after := by
  rw [literal_eq, literal_eq, regex, bigint, value]

theorem computed_congr
    (same : Use.value.Same (member? before "computed") (member? after "computed")) :
    computed before = computed after := by
  rw [computed_eq, computed_eq, same]

end Congruence

section Roles

variable {node before after : Json} {α : Type}

theorem functionBody_bind (node : Json) (next : Body → Except Error α) :
    (functionBody node >>= next) = (do
      match ← kind node with
      | "BlockStatement" => next (.block (← block node))
      | _ => next (.expression (← expression node))) := by
  rw [functionBody, bind_assoc]
  refine kind_bind_congr rfl fun kind _ => ?_
  split <;> exact bind_assoc ..

theorem function_eq (node : Json) :
    function node = (do
      let name ← (optional node "id").mapM fun child => string child.1 "name"
      let params ← (← items node "params").mapM fun child => pattern child.1
      let body ← functionBody (← required node "body").1
      return ⟨name, params, body⟩) := by
  rw [function]
  refine bind_congr fun name => bind_congr fun given => bind_congr fun params =>
    bind_congr fun body => ?_
  exact (functionBody_bind body.1 fun read => return Func.mk name params read).symm

theorem statement_function (named : kind? node = some "FunctionDeclaration") :
    statement node = (do return .function (← function node)) := by
  rw [statement, kind, named]
  rfl

theorem exported_eq (node : Json) (exportKind : String) :
    exported node exportKind =
      match (member? node "declaration").map declared with
      | some declaration => do return (← declaration).getD (.unsupported exportKind)
      | none => .ok (.unsupported exportKind) := by
  rw [exported, member?]
  cases optional node "declaration" with
  | none => rfl
  | some child =>
    change _ = (declared child.1 >>= fun declaration => _)
    rw [declared, bind_assoc]
    refine kind_bind_congr rfl fun kind named => ?_
    split
    · rw [statement_function named]
      cases function child.1 <;> rfl
    · cases statement child.1 <;> rfl
    · simp

/-- Whether two values tell the same in some of their members. -/
def SameMembers (members : List (String × Use)) (before after : Json) : Prop :=
  ∀ part ∈ members, part.2.Same (member? before part.1) (member? after part.1)

theorem function_congr (kinds : kind? before = kind? after)
    (parts : SameMembers functionMembers before after) : function before = function after := by
  simp only [SameMembers, functionMembers, List.forall_mem_cons] at parts
  obtain ⟨name, params, body, -⟩ := parts
  rw [function_eq, function_eq]
  exact optional_bind_congr .functionName name fun _ =>
    items_bind_congr .pattern kinds params fun _ =>
      required_bind_congr .body kinds body fun _ => rfl

theorem expression_congr (kinds : kind? before = kind? after)
    (parts : SameMembers (Role.expression.members (kind? before)) before after) :
    expression before = expression after := by
  rw [expression, expression]
  refine kind_bind_congr kinds fun kind named => ?_
  rw [named] at parts
  split
  all_goals simp only [SameMembers, Role.members, expressionMembers, List.forall_mem_cons] at parts
  -- literals
  case h_1 | h_2 | h_3 | h_4 => rw [literal_congr parts.1 parts.2.1 parts.2.2.1]
  case h_5 => rfl
  -- names
  case h_6 => rw [string_congr kinds parts.1]
  -- operators
  case h_7 | h_8 =>
    obtain ⟨operator, left, right, -⟩ := parts
    rw [string_congr kinds operator]
    exact congrArg _ (funext fun _ => required_bind_congr .expression kinds left fun _ =>
      required_bind_congr .expression kinds right fun _ => rfl)
  case h_9 =>
    obtain ⟨operator, argument, -⟩ := parts
    rw [string_congr kinds operator]
    exact congrArg _ (funext fun _ => required_bind_congr .expression kinds argument fun _ => rfl)
  -- calls
  case h_10 =>
    obtain ⟨callee, arguments, -⟩ := parts
    exact required_bind_congr .expression kinds callee fun _ =>
      items_bind_congr .expression kinds arguments fun _ => rfl
  -- conditionals
  case h_11 =>
    obtain ⟨test, consequent, alternate, -⟩ := parts
    exact required_bind_congr .expression kinds test fun _ =>
      required_bind_congr .expression kinds consequent fun _ =>
        required_bind_congr .expression kinds alternate fun _ => rfl
  -- functions
  case h_12 | h_13 => rw [function_congr kinds parts]
  -- members of objects
  case h_14 =>
    obtain ⟨object, property, computed, -⟩ := parts
    rw [computed_congr computed]
    exact required_bind_congr .expression kinds object fun _ =>
      required_bind_congr .expression kinds property fun _ => rfl
  -- wrappers
  case h_15 | h_16 | h_17 | h_18 | h_19 => exact required_congr .expression kinds parts.1
  case h_20 => rfl

theorem block_congr (kinds : kind? before = kind? after)
    (same : (Use.nodes .statement).Same (member? before "body") (member? after "body")) :
    block before = block after := by
  rw [block, block]
  exact items_congr .statement kinds same

theorem statement_congr (kinds : kind? before = kind? after)
    (parts : SameMembers (Role.statement.members (kind? before)) before after) :
    statement before = statement after := by
  rw [statement, statement]
  refine kind_bind_congr kinds fun kind named => ?_
  rw [named] at parts
  split
  all_goals simp only [SameMembers, Role.members, statementMembers, List.forall_mem_cons] at parts
  -- functions and variables
  case h_1 => rw [function_congr kinds parts]
  case h_2 => exact items_bind_congr .declarator kinds parts.1 fun _ => rfl
  -- returns
  case h_3 => exact optional_bind_congr .expression parts.1 fun _ => rfl
  -- switches
  case h_4 =>
    exact required_bind_congr .expression kinds parts.1 fun _ =>
      items_bind_congr .switchCase kinds parts.2.1 fun _ => rfl
  -- blocks
  case h_5 => rw [block_congr kinds parts.1]
  case h_6 => rfl
  -- exports
  case h_7 | h_8 =>
    have same : (member? before "declaration").map declared = _ := parts.1
    rw [exported_eq, exported_eq, same]
    rfl
  case h_9 => rfl

theorem declared_congr (kinds : kind? before = kind? after)
    (parts : SameMembers (Role.declaration.members (kind? before)) before after) :
    declared before = declared after := by
  rw [declared, declared]
  refine kind_bind_congr kinds fun kind named => ?_
  split
  case h_1 | h_2 =>
    rw [statement_congr kinds (by rwa [named] at parts ⊢)]
  case h_3 => rfl

theorem functionBody_congr (kinds : kind? before = kind? after)
    (parts : SameMembers (Role.body.members (kind? before)) before after) :
    functionBody before = functionBody after := by
  rw [functionBody, functionBody]
  refine kind_bind_congr kinds fun kind named => ?_
  split
  · rw [named] at parts
    rw [block_congr kinds (parts _ (.head _))]
  · next other =>
    rw [expression_congr kinds]
    rw [named] at parts ⊢
    rwa [Role.members, if_neg other] at parts

theorem pattern_congr (kinds : kind? before = kind? after)
    (parts : SameMembers (Role.pattern.members (kind? before)) before after) :
    pattern before = pattern after := by
  rw [pattern, pattern]
  refine kind_bind_congr kinds fun kind named => ?_
  rw [named] at parts
  split
  · rw [string_congr kinds (parts _ (.head _))]
  · rfl

theorem declarator_congr (kinds : kind? before = kind? after)
    (parts : SameMembers (Role.declarator.members (kind? before)) before after) :
    declarator before = declarator after := by
  simp only [SameMembers, Role.members, List.forall_mem_cons] at parts
  rw [declarator, declarator]
  exact required_bind_congr .pattern kinds parts.1 fun _ =>
    optional_bind_congr .expression parts.2.1 fun _ => rfl

theorem switchCase_congr (kinds : kind? before = kind? after)
    (parts : SameMembers (Role.switchCase.members (kind? before)) before after) :
    switchCase before = switchCase after := by
  simp only [SameMembers, Role.members, List.forall_mem_cons] at parts
  rw [switchCase, switchCase]
  exact optional_bind_congr .expression parts.1 fun _ =>
    items_bind_congr .statement kinds parts.2.1 fun _ => rfl

theorem program_congr (kinds : kind? before = kind? after)
    (parts : SameMembers (Role.root.members (kind? before)) before after) :
    program before = program after := by
  rw [program, program]
  refine kind_bind_congr kinds fun kind named => ?_
  rw [named] at parts
  split
  · rw [block_congr kinds (parts _ (.head _))]
  · exact required_congr .root kinds (parts _ (.head _))
  · rfl

/-- A value is read through the members that its role lists for its kind, and what they tell
is all that its reading depends on. -/
theorem read_congr {role : Role} (kinds : kind? before = kind? after)
    (parts : SameMembers (role.members (kind? before)) before after) :
    role.read before = role.read after := by
  cases role with
  | root => exact program_congr kinds parts
  | statement => exact statement_congr kinds parts
  | declaration => exact declared_congr kinds parts
  | body => exact functionBody_congr kinds parts
  | expression => exact expression_congr kinds parts
  | pattern => exact pattern_congr kinds parts
  | declarator => exact declarator_congr kinds parts
  | switchCase => exact switchCase_congr kinds parts
  | functionName => exact string_congr kinds (parts _ (.head _))

end Roles

end ChurchScript.Script.SyntaxTree
