import Mathlib.Data.List.Nodup
import Mathlib.Logic.Relation
import ChurchScript.Proofs.Script.TreeReading

/-!
# Syntax trees that read the same

A change somewhere in a syntax tree is not noticed if it only wraps an expression, exports a
declaration, puts the whole tree into a file, or touches what is not read (`Change`). What a
tree reads as stays the same, the fault of a malformed tree included (`Change.read_eq`). An
export hands on a declaration, but not another export (`statement_export_of_other`), and
declarators are read whatever kind they name: there, changes show.
-/
namespace ChurchScript.Script.SyntaxTree

/-- The wrappers around an expression, which carry types or parentheses. -/
def wrapperKinds : List String :=
  ["TSAsExpression", "TSNonNullExpression", "TSSatisfiesExpression", "TSTypeAssertion",
    "ParenthesizedExpression"]

def exportKinds : List String := ["ExportNamedDeclaration", "ExportDefaultDeclaration"]

/-- The statements that an export hands on. -/
def declarationKinds : List String := ["FunctionDeclaration", "VariableDeclaration"]

/-- Whether a value of a role and kind is an expression. The body of a function is one unless
it is a block, and what an export names is one unless it is a declaration. -/
def Role.IsExpression : Role → Option String → Prop
  | .expression, _ => True
  | .body, kind => kind ≠ some "BlockStatement"
  | .declaration, some kind => kind ∉ declarationKinds
  | _, _ => False

/-- Whether a member is as it was, as far as it is looked at. -/
def Use.Unchanged (before after : Option Json) : Use → Prop
  | .scalar => before.map outline = after.map outline
  | .presence => before.isSome = after.isSome
  | _ => before = after

/-- One change, at any depth of a value that is read in a role. -/
inductive Change : Role → Json → Json → Prop
  /-- Members that are not looked at come, go or change. -/
  | unread {role : Role} {before after : Json} (kinds : kind? before = kind? after)
      (parts : ∀ part ∈ role.members (kind? before),
        part.2.Unchanged (member? before part.1) (member? after part.1)) :
      Change role before after
  /-- An expression gets a wrapper. -/
  | wrap {role : Role} {node wrapper : Json} {kind : String}
      (place : role.IsExpression (kind? node)) (named : kind? wrapper = some kind)
      (around : kind ∈ wrapperKinds) (inside : member? wrapper "expression" = some node) :
      Change role node wrapper
  /-- A declaration is exported. -/
  | exported {node wrapper : Json} {declaration kind : String}
      (declares : kind? node = some declaration) (listed : declaration ∈ declarationKinds)
      (named : kind? wrapper = some kind) (around : kind ∈ exportKinds)
      (inside : member? wrapper "declaration" = some node) :
      Change .statement node wrapper
  /-- The tree becomes that of a file. -/
  | filed {node wrapper : Json} (named : kind? wrapper = some "File")
      (inside : member? wrapper "program" = some node) :
      Change .root node wrapper
  /-- A part that is a node changes. -/
  | part {role inner : Role} {before after old new : Json} {field : String}
      (listed : (field, .node inner) ∈ role.members (kind? before))
      (elsewhere : ∀ other, other ≠ field → member? before other = member? after other)
      (found : member? before field = some old) (replaced : member? after field = some new)
      (change : Change inner old new) :
      Change role before after
  /-- A node in a list changes. -/
  | item {role inner : Role} {before after old new : Json} {field : String}
      {front back : List Json} (listed : (field, .nodes inner) ∈ role.members (kind? before))
      (elsewhere : ∀ other, other ≠ field → member? before other = member? after other)
      (found : member? before field = some (.array (front ++ old :: back)))
      (replaced : member? after field = some (.array (front ++ new :: back)))
      (change : Change inner old new) :
      Change role before after

theorem Use.Unchanged.same {use : Use} {before after : Option Json}
    (unchanged : use.Unchanged before after) : use.Same before after := by
  cases use with
  | value | scalar | presence => exact unchanged
  | node role | nodes role => exact congrArg (Option.map _) unchanged

/-- No member is listed twice, and the kind is not listed. -/
theorem members_nodup (role : Role) (kind : Option String) :
    ("type" :: (role.members kind).map Prod.fst).Nodup := by
  have statements (kind : String) :
      ("type" :: (statementMembers kind).map Prod.fst).Nodup := by
    unfold statementMembers
    split <;> decide
  have expressions (kind : String) :
      ("type" :: (expressionMembers kind).map Prod.fst).Nodup := by
    unfold expressionMembers
    split <;> decide
  unfold Role.members
  split
  case h_3 => exact statements _
  case h_6 =>
    split
    · exact statements _
    · exact expressions _
  case h_7 => exact expressions _
  all_goals decide

section Parts

variable {role : Role} {before after : Json} {field : String} {use : Use}

theorem kind?_eq_of_elsewhere (listed : (field, use) ∈ role.members (kind? before))
    (elsewhere : ∀ other, other ≠ field → member? before other = member? after other) :
    kind? before = kind? after := by
  have other : "type" ≠ field := by
    rintro rfl
    exact (List.nodup_cons.mp (members_nodup role _)).1 (List.mem_map_of_mem listed)
  rw [kind?_eq_member?, kind?_eq_member?, elsewhere _ other]

/-- A value reads the same if all but one member are as before and that one tells the same. -/
theorem read_eq_of_part (listed : (field, use) ∈ role.members (kind? before))
    (elsewhere : ∀ other, other ≠ field → member? before other = member? after other)
    (same : use.Same (member? before field) (member? after field)) :
    role.read before = role.read after := by
  refine read_congr (kind?_eq_of_elsewhere listed elsewhere) fun part member => ?_
  obtain ⟨name, found⟩ := part
  by_cases here : name = field
  · subst here
    have names := (List.nodup_cons.mp (members_nodup role (kind? before))).2
    cases List.inj_on_of_nodup_map names member listed rfl
    exact same
  · refine Use.Unchanged.same ?_
    rw [elsewhere name here]
    cases found <;> rfl

end Parts

section Wrappers

variable {node wrapper : Json} {kind : String}

theorem required_of_member (role : Role) {field : String}
    (inside : member? wrapper field = some node) :
    (required wrapper field >>= fun child => role.read child.1) = role.read node := by
  rw [required_read, inside]
  rfl

theorem program_file (named : kind? wrapper = some "File")
    (inside : member? wrapper "program" = some node) : program wrapper = program node := by
  rw [program, SyntaxTree.kind, named]
  exact required_of_member .root inside

theorem expression_wrapper (named : kind? wrapper = some kind) (around : kind ∈ wrapperKinds)
    (inside : member? wrapper "expression" = some node) :
    expression wrapper = expression node := by
  have through := required_of_member .expression inside
  rw [expression, SyntaxTree.kind, named]
  simp only [wrapperKinds, List.mem_cons, List.not_mem_nil, or_false] at around
  obtain rfl | rfl | rfl | rfl | rfl := around <;> exact through

theorem functionBody_of_other (other : kind? node ≠ some "BlockStatement") :
    functionBody node = (do return .expression (← expression node)) := by
  rw [functionBody, SyntaxTree.kind]
  cases named : kind? node with
  | none =>
    rw [expression, SyntaxTree.kind, named]
    rfl
  | some kind =>
    simp only [bind, Except.bind]
    split
    · exact absurd named other
    · rfl

theorem declared_of_declaration (named : kind? node = some kind)
    (listed : kind ∈ declarationKinds) : declared node = (do return some (← statement node)) := by
  rw [declared, SyntaxTree.kind, named]
  simp only [declarationKinds, List.mem_cons, List.not_mem_nil, or_false] at listed
  obtain rfl | rfl := listed <;> rfl

theorem declared_of_other (named : kind? node = some kind) (other : kind ∉ declarationKinds) :
    declared node = .ok none := by
  simp only [declared, SyntaxTree.kind, named, bind, Except.bind]
  split
  · exact absurd (by decide) other
  · exact absurd (by decide) other
  · rfl

theorem statement_export (named : kind? wrapper = some kind) (around : kind ∈ exportKinds)
    (inside : member? wrapper "declaration" = some node) :
    statement wrapper = (do return (← declared node).getD (.unsupported kind)) := by
  have through : statement wrapper = exported wrapper kind := by
    rw [statement, SyntaxTree.kind, named]
    simp only [exportKinds, List.mem_cons, List.not_mem_nil, or_false] at around
    obtain rfl | rfl := around <;> rfl
  rw [through, exported_eq, inside]
  rfl

/-- What is no declaration is not read further behind an export; another export is none. -/
theorem statement_export_of_other {other : String} (named : kind? wrapper = some kind)
    (around : kind ∈ exportKinds) (inside : member? wrapper "declaration" = some node)
    (found : kind? node = some other) (kept : other ∉ declarationKinds) :
    statement wrapper = .ok (.unsupported kind) := by
  rw [statement_export named around inside, declared_of_other found kept]
  rfl

theorem statement_export_of_declaration {declaration : String} (named : kind? wrapper = some kind)
    (around : kind ∈ exportKinds) (inside : member? wrapper "declaration" = some node)
    (found : kind? node = some declaration) (listed : declaration ∈ declarationKinds) :
    statement wrapper = statement node := by
  rw [statement_export named around inside, declared_of_declaration found listed]
  cases statement node <;> rfl

theorem wrapperKinds_others (around : kind ∈ wrapperKinds) :
    kind ≠ "BlockStatement" ∧ kind ∉ declarationKinds := by
  revert kind
  decide

/-- A wrapper is passed through wherever an expression stands. -/
theorem read_wrapper {role : Role} (place : role.IsExpression (kind? node))
    (named : kind? wrapper = some kind) (around : kind ∈ wrapperKinds)
    (inside : member? wrapper "expression" = some node) :
    role.read node = role.read wrapper := by
  have through := expression_wrapper named around inside
  obtain ⟨noBlock, noDeclaration⟩ := wrapperKinds_others around
  cases role with
  | expression => exact through.symm
  | body =>
    have other : kind? wrapper ≠ some "BlockStatement" := by
      rw [named]
      exact fun same => noBlock (Option.some.inj same)
    change functionBody node = functionBody wrapper
    rw [functionBody_of_other place, functionBody_of_other other, through]
  | declaration =>
    cases found : kind? node with
    | none => rw [found] at place; exact place.elim
    | some other =>
      rw [found] at place
      exact (declared_of_other found place).trans (declared_of_other named noDeclaration).symm
  | root | statement | pattern | declarator | switchCase | functionName => exact place.elim

end Wrappers

theorem readAll_item {role : Role} {old new : Json} (same : role.read old = role.read new)
    (front back : List Json) :
    role.readAll (.array (front ++ old :: back)) =
      role.readAll (.array (front ++ new :: back)) := by
  simp only [Role.readAll, List.mapM_append, List.mapM_cons, same]

/-- A change that is not noticed leaves the reading as it is, at whatever depth it is made. -/
theorem Change.read_eq {role : Role} {before after : Json} (change : Change role before after) :
    role.read before = role.read after := by
  induction change with
  | unread kinds parts => exact read_congr kinds fun part member => (parts part member).same
  | wrap place named around inside => exact read_wrapper place named around inside
  | exported declares listed named around inside =>
    exact (statement_export_of_declaration named around inside declares listed).symm
  | filed named inside => exact (program_file named inside).symm
  | @part role inner before after old new field listed elsewhere found replaced change same =>
    refine read_eq_of_part listed elsewhere ?_
    rw [found, replaced]
    exact congrArg some same
  | @item role inner before after old new field front back listed elsewhere found replaced change
      same =>
    refine read_eq_of_part listed elsewhere ?_
    rw [found, replaced]
    exact congrArg some (readAll_item same front back)

/-- Syntax trees that differ by any number of such changes are the same program, or have the
same fault. -/
theorem program_eq_of_changes {before after : Json}
    (changes : Relation.ReflTransGen (Change .root) before after) :
    program before = program after := by
  induction changes with
  | refl => rfl
  | tail _ change same => exact same.trans change.read_eq

/-- A node of a kind, with its members. -/
def nodeOf (kind : String) (members : List (String × Json)) : Json :=
  .object (("type", .string kind) :: members)

/-- Replacing one member leaves the others. -/
theorem member?_nodeOf_of_ne (kind : String) (front back : List (String × Json))
    {field other : String} (old new : Json) (elsewhere : other ≠ field) :
    member? (nodeOf kind (front ++ (field, old) :: back)) other =
      member? (nodeOf kind (front ++ (field, new) :: back)) other := by
  have away : (field == other) = false := beq_false_of_ne elsewhere.symm
  simp [member?_eq_get?, nodeOf, Json.get?, List.find?_append, away]

def scriptOf (statements : List Json) : Json := nodeOf "Program" [("body", .array statements)]

def exportOf (declaration : Json) : Json :=
  nodeOf "ExportNamedDeclaration" [("declaration", declaration)]

def nameOf (name : String) : Json := nodeOf "Identifier" [("name", .string name)]

def returnOf (result : Json) : Json := nodeOf "ReturnStatement" [("argument", result)]

def functionOf (statements : List Json) (more : List (String × Json)) : Json :=
  nodeOf "FunctionDeclaration" ([("id", nameOf "f"), ("params", .array [nameOf "x"])] ++
    ("body", nodeOf "BlockStatement" [("body", .array statements)]) :: more)

def asserted (expression : Json) : Json := nodeOf "TSAsExpression" [("expression", expression)]

/-- A function as a file may hold it, with a place in the source and a type for its result. -/
def locatedFunction : Json :=
  functionOf [returnOf (asserted (nameOf "x"))] [("loc", .object [])]

theorem exported_file_reads :
    Relation.ReflTransGen (Change .root) (scriptOf [functionOf [returnOf (nameOf "x")] []])
      (nodeOf "File" [("program", scriptOf [exportOf locatedFunction])]) ∧
    program (scriptOf [functionOf [returnOf (nameOf "x")] []]) =
      program (nodeOf "File" [("program", scriptOf [exportOf locatedFunction])]) := by
  have inScript {old new : Json} (change : Change .statement old new) :
      Change .root (scriptOf [old]) (scriptOf [new]) :=
    have holds (statement : Json) :
        member? (scriptOf [statement]) "body" = some (.array ([] ++ statement :: [])) := rfl
    .item (.head _) (fun _ other => member?_nodeOf_of_ne _ [] [] _ _ other) (holds old) (holds new)
      change
  have inFunction {old new : Json} (change : Change .statement old new) :
      Change .statement (functionOf [old] []) (functionOf [new] []) := by
    have holds (statement : Json) :
        member? (nodeOf "BlockStatement" [("body", .array [statement])]) "body" =
          some (.array ([] ++ statement :: [])) := rfl
    have inBody : Change .body (nodeOf "BlockStatement" [("body", .array [old])])
        (nodeOf "BlockStatement" [("body", .array [new])]) :=
      .item (.head _) (fun _ other => member?_nodeOf_of_ne _ [] [] _ _ other) (holds old)
        (holds new) change
    exact .part (.tail _ (.tail _ (.head _)))
      (fun _ other => member?_nodeOf_of_ne _ [("id", nameOf "f"), ("params", .array [nameOf "x"])]
        [] _ _ other) rfl rfl inBody
  have typed : Change .statement (returnOf (nameOf "x")) (returnOf (asserted (nameOf "x"))) :=
    .part (.head _) (fun _ other => member?_nodeOf_of_ne _ [] [] _ _ other) rfl rfl
      (.wrap trivial rfl (by decide) rfl)
  have located :
      Change .statement (functionOf [returnOf (asserted (nameOf "x"))] []) locatedFunction := by
    refine .unread rfl fun part member => ?_
    change part ∈ functionMembers at member
    simp only [functionMembers, List.mem_cons, List.not_mem_nil, or_false] at member
    obtain rfl | rfl | rfl := member <;> rfl
  have shared : Change .statement locatedFunction (exportOf locatedFunction) :=
    .exported rfl (by decide) rfl (by decide) rfl
  have filed : Change .root (scriptOf [exportOf locatedFunction])
      (nodeOf "File" [("program", scriptOf [exportOf locatedFunction])]) := .filed rfl rfl
  have changes := (Relation.ReflTransGen.single (inScript (inFunction typed))).tail
    (inScript located) |>.tail (inScript shared) |>.tail filed
  exact ⟨changes, program_eq_of_changes changes⟩

/-- A node that gives a variable a constant value. -/
def constantOf (kind : String) (value : Bool) : Json :=
  nodeOf kind [("id", nodeOf "Identifier" [("name", .string "x")]),
    ("init", nodeOf "Literal" [("value", .bool value)])]

def variablesOf (declarators : List Json) : Json :=
  nodeOf "VariableDeclaration" [("declarations", .array declarators)]

theorem program_scriptOf {node : Json} {read : Stmt} (success : statement node = .ok read) :
    program (scriptOf [node]) = .ok ⟨[read]⟩ := by
  have named : kind? (scriptOf [node]) = some "Program" := rfl
  have body : block (scriptOf [node]) = [node].mapM statement := by
    rw [block]
    exact items_read .statement (scriptOf [node]) "body"
  rw [List.mapM_cons, success] at body
  rw [program, kind, named]
  exact congrArg (· >>= fun statements => pure (Program.mk statements)) body

theorem declarator_constantOf (kind : String) (value : Bool) :
    declarator (constantOf kind value) =
      .ok ⟨.identifier "x", some (.literal (.boolean value))⟩ := by
  have literal : expression (nodeOf "Literal" [("value", .bool value)]) =
      .ok (.literal (.boolean value)) := by
    rw [expression]
    rfl
  have init : (optional (constantOf kind value) "init").mapM (fun child => expression child.1) =
      .ok (some (.literal (.boolean value))) := by
    refine (optional_read .expression (constantOf kind value) "init").trans ?_
    change (some (expression _)).mapM id = _
    rw [literal]
    rfl
  rw [declarator, init]
  rfl

theorem statement_variablesOf (kind : String) (value : Bool) :
    statement (variablesOf [constantOf kind value]) =
      .ok (.declare [⟨.identifier "x", some (.literal (.boolean value))⟩]) := by
  have named : kind? (variablesOf [constantOf kind value]) = some "VariableDeclaration" := rfl
  have each : (items (variablesOf [constantOf kind value]) "declarations" >>= fun children =>
      children.mapM fun child => declarator child.1) = [constantOf kind value].mapM declarator :=
    items_read .declarator (variablesOf [constantOf kind value]) "declarations"
  rw [List.mapM_cons, declarator_constantOf] at each
  rw [statement, SyntaxTree.kind, named]
  exact (bind_assoc (m := Except Error) ..).symm.trans
    (congrArg (· >>= fun declarators => pure (Stmt.declare declarators)) each)

/-- Where changes do show: behind an export that is exported again, which is no declaration
any more, and in a declarator, whose parts are read though nothing knows its kind. -/
theorem exports_and_declarators_show :
    program (scriptOf [exportOf (exportOf (variablesOf [constantOf "VariableDeclarator" true]))]) ≠
      program (scriptOf [exportOf (variablesOf [constantOf "VariableDeclarator" true])]) ∧
    program (scriptOf [variablesOf [constantOf "UnknownKind" true]]) ≠
      program (scriptOf [variablesOf [constantOf "UnknownKind" false]]) := by
  have outer (declaration : Json) :
      kind? (exportOf declaration) = some "ExportNamedDeclaration" := rfl
  have inner (declarators : List Json) :
      kind? (variablesOf declarators) = some "VariableDeclaration" := rfl
  have once := (statement_export_of_declaration
    (outer (variablesOf [constantOf "VariableDeclarator" true])) (by decide) rfl (inner _)
    (by decide)).trans (statement_variablesOf _ _)
  have twice := statement_export_of_other
    (outer (exportOf (variablesOf [constantOf "VariableDeclarator" true]))) (by decide) rfl
    (outer _) (by decide)
  constructor
  · rw [program_scriptOf once, program_scriptOf twice]
    nofun
  · rw [program_scriptOf (statement_variablesOf _ _), program_scriptOf (statement_variablesOf _ _)]
    nofun

end ChurchScript.Script.SyntaxTree
