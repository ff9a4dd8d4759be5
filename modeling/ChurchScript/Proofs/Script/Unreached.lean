import ChurchScript.Proofs.Script.Reachability

/-!
# Statements that are never reached

What stands behind a statement that gives back a value is never reached, in the body of a
function, in a block and in a case of a switch. `Program.Cut` relates a script to what is
left of it when such statements are taken out, at any number of places and any depth. The
references of a function end at a returned value in its own list of statements, but not at
a block that comes to one.
-/
namespace ChurchScript.Script

/-- A statement that comes to a returned value: such a value, or a block that comes to one
with nothing but declarations and empty statements before it. -/
inductive Stmt.Returns : Stmt → Prop
  | value (result : Expr) : Returns (.ret (some result))
  | block {passed rest : List Stmt} {s : Stmt} :
    (∀ p ∈ passed, p = .empty ∨ ∃ declarators, p = .declare declarators) → Returns s →
    Returns (.block (passed ++ s :: rest))

/-- A returned value itself. -/
def Stmt.IsReturn (s : Stmt) : Prop := ∃ result, s = .ret (some result)

section Cut

variable (ends : Stmt → Prop)

mutual

/-- The same function but for statements behind one that `ends` allows to cut at. -/
inductive Func.Cut : Func → Func → Prop
  | mk {name : Option String} {params : List Pattern} {body body' : Body} : Body.Cut body body' →
    Func.Cut ⟨name, params, body⟩ ⟨name, params, body'⟩

inductive Body.Cut : Body → Body → Prop
  | block {body body' : List Stmt} : StatementsCut body body' →
    Body.Cut (.block body) (.block body')
  | expression {e e' : Expr} : Expr.Cut e e' → Body.Cut (.expression e) (.expression e')

inductive StatementsCut : List Stmt → List Stmt → Prop
  | nil : StatementsCut [] []
  | cons {s s' : Stmt} {rest rest' : List Stmt} : Stmt.Cut s s' → StatementsCut rest rest' →
    StatementsCut (s :: rest) (s' :: rest')
  | behind {s s' : Stmt} {rest : List Stmt} : ends s → Stmt.Cut s s' →
    StatementsCut (s :: rest) [s']

inductive Stmt.Cut : Stmt → Stmt → Prop
  | function {func func' : Func} : Func.Cut func func' → Stmt.Cut (.function func) (.function func')
  | declare {ds ds' : List Declarator} : DeclaratorsCut ds ds' →
    Stmt.Cut (.declare ds) (.declare ds')
  | ret {e e' : Option Expr} : OptionCut e e' → Stmt.Cut (.ret e) (.ret e')
  | switch {e e' : Expr} {cases cases' : List SwitchCase} : Expr.Cut e e' → CasesCut cases cases' →
    Stmt.Cut (.switch e cases) (.switch e' cases')
  | block {body body' : List Stmt} : StatementsCut body body' →
    Stmt.Cut (.block body) (.block body')
  | empty : Stmt.Cut .empty .empty
  | unsupported {kind : String} : Stmt.Cut (.unsupported kind) (.unsupported kind)

inductive DeclaratorsCut : List Declarator → List Declarator → Prop
  | nil : DeclaratorsCut [] []
  | cons {target : Pattern} {init init' : Option Expr} {rest rest' : List Declarator} :
    OptionCut init init' → DeclaratorsCut rest rest' →
    DeclaratorsCut (⟨target, init⟩ :: rest) (⟨target, init'⟩ :: rest')

inductive CasesCut : List SwitchCase → List SwitchCase → Prop
  | nil : CasesCut [] []
  | cons {test test' : Option Expr} {body body' : List Stmt} {rest rest' : List SwitchCase} :
    OptionCut test test' → StatementsCut body body' → CasesCut rest rest' →
    CasesCut (⟨test, body⟩ :: rest) (⟨test', body'⟩ :: rest')

inductive OptionCut : Option Expr → Option Expr → Prop
  | none : OptionCut none none
  | some {e e' : Expr} : Expr.Cut e e' → OptionCut (some e) (some e')

inductive Expr.Cut : Expr → Expr → Prop
  | literal {value : Literal} : Expr.Cut (.literal value) (.literal value)
  | identifier {x : String} : Expr.Cut (.identifier x) (.identifier x)
  | binary {op : BinaryOperator} {l l' r r' : Expr} : Expr.Cut l l' → Expr.Cut r r' →
    Expr.Cut (.binary op l r) (.binary op l' r')
  | logical {op : LogicalOperator} {l l' r r' : Expr} : Expr.Cut l l' → Expr.Cut r r' →
    Expr.Cut (.logical op l r) (.logical op l' r')
  | unary {op : UnaryOperator} {e e' : Expr} : Expr.Cut e e' →
    Expr.Cut (.unary op e) (.unary op e')
  | call {callee callee' : Expr} {arguments arguments' : List Expr} : Expr.Cut callee callee' →
    ExpressionsCut arguments arguments' →
    Expr.Cut (.call callee arguments) (.call callee' arguments')
  | conditional {test test' yes yes' no no' : Expr} : Expr.Cut test test' → Expr.Cut yes yes' →
    Expr.Cut no no' → Expr.Cut (.conditional test yes no) (.conditional test' yes' no')
  | function {func func' : Func} : Func.Cut func func' → Expr.Cut (.function func) (.function func')
  | member {object object' property property' : Expr} {computed : Bool} :
    Expr.Cut object object' → Expr.Cut property property' →
    Expr.Cut (.member object property computed) (.member object' property' computed)
  | unsupported {kind : String} : Expr.Cut (.unsupported kind) (.unsupported kind)

inductive ExpressionsCut : List Expr → List Expr → Prop
  | nil : ExpressionsCut [] []
  | cons {e e' : Expr} {rest rest' : List Expr} : Expr.Cut e e' → ExpressionsCut rest rest' →
    ExpressionsCut (e :: rest) (e' :: rest')

end

/-- The statements of a script itself are all reached. -/
def Program.Cut (program program' : Program) : Prop :=
  List.Forall₂ (Stmt.Cut ends) program.body program'.body

variable {ends}

mutual

theorem Func.Cut.refl : (func : Func) → Func.Cut ends func func
  | ⟨_, _, body⟩ => .mk (Body.Cut.refl body)

theorem Body.Cut.refl : (body : Body) → Body.Cut ends body body
  | .block body => .block (StatementsCut.refl body)
  | .expression e => .expression (Expr.Cut.refl e)

theorem StatementsCut.refl : (body : List Stmt) → StatementsCut ends body body
  | [] => .nil
  | s :: rest => .cons (Stmt.Cut.refl s) (StatementsCut.refl rest)

theorem Stmt.Cut.refl : (s : Stmt) → Stmt.Cut ends s s
  | .function func => .function (Func.Cut.refl func)
  | .declare ds => .declare (DeclaratorsCut.refl ds)
  | .ret none => .ret .none
  | .ret (some e) => .ret (.some (Expr.Cut.refl e))
  | .switch e cases => .switch (Expr.Cut.refl e) (CasesCut.refl cases)
  | .block body => .block (StatementsCut.refl body)
  | .empty => .empty
  | .unsupported _ => .unsupported

theorem DeclaratorsCut.refl : (ds : List Declarator) → DeclaratorsCut ends ds ds
  | [] => .nil
  | ⟨_, none⟩ :: rest => .cons .none (DeclaratorsCut.refl rest)
  | ⟨_, some e⟩ :: rest => .cons (.some (Expr.Cut.refl e)) (DeclaratorsCut.refl rest)

theorem CasesCut.refl : (cases : List SwitchCase) → CasesCut ends cases cases
  | [] => .nil
  | ⟨none, body⟩ :: rest => .cons .none (StatementsCut.refl body) (CasesCut.refl rest)
  | ⟨some e, body⟩ :: rest =>
    .cons (.some (Expr.Cut.refl e)) (StatementsCut.refl body) (CasesCut.refl rest)

theorem Expr.Cut.refl : (e : Expr) → Expr.Cut ends e e
  | .literal _ => .literal
  | .identifier _ => .identifier
  | .binary _ l r => .binary (Expr.Cut.refl l) (Expr.Cut.refl r)
  | .logical _ l r => .logical (Expr.Cut.refl l) (Expr.Cut.refl r)
  | .unary _ e => .unary (Expr.Cut.refl e)
  | .call callee arguments => .call (Expr.Cut.refl callee) (ExpressionsCut.refl arguments)
  | .conditional test yes no =>
    .conditional (Expr.Cut.refl test) (Expr.Cut.refl yes) (Expr.Cut.refl no)
  | .function func => .function (Func.Cut.refl func)
  | .member object property _ => .member (Expr.Cut.refl object) (Expr.Cut.refl property)
  | .unsupported _ => .unsupported

theorem ExpressionsCut.refl : (es : List Expr) → ExpressionsCut ends es es
  | [] => .nil
  | e :: rest => .cons (Expr.Cut.refl e) (ExpressionsCut.refl rest)

end

/-- All that stands behind a statement of a list is taken out. -/
theorem StatementsCut.after {s : Stmt} (allowed : ends s) (before rest : List Stmt) :
    StatementsCut ends (before ++ s :: rest) (before ++ [s]) := by
  induction before with
  | nil => exact .behind allowed (Stmt.Cut.refl s)
  | cons first _ ih => exact .cons (Stmt.Cut.refl first) ih

end Cut

section References

variable {ends : Stmt → Prop} {R : List String → List String → Prop}

/-- A relation between references that taking out what is behind a statement keeps. -/
structure KeepsReferences (ends : Stmt → Prop) (R : List String → List String → Prop) : Prop where
  refl (xs : List String) : R xs xs
  append {xs ys xs' ys' : List String} : R xs ys → R xs' ys' → R (xs ++ xs') (ys ++ ys')
  behind {s : Stmt} {ys : List String} (locals : List String) (rest : List Stmt) : ends s →
    R (statementReferences locals [s]) ys → R (statementReferences locals (s :: rest)) ys

theorem declaredNames_cons (target : Pattern) (e : Expr) (rest : List Declarator) :
    declaredNames (⟨target, some e⟩ :: rest) = target.name?.toList ++ declaredNames rest := by
  cases target <;> rfl

theorem DeclaratorsCut.declaredNames_eq {ds ds' : List Declarator}
    (cut : DeclaratorsCut ends ds ds') : declaredNames ds' = declaredNames ds := by
  induction ds generalizing ds' with
  | nil =>
    cases cut
    rfl
  | cons first rest ih =>
    cases cut with
    | cons init behind =>
      have later := ih behind
      cases init with
      | none => exact later
      | some _ => rw [declaredNames_cons, declaredNames_cons, later]

mutual

theorem Func.Cut.references (keeps : KeepsReferences ends R) {func func' : Func} :
    Func.Cut ends func func' →
    ∀ locals, R (func.references locals) (func'.references locals)
  | .mk inner, _ => inner.references keeps _

theorem Body.Cut.references (keeps : KeepsReferences ends R) {body body' : Body} :
    Body.Cut ends body body' →
    ∀ locals, R (body.references locals) (body'.references locals)
  | .block inner, locals => inner.references keeps locals
  | .expression inner, locals => inner.references keeps locals

theorem StatementsCut.references (keeps : KeepsReferences ends R) {body body' : List Stmt} :
    StatementsCut ends body body' →
    ∀ locals, R (statementReferences locals body) (statementReferences locals body')
  | .nil, _ => keeps.refl []
  | .cons first behind, locals => first.references keeps (behind.references keeps) locals
  | .behind allowed first, locals =>
    keeps.behind locals _ allowed
      (first.references keeps (fun _ => keeps.refl (statementReferences _ [])) locals)

/-- A statement in front of statements with related references. What it declares is the same
in both. -/
theorem Stmt.Cut.references (keeps : KeepsReferences ends R) {s s' : Stmt}
    {rest rest' : List Stmt} : Stmt.Cut ends s s' →
    (∀ locals, R (statementReferences locals rest) (statementReferences locals rest')) →
    ∀ locals, R (statementReferences locals (s :: rest)) (statementReferences locals (s' :: rest'))
  | .function inner, behind, locals => keeps.append (inner.references keeps locals) (behind locals)
  | .declare inner, behind, locals => by
    rw [statementReferences, statementReferences, inner.declaredNames_eq]
    exact keeps.append (inner.references keeps locals) (behind _)
  | .ret .none, behind, locals => behind locals
  | .ret (.some inner), _, locals => inner.references keeps locals
  | .switch inner inners, behind, locals =>
    keeps.append (keeps.append (inner.references keeps locals) (inners.references keeps locals))
      (behind locals)
  | .block inner, behind, locals => keeps.append (inner.references keeps locals) (behind locals)
  | .empty, behind, locals => behind locals
  | .unsupported, behind, locals => behind locals

theorem DeclaratorsCut.references (keeps : KeepsReferences ends R) {ds ds' : List Declarator} :
    DeclaratorsCut ends ds ds' →
    ∀ locals, R (declaratorReferences locals ds) (declaratorReferences locals ds')
  | .nil, _ => keeps.refl []
  | .cons .none behind, locals => behind.references keeps locals
  | .cons (.some inner) behind, locals =>
    keeps.append (inner.references keeps locals) (behind.references keeps _)

theorem CasesCut.references (keeps : KeepsReferences ends R) {cases cases' : List SwitchCase} :
    CasesCut ends cases cases' →
    ∀ locals, R (caseReferences locals cases) (caseReferences locals cases')
  | .nil, _ => keeps.refl []
  | .cons .none inner behind, locals =>
    keeps.append (inner.references keeps locals) (behind.references keeps locals)
  | .cons (.some test) inner behind, locals =>
    keeps.append (keeps.append (test.references keeps locals) (inner.references keeps locals))
      (behind.references keeps locals)

theorem Expr.Cut.references (keeps : KeepsReferences ends R) {e e' : Expr} :
    Expr.Cut ends e e' →
    ∀ locals, R (e.references locals) (e'.references locals)
  | .literal, _ => keeps.refl []
  | .identifier, _ => keeps.refl _
  | .binary left right, locals =>
    keeps.append (left.references keeps locals) (right.references keeps locals)
  | .logical left right, locals =>
    keeps.append (left.references keeps locals) (right.references keeps locals)
  | .unary inner, locals => inner.references keeps locals
  | .call called inners, locals =>
    keeps.append (called.references keeps locals) (inners.references keeps locals)
  | .conditional test first second, locals =>
    keeps.append (keeps.append (test.references keeps locals) (first.references keeps locals))
      (second.references keeps locals)
  | .function inner, locals => inner.references keeps locals
  | @Expr.Cut.member _ _ _ _ _ true object property, locals =>
    keeps.append (object.references keeps locals) (property.references keeps locals)
  | @Expr.Cut.member _ _ _ _ _ false object _, locals =>
    keeps.append (object.references keeps locals) (keeps.refl [])
  | .unsupported, _ => keeps.refl []

theorem ExpressionsCut.references (keeps : KeepsReferences ends R) {es es' : List Expr} :
    ExpressionsCut ends es es' →
    ∀ locals, R (expressionReferences locals es) (expressionReferences locals es')
  | .nil, _ => keeps.refl []
  | .cons first behind, locals =>
    keeps.append (first.references keeps locals) (behind.references keeps locals)

end

/-- What is left refers to nothing new. -/
theorem keepsReferences_subset (ends : Stmt → Prop) :
    KeepsReferences ends fun xs ys => ys ⊆ xs where
  refl xs := List.Subset.refl xs
  append first second := List.append_subset.mpr
    ⟨List.subset_append_of_subset_left _ first, List.subset_append_of_subset_right _ second⟩
  behind {s _} locals rest _ fewer := by
    refine List.Subset.trans fewer ?_
    cases s with
    | ret value => cases value <;> simp [statementReferences]
    | _ => simp [statementReferences]

/-- Behind a returned value there are no references. -/
theorem keepsReferences_eq : KeepsReferences Stmt.IsReturn Eq where
  refl _ := rfl
  append first second := by rw [first, second]
  behind locals rest value same := by
    obtain ⟨result, rfl⟩ := value
    exact same

end References

section Tables

variable {ends : Stmt → Prop} {program program' : Program}

theorem functions_cut {body body' : List Stmt} (cut : List.Forall₂ (Stmt.Cut ends) body body') :
    List.Forall₂ (fun f f' => f.1 = f'.1 ∧ Func.Cut ends f.2 f'.2)
      (Program.functions ⟨body⟩) (Program.functions ⟨body'⟩) := by
  induction cut with
  | nil => exact .nil
  | cons first _ ih =>
    cases first with
    | function inner =>
      cases inner with
      | @mk name _ _ _ inner =>
        cases name with
        | none => exact ih
        | some name => exact .cons ⟨rfl, .mk inner⟩ ih
    | _ => exact ih

theorem lookup_related {R : Func → Func → Prop} {entries entries' : List (String × Func)}
    (related : List.Forall₂ (fun f f' => f.1 = f'.1 ∧ R f.2 f'.2) entries entries') (x : String) :
    Option.Rel R (entries.lookup x) (entries'.lookup x) := by
  induction related with
  | nil => exact .none
  | @cons entry entry' _ _ first _ ih =>
    obtain ⟨name, func⟩ := entry
    obtain ⟨name', func'⟩ := entry'
    obtain ⟨rfl, related⟩ := first
    rw [List.lookup_cons, List.lookup_cons]
    cases x == name with
    | true => exact .some related
    | false => exact ih

/-- Each declared function beside what is left of it. -/
theorem Program.Cut.find (cut : program.Cut ends program') (f : String) :
    Option.Rel (Func.Cut ends) (program.table.find? f) (program'.table.find? f) :=
  lookup_related (List.forall₂_reverse_iff.mpr (functions_cut cut)) f

/-- Functions with fewer references are recursive only if those with more are. -/
theorem FunctionTable.recursive_of_fewer {table table' : FunctionTable}
    (fewer : ∀ f func', table'.find? f = some func' →
      ∃ func, table.find? f = some func ∧ func'.references [] ⊆ func.references [])
    {f : String} (recursive : f ∈ table'.callGraph.recursive) :
    f ∈ table.callGraph.recursive := by
  rw [mem_recursive_iff] at recursive ⊢
  refine Relation.TransGen.mono (fun a b leads => ?_) f f recursive
  obtain ⟨⟨func', found', refers⟩, declared⟩ := leads_iff_refers.mp leads
  obtain ⟨other', target'⟩ := Option.isSome_iff_exists.mp declared
  obtain ⟨func, found, subset⟩ := fewer a func' found'
  obtain ⟨other, target, _⟩ := fewer b other' target'
  exact leads_iff_refers.mpr ⟨⟨func, found, subset refers⟩, by rw [target, Option.isSome_some]⟩

/-- What is left of a script has no recursive functions but those of the script. -/
theorem Program.Cut.recursive (cut : program.Cut ends program') {f : String}
    (recursive : f ∈ program'.table.callGraph.recursive) :
    f ∈ program.table.callGraph.recursive := by
  refine FunctionTable.recursive_of_fewer (fun g func' found' => ?_) recursive
  have related := cut.find g
  rw [found'] at related
  generalize program.table.find? g = left at related ⊢
  cases related with
  | @some func _ inner => exact ⟨func, rfl, inner.references (keepsReferences_subset ends) []⟩

/-- Taking out what is behind returned values leaves the recursive functions as they are. -/
theorem Program.Cut.recursive_iff (cut : program.Cut Stmt.IsReturn program') (f : String) :
    f ∈ program'.table.callGraph.recursive ↔ f ∈ program.table.callGraph.recursive := by
  refine ⟨cut.recursive, FunctionTable.recursive_of_fewer fun g func found => ?_⟩
  have related := cut.find g
  rw [found] at related
  generalize program'.table.find? g = right at related ⊢
  cases related with
  | @some _ func' inner =>
    refine ⟨func', rfl, ?_⟩
    rw [inner.references keepsReferences_eq []]
    exact List.Subset.refl _

end Tables

end ChurchScript.Script
