import ChurchScript.Proofs.Church.Inversion
import ChurchScript.Proofs.Script.Unreached

/-!
# Compiling scripts with statements that are never reached

Taking statements out of a script that stand behind one that gives back a value changes
nothing in what it is compiled to, except that fewer functions may be refused as recursive:
the call graph has the references behind a block that comes to a returned value. Behind a
returned value itself there are none, and the outcome is the same.
-/
namespace ChurchScript.Church

open Script

section Alike

variable {α A B : Type} {excused : Error → Prop}

/-- Two runs come to the same, unless the first one fails with an error that is excused. -/
def Alike (excused : Error → Prop) (x y : Compile α A) : Prop :=
  ∀ k, x.run k = y.run k ∨ ∃ e, x.run k = .error e ∧ excused e

namespace Alike

theorem refl (x : Compile α A) : Alike excused x x := fun _ => .inl rfl

theorem failed {e : Error} (fine : excused e) (y : Compile α A) : Alike excused (throw e) y :=
  fun _ => .inr ⟨e, rfl, fine⟩

theorem bind {x y : Compile α A} {f g : A → Compile α B} (first : Alike excused x y)
    (next : ∀ a, Alike excused (f a) (g a)) : Alike excused (x >>= f) (y >>= g) := by
  intro k
  rw [StateT.run_bind, StateT.run_bind]
  rcases first k with same | ⟨e, failure, fine⟩
  · rw [← same]
    cases x.run k with
    | error e => exact .inl rfl
    | ok result => exact next result.1 result.2
  · exact .inr ⟨e, by rw [failure]; rfl, fine⟩

theorem map {x y : Compile α A} (f : A → B) (first : Alike excused x y) :
    Alike excused (f <$> x) (f <$> y) := by
  rw [map_eq_pure_bind, map_eq_pure_bind]
  exact first.bind fun a => refl _

end Alike

end Alike

section Unfinished

variable {α : Type}

/-- A list of statements that is not gone through to its end. -/
def Unfinished (x : Compile α (Exit α)) : Prop := ∀ k k', x.run k ≠ .ok (.finished, k')

theorem Unfinished.of_bind {A : Type} {x : Compile α A} {f : A → Compile α (Exit α)}
    (next : ∀ a, Unfinished (f a)) : Unfinished (x >>= f) := by
  intro k k' finished
  obtain ⟨a, k₁, _, inner⟩ := run_bind_inv finished
  exact next a k₁ k' inner

/-- What would be done at the end is never done. -/
theorem Unfinished.bind_congr {B : Type} {x : Compile α (Exit α)} {f g : Exit α → Compile α B}
    (unfinished : Unfinished x) (returned : ∀ value, f (.returned value) = g (.returned value))
    (broken : f .broken = g .broken) : x >>= f = x >>= g := by
  refine StateT.ext fun k => ?_
  rw [StateT.run_bind, StateT.run_bind]
  cases outcome : x.run k with
  | error e => rfl
  | ok result =>
    obtain ⟨exit, k'⟩ := result
    cases exit with
    | returned value => exact congrArg (·.run k') (returned value)
    | broken => exact congrArg (·.run k') broken
    | finished => exact absurd outcome (unfinished k k')

/-- A level at which statements that come to a returned value are not gone through to the end. -/
def Level.StopsAtReturns (level : Level α) : Prop :=
  ∀ place scope {passed rest : List Stmt} {s : Stmt},
    (∀ p ∈ passed, p = .empty ∨ ∃ declarators, p = .declare declarators) → s.Returns →
    Unfinished (level.statements place scope (passed ++ s :: rest))

variable {target : Target α} {settings : Settings} {declared : Declarations} {below : Level α}

theorem unfinished_of_returns (stops : below.StopsAtReturns) {s : Stmt} (returns : s.Returns)
    (place : Place) (scope : Scope α) (rest : List Stmt) :
    Unfinished (Level.compileStatements target below place scope (s :: rest)) := by
  cases returns with
  | value result =>
    refine .of_bind fun value k k' finished => ?_
    cases finished
  | @block passed behind s plain returns =>
    intro k k' finished
    obtain ⟨exit, k₁, inner, outer⟩ := run_bind_inv finished
    cases exit with
    | returned value => cases outer
    | broken => cases outer
    | finished => exact stops place scope plain returns k k₁ inner

theorem stopsAtReturns_above {callee : String → Level α} (stops : below.StopsAtReturns) :
    (Level.above target settings declared callee below).StopsAtReturns := by
  intro place scope passed rest s plain returns
  induction passed generalizing scope with
  | nil => exact unfinished_of_returns stops returns place scope rest
  | cons p passed ih =>
    have others := fun scope => ih scope fun q member => plain q (List.mem_cons_of_mem p member)
    rcases plain p List.mem_cons_self with rfl | ⟨declarators, rfl⟩
    · exact others scope
    · exact .of_bind others

theorem stopsAtReturns_ofDepth (depth : Nat) :
    (Level.ofDepth target settings declared depth).StopsAtReturns := by
  induction depth with
  | zero =>
    intro place scope passed rest s plain returns k k' finished
    cases finished
  | succ depth ih => exact stopsAtReturns_above ih

/-- Statements behind one that comes to a returned value are not compiled. -/
theorem compileStatements_of_returns (stops : below.StopsAtReturns) {s : Stmt}
    (returns : s.Returns) (place : Place) (scope : Scope α) (rest : List Stmt) :
    Level.compileStatements target below place scope (s :: rest) =
      Level.compileStatements target below place scope [s] := by
  cases returns with
  | value result => rfl
  | block plain returns =>
    exact (stops place scope plain returns).bind_congr (fun _ => rfl) rfl

end Unfinished

section Levels

variable {α : Type} {ends : Stmt → Prop} {excused : Error → Prop} {target : Target α}
  {settings : Settings} {declared declared' : Declarations}

/-- Two levels that compile a part of a script and what is left of it alike. -/
structure LevelsAlike (ends : Stmt → Prop) (excused : Error → Prop) (level level' : Level α) :
    Prop where
  expression {e e' : Expr} (scope : Scope α) : Expr.Cut ends e e' →
    Alike excused (level.expression scope e) (level'.expression scope e')
  statements {body body' : List Stmt} (place : Place) (scope : Scope α) :
    StatementsCut ends body body' →
    Alike excused (level.statements place scope body) (level'.statements place scope body')

/-- The declared functions of a script and of what is left of it, and the errors by which
compiling the two may differ. -/
structure DeclarationsCut (ends : Stmt → Prop) (excused : Error → Prop)
    (declared declared' : Declarations) : Prop where
  find (f : String) :
    Option.Rel (Func.Cut ends) (declared.table.find? f) (declared'.table.find? f)
  recursive {f : String} : f ∈ declared'.recursive → f ∈ declared.recursive
  excused {f : String} : f ∈ declared.recursive → f ∉ declared'.recursive →
    excused (.unsupported (.recursion f))

variable {callee callee' : String → Level α} {below below' : Level α}

theorem refuseRecursive_alike (cut : DeclarationsCut ends excused declared declared')
    (f : String) :
    Alike excused (Level.refuseRecursive declared f : Compile α Unit)
      (Level.refuseRecursive declared' f) := by
  unfold Level.refuseRecursive
  -- refused in both, in the first one only, or in neither
  by_cases before : f ∈ declared.recursive
  · by_cases after : f ∈ declared'.recursive
    · simp only [List.contains_iff_mem, before, after, if_true]
      exact .refl _
    · simp only [List.contains_iff_mem, before, if_true]
      exact .failed (cut.excused before after) _
  · have after : f ∉ declared'.recursive := fun after => before (cut.recursive after)
    simp only [List.contains_iff_mem, before, after, if_false]
    exact .refl _

theorem mapM_alike (levels : LevelsAlike ends excused below below') (scope : Scope α)
    {arguments arguments' : List Expr} (cut : ExpressionsCut ends arguments arguments') :
    Alike excused (arguments.mapM (below.expression scope))
      (arguments'.mapM (below'.expression scope)) := by
  induction arguments generalizing arguments' with
  | nil =>
    cases cut
    exact .refl _
  | cons e rest ih =>
    cases cut with
    | cons first behind =>
      rw [List.mapM_cons, List.mapM_cons]
      refine (levels.expression scope first).bind fun value => ?_
      exact (ih behind).bind fun values => .refl _

theorem paramNames_alike {func func' : Func} (cut : Func.Cut ends func func') :
    Alike excused (liftM (paramNames func) : Compile α (List String))
      (liftM (paramNames func')) := by
  cases cut
  exact .refl _

theorem functionBody_alike (levels : LevelsAlike ends excused below below') (scope : Scope α)
    {func func' : Func} (cut : Func.Cut ends func func') :
    Alike excused (Level.functionBody below func scope)
      (Level.functionBody below' func' scope) := by
  cases cut with
  | mk inner =>
    cases inner with
    | block inner => exact (levels.statements .body scope inner).bind fun exit => .refl _
    | expression inner => exact levels.expression scope inner

theorem reference_alike (cut : DeclarationsCut ends excused declared declared')
    (callees : ∀ f, LevelsAlike ends excused (callee f) (callee' f)) (f : String)
    {func func' : Func} (inner : Func.Cut ends func func') :
    Alike excused (Level.reference target settings declared callee f func)
      (Level.reference target settings declared' callee' f func') := by
  refine (refuseRecursive_alike cut f).bind fun _ => ?_
  refine (paramNames_alike inner).bind fun params => ?_
  exact (functionBody_alike (callees f) _ inner).bind fun body => .refl _

theorem identifier_alike (cut : DeclarationsCut ends excused declared declared')
    (callees : ∀ f, LevelsAlike ends excused (callee f) (callee' f)) (scope : Scope α)
    (x : String) :
    Alike excused (Level.identifier target settings declared callee x scope)
      (Level.identifier target settings declared' callee' x scope) := by
  unfold Level.identifier
  cases scope.lookup x with
  | some code => exact .refl _
  | none =>
    refine (Alike.refl get).bind fun kept => ?_
    cases kept.lookup x with
    | some code => exact .refl _
    | none =>
      have found := cut.find x
      generalize declared.table.find? x = left at found ⊢
      generalize declared'.table.find? x = right at found ⊢
      cases found with
      | none => exact .refl _
      | some inner => exact reference_alike cut callees x inner

/-- A call is replaced by the body of a function in both or in none. -/
theorem inlined_cut (cut : DeclarationsCut ends excused declared declared') (scope : Scope α)
    (kept : Kept α) {called called' : Expr} (head : Expr.Cut ends called called') :
    Option.Rel (fun f f' => f.1 = f'.1 ∧ Func.Cut ends f.2 f'.2)
      (Level.inlined? declared called scope kept)
      (Level.inlined? declared' called' scope kept) := by
  cases head with
  | @identifier x =>
    unfold Level.inlined?
    by_cases known : (scope.contains x || kept.contains x) = true
    · simp only [known, if_true]
      exact .none
    · simp only [known]
      have found := cut.find x
      generalize declared.table.find? x = left at found ⊢
      generalize declared'.table.find? x = right at found ⊢
      cases found with
      | none => exact .none
      | some inner => exact .some ⟨rfl, inner⟩
  | _ => exact .none

theorem inlineCall_alike (cut : DeclarationsCut ends excused declared declared')
    (callees : ∀ f, LevelsAlike ends excused (callee f) (callee' f))
    (levels : LevelsAlike ends excused below below') (scope : Scope α) (f : String)
    {func func' : Func} (inner : Func.Cut ends func func') {arguments arguments' : List Expr}
    (operands : ExpressionsCut ends arguments arguments') :
    Alike excused (Level.inlineCall target declared callee below f func arguments scope)
      (Level.inlineCall target declared' callee' below' f func' arguments' scope) := by
  refine (refuseRecursive_alike cut f).bind fun _ => ?_
  refine (mapM_alike levels scope operands).bind fun values => ?_
  refine (paramNames_alike inner).bind fun params => ?_
  exact functionBody_alike (callees f) _ inner

theorem call_alike (cut : DeclarationsCut ends excused declared declared')
    (callees : ∀ f, LevelsAlike ends excused (callee f) (callee' f))
    (levels : LevelsAlike ends excused below below') (scope : Scope α) {called called' : Expr}
    (head : Expr.Cut ends called called') {arguments arguments' : List Expr}
    (operands : ExpressionsCut ends arguments arguments') :
    Alike excused (Level.call target declared callee below called arguments scope)
      (Level.call target declared' callee' below' called' arguments' scope) := by
  refine (Alike.refl get).bind fun kept => ?_
  have inlined := inlined_cut cut scope kept head
  generalize Level.inlined? declared called scope kept = left at inlined ⊢
  generalize Level.inlined? declared' called' scope kept = right at inlined ⊢
  cases inlined with
  | none =>
    refine (levels.expression scope head).bind fun code => ?_
    exact (mapM_alike levels scope operands).bind fun values => .refl _
  | @some found found' same =>
    obtain ⟨f, func⟩ := found
    obtain ⟨f', func'⟩ := found'
    obtain ⟨rfl, inner⟩ := same
    exact inlineCall_alike cut callees levels scope f inner operands

theorem compileExpression_alike (cut : DeclarationsCut ends excused declared declared')
    (callees : ∀ f, LevelsAlike ends excused (callee f) (callee' f))
    (levels : LevelsAlike ends excused below below') (scope : Scope α) {e e' : Expr}
    (inner : Expr.Cut ends e e') :
    Alike excused (Level.compileExpression target settings declared callee below scope e)
      (Level.compileExpression target settings declared' callee' below' scope e') := by
  cases inner with
  | literal => exact .refl _
  | identifier => exact identifier_alike cut callees scope _
  | binary left right =>
    refine (levels.expression scope left).bind fun _ => ?_
    exact (levels.expression scope right).bind fun _ => .refl _
  | logical left right =>
    refine (levels.expression scope left).bind fun _ => ?_
    exact (levels.expression scope right).bind fun _ => .refl _
  | unary argument => exact (levels.expression scope argument).bind fun _ => .refl _
  | call head operands => exact call_alike cut callees levels scope head operands
  | conditional test consequent alternate =>
    refine (levels.expression scope test).bind fun _ => ?_
    refine (levels.expression scope consequent).bind fun _ => ?_
    exact (levels.expression scope alternate).bind fun _ => .refl _
  | function inner =>
    refine (paramNames_alike inner).bind fun params => ?_
    exact (functionBody_alike levels _ inner).bind fun body => .refl _
  | @member _ _ _ _ computed object property =>
    refine (levels.expression scope object).bind fun _ => ?_
    cases computed with
    | true => exact (levels.expression scope property).bind fun _ => .refl _
    | false => cases property <;> exact .refl _
  | unsupported => exact .refl _

theorem declare_alike (levels : LevelsAlike ends excused below below') (scope : Scope α)
    {ds ds' : List Declarator} (cut : DeclaratorsCut ends ds ds') :
    Alike excused (Level.declare below scope ds) (Level.declare below' scope ds') := by
  induction ds generalizing scope ds' with
  | nil =>
    cases cut
    exact .refl _
  | cons first rest ih =>
    cases cut with
    | @cons target _ _ _ _ init behind =>
      cases target with
      | unsupported kind => exact .refl _
      | identifier x =>
        have later := fun scope => ih scope behind
        cases init with
        | none => exact later scope
        | some init => exact (levels.expression scope init).bind fun value => later _

theorem defaultValue_alike (levels : LevelsAlike ends excused below below') (scope : Scope α)
    {cases cases' : List SwitchCase} (cut : CasesCut ends cases cases') :
    Alike excused (Level.defaultValue below scope cases)
      (Level.defaultValue below' scope cases') := by
  induction cases generalizing cases' with
  | nil =>
    cases cut
    exact .refl _
  | cons first rest ih =>
    cases cut with
    | cons test body behind =>
      have later := ih behind
      cases test with
      | none => exact (levels.statements .case scope body).map Exit.value?
      | some _ => exact later

theorem addCases_alike (levels : LevelsAlike ends excused below below') (scope : Scope α)
    (discriminant : α) (default : Option α) {cases cases' : List SwitchCase}
    (cut : CasesCut ends cases cases') :
    Alike excused (cases.foldrM (Level.addCase target below discriminant scope) default)
      (cases'.foldrM (Level.addCase target below' discriminant scope) default) := by
  induction cases generalizing cases' with
  | nil =>
    cases cut
    exact .refl _
  | cons first rest ih =>
    cases cut with
    | cons test body behind =>
      rw [List.foldrM_cons, List.foldrM_cons]
      refine (ih behind).bind fun folded => ?_
      cases test with
      | none => exact .refl _
      | some test =>
        refine (levels.expression scope test).bind fun test => ?_
        exact ((levels.statements .case scope body).map Exit.value?).bind fun value => .refl _

theorem switch_alike (levels : LevelsAlike ends excused below below') (scope : Scope α)
    {d d' : Expr} (discriminant : Expr.Cut ends d d') {cases cases' : List SwitchCase}
    (cut : CasesCut ends cases cases') :
    Alike excused (Level.switch target below d cases scope)
      (Level.switch target below' d' cases' scope) := by
  refine (levels.expression scope discriminant).bind fun discriminant => ?_
  refine (defaultValue_alike levels scope cut).bind fun default => ?_
  exact addCases_alike levels scope discriminant default cut

/-- A statement in front of statements that are compiled alike. -/
theorem compileStatements_cons_alike (levels : LevelsAlike ends excused below below')
    {place : Place} {s s' : Stmt} (first : Stmt.Cut ends s s') {rest rest' : List Stmt}
    (behind : ∀ scope, Alike excused (Level.compileStatements target below place scope rest)
      (Level.compileStatements target below' place scope rest')) (scope : Scope α) :
    Alike excused (Level.compileStatements target below place scope (s :: rest))
      (Level.compileStatements target below' place scope (s' :: rest')) := by
  cases first with
  | function inner =>
    cases inner
    exact .refl _
  | declare inner => exact (declare_alike levels scope inner).bind fun later => behind later
  | ret value =>
    cases value with
    | none => exact behind scope
    | some value => exact (levels.expression scope value).bind fun _ => .refl _
  | switch discriminant cut =>
    refine (switch_alike levels scope discriminant cut).bind fun value => ?_
    cases value with
    | none => exact behind scope
    | some value => exact .refl _
  | block inner =>
    refine (levels.statements place scope inner).bind fun exit => ?_
    cases exit with
    | finished => exact behind scope
    | returned value => exact .refl _
    | broken => exact .refl _
  | empty => exact behind scope
  | @unsupported kind =>
    unfold Level.compileStatements
    cases place with
    | body => exact .refl _
    | case =>
      by_cases breaks : (kind == "BreakStatement") = true
      · simp only [breaks, if_true]
        exact .refl _
      · simp only [breaks]
        exact behind scope

theorem compileStatements_alike (allowed : ∀ s, ends s → s.Returns)
    (levels : LevelsAlike ends excused below below') (stops : below.StopsAtReturns)
    (place : Place) (scope : Scope α) {body body' : List Stmt}
    (cut : StatementsCut ends body body') :
    Alike excused (Level.compileStatements target below place scope body)
      (Level.compileStatements target below' place scope body') := by
  induction body generalizing scope body' with
  | nil =>
    cases cut
    exact .refl _
  | cons s rest ih =>
    cases cut with
    | cons first behind =>
      exact compileStatements_cons_alike levels first (fun scope => ih scope behind) scope
    | behind returns first =>
      -- nothing behind the statement is compiled, so both lists are that statement alone
      rw [compileStatements_of_returns stops (allowed s returns)]
      exact compileStatements_cons_alike levels first (fun _ => .refl _) scope

theorem ofDepth_alike (allowed : ∀ s, ends s → s.Returns)
    (cut : DeclarationsCut ends excused declared declared') (depth : Nat) :
    LevelsAlike ends excused (Level.ofDepth target settings declared depth)
      (Level.ofDepth target settings declared' depth) := by
  induction depth with
  | zero => exact ⟨fun _ _ => .refl _, fun _ _ _ => .refl _⟩
  | succ depth ih =>
    exact {
      expression := fun scope inner => compileExpression_alike cut (fun _ => ih) ih scope inner
      statements := fun place scope inner =>
        compileStatements_alike allowed ih (stopsAtReturns_ofDepth depth) place scope inner }

end Levels

section Programs

variable {α : Type} {ends : Stmt → Prop} {excused : Error → Prop} {target : Target α}
  {settings : Settings} {program program' : Program}

/-- The errors by which a script and what is left of it may differ: a function is refused
that is recursive in the first only. -/
def RecursiveBefore (program program' : Program) (e : Error) : Prop :=
  ∃ f, e = .unsupported (.recursion f) ∧ f ∈ program.table.callGraph.recursive ∧
    f ∉ program'.table.callGraph.recursive

theorem declarations_cut (cut : program.Cut ends program') :
    DeclarationsCut ends (RecursiveBefore program program') (.ofTable program.table)
      (.ofTable program'.table) where
  find := cut.find
  recursive := cut.recursive
  excused before after := ⟨_, rfl, before, after⟩

theorem entryPoint_cut (cut : program.Cut ends program') :
    Option.Rel (fun f f' => f.1 = f'.1 ∧ Func.Cut ends f.2 f'.2) (entryPoint? program.table)
      (entryPoint? program'.table) := by
  have declared : List.Forall₂ (fun f f' => f.1 = f'.1 ∧ Func.Cut ends f.2 f'.2)
    program.table.declarations program'.table.declarations := functions_cut cut
  unfold entryPoint?
  generalize program.table.declarations = left at declared ⊢
  generalize program'.table.declarations = right at declared ⊢
  cases declared with
  | nil => exact .none
  | @cons first first' _ _ same _ =>
    obtain ⟨name, _⟩ := first
    obtain ⟨_, _⟩ := first'
    obtain ⟨rfl, _⟩ := same
    have found := cut.find name
    simp only [List.head?_cons, Option.bind_eq_bind, Option.bind_some]
    generalize program.table.find? name = func at found ⊢
    generalize program'.table.find? name = func' at found ⊢
    cases found with
    | none => exact .none
    | some inner => exact .some ⟨rfl, inner⟩

theorem compileEntry_alike {top top' : Level α} (levels : LevelsAlike ends excused top top')
    {entry entry' : Func} (inner : Func.Cut ends entry entry') :
    Alike excused (compileEntry target top entry) (compileEntry target top' entry') := by
  refine (paramNames_alike inner).bind fun params => ?_
  exact (functionBody_alike levels _ inner).bind fun body => .refl _

theorem compileTo_cut (allowed : ∀ s, ends s → s.Returns) (cut : program.Cut ends program') :
    compileTo target settings program = compileTo target settings program' ∨
      ∃ e, compileTo target settings program = .error e ∧ RecursiveBefore program program' e := by
  have start := entryPoint_cut cut
  unfold compileTo compileAt
  generalize entryPoint? program.table = left at start ⊢
  generalize entryPoint? program'.table = right at start ⊢
  cases start with
  | none => exact .inl rfl
  | @some first first' same =>
    obtain ⟨name, entry⟩ := first
    obtain ⟨_, entry'⟩ := first'
    obtain ⟨rfl, inner⟩ := same
    have levels : LevelsAlike ends (RecursiveBefore program program')
        (Level.ofDepth target settings (.ofTable program.table) settings.maxDepth)
        (Level.ofDepth target settings (.ofTable program'.table) settings.maxDepth) :=
      ofDepth_alike allowed (declarations_cut cut) settings.maxDepth
    simp only [StateT.run'_eq]
    rcases compileEntry_alike levels inner {} with same | ⟨e, failure, fine⟩
    · exact .inl (congrArg (Prod.fst <$> ·) same)
    · exact .inr ⟨e, by rw [failure]; rfl, fine⟩

end Programs

/-- Statements behind one that comes to a returned value are taken out of a script, at any
number of places. Then the script has the same outcome as what is left of it, unless it is
refused for a function that is recursive only by a call in what was taken out; and that
happens only behind a block, not behind a returned value itself. -/
theorem compile_unreached_removed (program program' : Program) :
    (program.Cut Stmt.Returns program' →
      compile program = compile program' ∨
        ∃ f, compile program = .error (.unsupported (.recursion f)) ∧
          f ∈ program.table.callGraph.recursive ∧ f ∉ program'.table.callGraph.recursive) ∧
    (program.Cut Stmt.IsReturn program' → compile program = compile program') := by
  constructor
  · intro cut
    rcases compileTo_cut (fun _ returns => returns) cut with same | ⟨_, failure, f, rfl, only⟩
    · exact .inl same
    · exact .inr ⟨f, failure, only⟩
  · intro cut
    have allowed (s : Stmt) (value : s.IsReturn) : s.Returns := by
      obtain ⟨result, rfl⟩ := value
      exact .value result
    rcases compileTo_cut allowed cut with same | ⟨_, _, f, _, before, after⟩
    · exact same
    -- no reference stands behind a returned value, so the recursive functions are the same
    · exact absurd ((cut.recursive_iff f).mpr before) after

section Samples

def returnsTrue : Stmt := .ret (some (.literal (.boolean true)))

def returnsCall : Stmt := .ret (some (.call (.identifier "f") []))

/-- A call of a function that has a statement and others behind it. -/
def callOfBody (s : Stmt) (rest : List Stmt) : Program where
  body := [
    .function ⟨some "main", [], .expression (.call (.identifier "f") [])⟩,
    .function ⟨some "f", [], .block (.empty :: s :: rest)⟩]

theorem callOfBody_cut {ends : Stmt → Prop} {s : Stmt} (allowed : ends s) (rest : List Stmt) :
    (callOfBody s rest).Cut ends (callOfBody s []) :=
  .cons (Stmt.Cut.refl _) (.cons (.function (.mk (.block (.after allowed [.empty] rest)))) .nil)

theorem returnsTrue_inBlock : Stmt.Returns (.block [returnsTrue]) :=
  @Stmt.Returns.block [] [] returnsTrue (by simp) (.value _)

theorem callOfBody_declared {s : Stmt} {rest : List Stmt}
    (graph : (callOfBody s rest).table.callGraph = ⟨[("main", ["f"]), ("f", [])]⟩) :
    Declarations.ofTable (callOfBody s rest).table = ⟨(callOfBody s rest).table, []⟩ := by
  simp [Declarations.ofTable, graph, CallGraph.recursive, CallGraph.reachable,
    CallGraph.nodes, CallGraph.successors, List.lookup_cons]

/-- A function that calls itself behind a block that gives back a value is refused. -/
theorem callOfBody_refused :
    compile (callOfBody (.block [returnsTrue]) [returnsCall]) =
      .error (.unsupported (.recursion "f")) := by
  have graph : (callOfBody (.block [returnsTrue]) [returnsCall]).table.callGraph =
      ⟨[("main", ["f"]), ("f", ["f"])]⟩ := by decide +kernel
  have declared : Declarations.ofTable (callOfBody (.block [returnsTrue]) [returnsCall]).table =
      ⟨(callOfBody (.block [returnsTrue]) [returnsCall]).table, ["f"]⟩ := by
    simp [Declarations.ofTable, graph, CallGraph.recursive, CallGraph.reachable,
      CallGraph.nodes, CallGraph.successors, List.lookup_cons]
  rw [compile, compileWith, compileTo, declared]
  rfl

theorem callOfBody_compiled :
    compile (callOfBody (.block [returnsTrue]) []) = .ok ⟨[], .combinator .true⟩ := by
  rw [compile, compileWith, compileTo, callOfBody_declared (by decide +kernel)]
  rfl

theorem callOfBody_outcomes :
    (∃ f, compile (callOfBody (.block [returnsTrue]) [returnsCall]) =
        .error (.unsupported (.recursion f)) ∧
      f ∈ (callOfBody (.block [returnsTrue]) [returnsCall]).table.callGraph.recursive ∧
      f ∉ (callOfBody (.block [returnsTrue]) []).table.callGraph.recursive) ∧
    compile (callOfBody returnsTrue [returnsCall]) = compile (callOfBody returnsTrue []) := by
  constructor
  · have outcome := (compile_unreached_removed _ _).1
      (callOfBody_cut returnsTrue_inBlock [returnsCall])
    refine outcome.resolve_left fun same => ?_
    rw [callOfBody_refused, callOfBody_compiled] at same
    cases same
  · exact (compile_unreached_removed _ _).2 (callOfBody_cut ⟨_, rfl⟩ [returnsCall])

theorem call_behind_block_refused :
    (callOfBody (.block [returnsTrue]) [returnsCall]).Cut Stmt.Returns
        (callOfBody (.block [returnsTrue]) []) ∧
      compile (callOfBody (.block [returnsTrue]) [returnsCall]) =
        .error (.unsupported (.recursion "f")) ∧
      compile (callOfBody (.block [returnsTrue]) []) = .ok ⟨[], .combinator .true⟩ :=
  ⟨callOfBody_cut returnsTrue_inBlock [returnsCall], callOfBody_refused, callOfBody_compiled⟩

end Samples

end ChurchScript.Church
