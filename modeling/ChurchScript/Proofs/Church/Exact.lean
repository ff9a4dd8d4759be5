import ChurchScript.Proofs.Church.Hygiene

/-!
# Exact calls of kept functions

A kept function is applied to whatever arguments a call has, where the body of a function
that is not kept takes zero for those that are missing and drops those that are too many.
The strict compiler refuses a call of a kept function unless it has as many arguments as
the function has parameters, and does all else as the compiler does.
-/
namespace ChurchScript.Church

open Script

namespace Level

variable {α : Type}

/-- Whether an expression is a call that finds its function kept and gives it more or fewer
arguments than it has parameters. -/
def miscalls (declared : Declarations) (scope : Scope α) (kept : Kept α) : Expr → Bool
  | .call (.identifier f) arguments =>
    !scope.contains f && kept.contains f &&
      (declared.table.find? f).any fun func => func.params.length != arguments.length
  | _ => false

def refusedCall : Error := .unsupported (.expression "CallExpression")

/-- A level that refuses such calls. -/
def strict (declared : Declarations) (level : Level α) : Level α where
  expression scope e := do
    if miscalls declared scope (← get) e then throw refusedCall
    else level.expression scope e
  statements := level.statements

/-- The levels of the compiler, each of them strict. -/
def strictOfDepth (target : Target α) (settings : Settings) (declared : Declarations) :
    Nat → Level α
  | 0 => bottom settings
  | depth + 1 => strict declared
    (above target settings declared (fun _ => strictOfDepth target settings declared depth)
      (strictOfDepth target settings declared depth))

end Level

/-- Compiles a script, unless a call of a kept function has more or fewer arguments than
the function has parameters. -/
def compileStrictTo {α : Type} (target : Target α) (settings : Settings) (program : Program) :
    Except Error (EntryOf α) :=
  compileAt target (fun _ => Level.strictOfDepth target settings (.ofTable program.table)
    settings.maxDepth) program.table

def compileStrict (program : Program) : Except Error Entry :=
  compileStrictTo Code.target {} program

theorem Level.strict_run {α : Type} (declared : Declarations) (level : Level α) (s : Scope α)
    (e : Expr) (k : Kept α) :
    ((Level.strict declared level).expression s e).run k =
      if Level.miscalls declared s k e then .error Level.refusedCall
      else (level.expression s e).run k := by
  simp only [Level.strict, StateT.run_bind, StateT.run_get, pure_bind]
  split <;> rfl

namespace Simulation

variable {α β : Type} {left : Target α} {right : Target β} {declared declared' : Declarations}
  {S : Simulation left right declared declared'} {active bound locals : List String}
  {depth : Nat} {l : Level α} {l' : Level β}

/-- Both runs refuse the same calls. -/
theorem miscalls_eq {s : Scope α} {s' : Scope β} (inside : S.lockstep.Inside bound locals s s')
    {k : Kept α} {k' : Kept β} (kept : k.Related (S.value []) k') (e : Expr)
    (looked : ∀ x ∈ e.references locals, S.names active x) :
    Level.miscalls declared s k e = Level.miscalls declared' s' k' e := by
  unfold Level.miscalls
  split
  · rename_i f arguments
    rw [← inside.related.contains_eq f, ← kept.contains_eq f]
    cases known : s.contains f with
    | true => rfl
    | false =>
      have unbound : locals.contains f = false := (inside.domain f).symm.trans known
      have refers : f ∈ (Expr.call (.identifier f) arguments).references locals := by
        rw [Expr.references]
        exact List.mem_append_left _ (Lockstep.refers_to_unbound unbound)
      rw [S.find_eq (looked f refers)]
  · rfl

theorem LevelsAgree.strict (levels : S.LevelsAgree active depth l l') :
    S.LevelsAgree active depth (Level.strict declared l) (Level.strict declared' l') where
  expression e inside fits := by
    intro k k' kept
    rw [Level.strict_run, Level.strict_run, ← miscalls_eq inside kept e fits.references]
    split
    · exact .error (S.shared_unsupported _)
    · exact levels.expression e inside fits k k' kept
  statements := levels.statements

/-- A run that refuses such calls, beside one that does not. -/
theorem LevelsAgree.strict_left (excused : S.excused Level.refusedCall)
    (levels : S.LevelsAgree active depth l l') :
    S.LevelsAgree active depth (Level.strict declared l) l' where
  expression e inside fits := by
    intro k k' kept
    rw [Level.strict_run]
    split
    · exact .excused excused
    · exact levels.expression e inside fits k k' kept
  statements := levels.statements

theorem strictOfDepth_agree (settings : Settings)
    (tooDeep : S.shared (.nestingTooDeep settings.maxDepth)) (levels : Nat) (active : List String)
    (depth : Nat) :
    S.LevelsAgree active depth (Level.strictOfDepth left settings declared levels)
      (Level.strictOfDepth right settings declared' levels) := by
  induction levels generalizing active depth with
  | zero => exact ⟨fun _ _ _ => agree_throw tooDeep, fun _ _ _ _ => agree_throw tooDeep⟩
  | succ levels ih =>
    have next := LevelsAgree.above (rfl : settings.keepsFunctions = settings.keepsFunctions)
      (ih active depth) (fun f func _ _ _ => ih (f :: active) func.nesting)
    exact (LevelsAgree.strict next).mono (Nat.le_succ depth)

theorem strictOfDepth_agree_ofDepth (settings : Settings)
    (tooDeep : S.shared (.nestingTooDeep settings.maxDepth))
    (excused : S.excused Level.refusedCall) (levels : Nat) (active : List String) (depth : Nat) :
    S.LevelsAgree active depth (Level.strictOfDepth left settings declared levels)
      (Level.ofDepth right settings declared' levels) := by
  induction levels generalizing active depth with
  | zero => exact ⟨fun _ _ _ => agree_throw tooDeep, fun _ _ _ _ => agree_throw tooDeep⟩
  | succ levels ih =>
    have next := LevelsAgree.above (rfl : settings.keepsFunctions = settings.keepsFunctions)
      (ih active depth) (fun f func _ _ _ => ih (f :: active) func.nesting)
    exact (LevelsAgree.strict_left excused next).mono (Nat.le_succ depth)

end Simulation

section Hygiene

theorem Hygienic.contains_enter (params : List String) (s : Scope Hygienic) (y : String) :
    (Hygienic.target.enter params s).contains y = (params.contains y || s.contains y) := by
  induction params generalizing s with
  | nil => rfl
  | cons x rest ih =>
    have inner : (Hygienic.underBinder s x).contains y = (y == x || s.contains y) := by
      rw [Hygienic.underBinder, Scope.contains_bind, Scope.contains, Scope.lookup_map,
        Option.isSome_map]
      rfl
    exact (ih (Hygienic.underBinder s x)).trans
      (by rw [inner, List.contains_cons, Bool.or_left_comm, Bool.or_assoc])

theorem Hygienic.target_extensional : Hygienic.target.Extensional where
  related ps s s' related := by
    induction ps generalizing s s' with
    | nil => exact related
    | cons x rest ih =>
      have shifted : (s.map (Hygienic.shift 0)).Related Eq (s'.map (Hygienic.shift 0)) :=
        related.map fun a b same => congrArg (Hygienic.shift 0) same
      exact ih _ _ (shifted.bind x rfl)
  contains := Hygienic.contains_enter

/-- Code and hygienic terms side by side, whatever they are: the same is decided for both. -/
def decisionSimulation (declared : Declarations) :
    Simulation Code.target Hygienic.target declared declared where
  value _ _ _ := True
  names _ _ := True
  params _ := True
  shared _ := True
  excused _ := False
  name_value _ _ := trivial
  combinator_value _ _ := trivial
  numeral_value _ _ := trivial
  apply_value _ _ := trivial
  function_value _ _ := trivial
  closed_value _ _ := trivial
  enter_related _ related := Scope.Related.of_contains fun x => by
    rw [Code.target_extensional.contains, Hygienic.contains_enter, related.contains_eq]
  enter_contains := Code.target_extensional.contains
  find_eq _ := rfl
  recursive_eq _ := rfl
  callee_names _ _ _ _ _ := trivial
  callee_params _ _ _ _ := trivial
  shared_unsupported _ := trivial
  shared_noReturn _ := trivial

/-- When the strict compiler refuses no call of a script, its hygienic translation refuses
none either. -/
theorem compileStrictTo_hygienic {program : Program} {entry : Entry}
    (accepted : compileStrict program = .ok entry) :
    ∃ result, compileStrictTo Hygienic.target {} program = .ok result := by
  have results : (decisionSimulation (.ofTable program.table)).Results (compileStrict program)
      (compileStrictTo Hygienic.target {} program) :=
    Simulation.compileAt_agree _ _ rfl trivial
      (fun f entry _ => Simulation.strictOfDepth_agree {} trivial _ _ _)
      (fun f entry _ => ⟨fun _ _ => trivial, fun _ _ => trivial, le_rfl⟩)
  rw [accepted] at results
  generalize compileStrictTo Hygienic.target {} program = other at results ⊢
  cases results with
  | ok _ _ => exact ⟨_, rfl⟩

/-- What the strict translation accepts, it translates as the other one does. -/
theorem compileTo_eq_of_strict {program : Program} {result : EntryOf Hygienic}
    (accepted : compileStrictTo Hygienic.target {} program = .ok result) :
    compileTo Hygienic.target {} program = .ok result := by
  let S : Simulation Hygienic.target Hygienic.target (.ofTable program.table)
      (.ofTable program.table) :=
    equalSimulation Hygienic.target_extensional (fun _ _ => True) (fun _ => True)
      (· = Level.refusedCall) (fun _ => rfl) (fun _ => rfl) (fun _ _ _ _ => trivial)
      (fun _ => trivial) fun _ => trivial
  have results : S.Results (compileStrictTo Hygienic.target {} program)
      (compileTo Hygienic.target {} program) :=
    Simulation.compileAt_agree _ _ rfl trivial
      (fun f entry _ => Simulation.strictOfDepth_agree_ofDepth {} trivial rfl _ _ _)
      (fun f entry _ => ⟨fun _ _ => trivial, fun _ _ => trivial, le_rfl⟩)
  rcases equal_of_results rfl results with ⟨e, refused, _⟩ | ⟨same, _⟩
  · rw [accepted] at refused
    cases refused
  · rw [← same, accepted]

end Hygiene

end ChurchScript.Church
