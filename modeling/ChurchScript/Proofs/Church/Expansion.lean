import Mathlib.Algebra.BigOperators.Group.Finset.Basic
import ChurchScript.Proofs.Church.Runs
import ChurchScript.Proofs.Script.Recursion

/-!
# Expansion is finite

Refusing recursive functions is enough for the expansion of calls to end. While
functions are being expanded, each one inside the one before it, all of them lead
to whatever is looked up next, so none of them is expanded once more inside itself.
With all nesting of all functions there are levels enough.
-/
namespace ChurchScript

open Script

namespace Script.FunctionTable

variable (table : FunctionTable)

/-- The levels of nesting in the body of a declared function. -/
def nestingOf (f : String) : Nat := ((table.find? f).map Func.nesting).getD 0

/-- The levels of nesting of all functions that are not being expanded. -/
def remaining (active : List String) : Nat :=
  ∑ f ∈ table.names.toFinset \ active.toFinset, table.nestingOf f

/-- The levels of nesting of all functions together. -/
def totalNesting : Nat := ∑ f ∈ table.names.toFinset, table.nestingOf f

variable {table}

theorem remaining_nil : table.remaining [] = table.totalNesting := by
  simp [remaining, totalNesting]

/-- A function that starts to be expanded takes its nesting from what remains. -/
theorem nesting_add_remaining {f : String} {func : Func} (active : List String)
    (found : table.find? f = some func) (fresh : f ∉ active) :
    func.nesting + table.remaining (f :: active) = table.remaining active := by
  have nesting : table.nestingOf f = func.nesting := by simp [nestingOf, found]
  have member : f ∈ table.names.toFinset \ active.toFinset := by
    simp [mem_names_of_find found, fresh]
  have others : table.names.toFinset \ (f :: active).toFinset =
      (table.names.toFinset \ active.toFinset).erase f := by
    rw [List.toFinset_cons, Finset.sdiff_insert]
  rw [remaining, remaining, ← nesting, others]
  exact Finset.add_sum_erase _ _ member

end Script.FunctionTable

namespace Church

open Simulation

/-- The levels of the compiler with some other level for the body of a function that is
being expanded already. -/
def Level.guarded {α : Type} (target : Target α) (settings : Settings) (declared : Declarations)
    (reentered : Level α) : List String → Nat → Level α
  | _, 0 => bottom settings
  | active, depth + 1 =>
    above target settings declared
      (fun f => if f ∈ active then reentered
        else guarded target settings declared reentered (f :: active) depth)
      (guarded target settings declared reentered active depth)

/-- What can be looked up while functions are being expanded: of the declared functions,
only those that all of them lead to. -/
def Reached (table : FunctionTable) (active : List String) (x : String) : Prop :=
  (table.find? x).isSome = true → ∀ f ∈ active, Relation.TransGen table.Leads f x

section Reached

variable {table : FunctionTable} {active : List String} {f : String} {func : Func}

theorem Reached.callee (reached : Reached table active f) (found : table.find? f = some func)
    {x : String} (refers : x ∈ func.references []) : Reached table (f :: active) x := by
  intro declared g member
  have last := FunctionTable.leads_of_reference found refers declared
  rcases List.mem_cons.mp member with rfl | outer
  · exact .single last
  · exact (reached (by simp [found]) g outer).tail last

/-- What is reached and not recursive is not being expanded. -/
theorem Reached.fresh (reached : Reached table active f) (found : table.find? f = some func)
    (permitted : (Declarations.ofTable table).recursive.contains f = false) : f ∉ active := by
  intro member
  have cycle := reached (by simp [found]) f member
  have recursive := List.contains_iff_mem.mpr (FunctionTable.recursive_of_path cycle)
  rw [Declarations.ofTable] at permitted
  simp_all

end Reached

/-- Two runs of the compiler on one script. Values are the same on both sides; which
errors are shared and which are excused is left open. -/
def expansionSimulation (table : FunctionTable) (shared excused : Error → Prop)
    (unsupported : ∀ construct, shared (.unsupported construct))
    (noReturn : ∀ function, shared (.noReturn function)) :
    Simulation Code.target Code.target (.ofTable table) (.ofTable table) :=
  equalSimulation Code.target_extensional (Reached table) shared excused (fun _ => rfl)
    (fun _ => rfl) (fun reached found _ refers => reached.callee found refers) unsupported noReturn

def IsTooDeep (e : Error) : Prop := ∃ limit, e = .nestingTooDeep limit

/-- The first run may find the nesting too deep where the second one does not. -/
abbrev moreSimulation (table : FunctionTable) :=
  expansionSimulation table (fun _ => True) IsTooDeep (fun _ => trivial) fun _ => trivial

/-- Neither run finds the nesting too deep. -/
abbrev enoughSimulation (table : FunctionTable) :=
  expansionSimulation table (¬ IsTooDeep ·) (fun _ => False) (by simp [IsTooDeep])
    (by simp [IsTooDeep])

/-- Both runs have all errors in common. -/
abbrev guardedSimulation (table : FunctionTable) :=
  expansionSimulation table (fun _ => True) (fun _ => False) (fun _ => trivial) fun _ => trivial

section Levels

variable {table : FunctionTable} {settings settings' : Settings}

/-- More levels give the same results, where fewer are enough. -/
theorem more_levels_agree (keeps : settings.keepsFunctions = settings'.keepsFunctions)
    {fewer more : Nat} (le : fewer ≤ more) (active : List String) (depth : Nat) :
    (moreSimulation table).LevelsAgree active depth
      (Level.ofDepth Code.target settings (.ofTable table) fewer)
      (Level.ofDepth Code.target settings' (.ofTable table) more) := by
  induction fewer generalizing more active depth with
  | zero =>
    have tooDeep : IsTooDeep (.nestingTooDeep settings.maxDepth) := ⟨_, rfl⟩
    exact ⟨fun _ _ _ => agree_excused tooDeep _, fun _ _ _ _ => agree_excused tooDeep _⟩
  | succ fewer ih =>
    obtain ⟨more, rfl⟩ : ∃ n, more = n + 1 := ⟨more - 1, by omega⟩
    have inside : fewer ≤ more := Nat.le_of_succ_le_succ le
    have levels := LevelsAgree.above keeps (ih inside active depth)
      fun f func _ _ _ => ih inside (f :: active) func.nesting
    exact levels.mono (Nat.le_succ depth)

/-- With levels for what is left of the syntax at hand and for all functions that are
not being expanded, the nesting is never too deep. -/
theorem enough_levels_agree (keeps : settings.keepsFunctions = settings'.keepsFunctions)
    {levels levels' depth : Nat} {active : List String}
    (enough : depth + table.remaining active ≤ levels)
    (enough' : depth + table.remaining active ≤ levels') :
    (enoughSimulation table).LevelsAgree active depth
      (Level.ofDepth Code.target settings (.ofTable table) levels)
      (Level.ofDepth Code.target settings' (.ofTable table) levels') := by
  induction levels generalizing levels' depth active with
  | zero =>
    obtain rfl : depth = 0 := by omega
    exact .zero _ _
  | succ levels ih =>
    cases depth with
    | zero => exact .zero _ _
    | succ depth =>
      obtain ⟨levels', rfl⟩ : ∃ n, levels' = n + 1 := ⟨levels' - 1, by omega⟩
      refine LevelsAgree.above keeps (ih (by omega) (by omega)) ?_
      intro f func reached found permitted
      have taken : func.nesting + table.remaining (f :: active) = table.remaining active :=
        FunctionTable.nesting_add_remaining active found (Reached.fresh reached found permitted)
      exact ih (by omega) (by omega)

/-- A level for functions that are being expanded already is never used. -/
theorem guarded_levels_agree (reentered : Level Code) (levels : Nat) (active : List String)
    (depth : Nat) :
    (guardedSimulation table).LevelsAgree active depth
      (Level.guarded Code.target settings (.ofTable table) reentered active levels)
      (Level.ofDepth Code.target settings (.ofTable table) levels) := by
  induction levels generalizing active depth with
  | zero => exact ⟨fun _ _ _ => agree_throw trivial, fun _ _ _ _ => agree_throw trivial⟩
  | succ levels ih =>
    refine (LevelsAgree.above rfl (ih active depth) ?_).mono (Nat.le_succ depth)
    intro f func reached found permitted
    have fresh := Reached.fresh reached found permitted
    simp only [if_neg fresh]
    exact ih (f :: active) func.nesting

end Levels

section Runs

variable {table : FunctionTable} {shared excused : Error → Prop}
  {unsupported : ∀ construct, shared (.unsupported construct)}
  {noReturn : ∀ function, shared (.noReturn function)}

/-- The entry point refers to what it leads to. -/
theorem entry_fits {f : String} {entry : Func} (start : entryPoint? table = some (f, entry)) :
    Fits (Reached table [f]) (fun _ => True) entry.nesting (entry.references [])
      entry.occurrences entry.nesting := by
  have outermost : Reached table [] f := fun _ _ member => absurd member (by simp)
  exact ⟨fun x refers => outermost.callee (find_of_entryPoint start) refers,
    fun _ _ => trivial, le_rfl⟩

/-- Two runs whose levels agree for the entry point have the same result, or the first
one has an error that is excused. -/
theorem runs_agree (noEntry : shared .noEntryPoint) {top top' : String → Level Code}
    (levels : ∀ f entry, entryPoint? table = some (f, entry) →
      (expansionSimulation table shared excused unsupported noReturn).LevelsAgree [f]
        entry.nesting (top f) (top' f)) :
    (∃ e, compileAt Code.target top table = .error e ∧ excused e) ∨
      compileAt Code.target top table = compileAt Code.target top' table ∧
        ∀ e, compileAt Code.target top table = .error e → shared e := by
  have results := compileAt_agree table table rfl noEntry levels fun f entry start =>
    entry_fits start
  exact equal_of_results rfl results

end Runs

section Limits

variable {program : Program} (settings settings' : Settings)

/-- With levels for all nesting of all functions the nesting is never too deep, and
further levels change nothing. -/
theorem compileWith_enough (keeps : settings.keepsFunctions = settings'.keepsFunctions)
    (enough : program.table.totalNesting ≤ settings.maxDepth)
    (enough' : program.table.totalNesting ≤ settings'.maxDepth) :
    compileWith settings program = compileWith settings' program ∧
      ∀ e, compileWith settings program = .error e → ¬ IsTooDeep e := by
  have levels : ∀ f entry, entryPoint? program.table = some (f, entry) →
      (enoughSimulation program.table).LevelsAgree [f] entry.nesting
        (Level.ofDepth Code.target settings (.ofTable program.table) settings.maxDepth)
        (Level.ofDepth Code.target settings' (.ofTable program.table) settings'.maxDepth) := by
    intro f entry start
    have taken := FunctionTable.nesting_add_remaining [] (find_of_entryPoint start) (by simp)
    rw [FunctionTable.remaining_nil] at taken
    exact enough_levels_agree keeps (by omega) (by omega)
  have noEntry : ¬ IsTooDeep .noEntryPoint := by simp [IsTooDeep]
  rcases runs_agree noEntry levels with ⟨_, _, impossible⟩ | same
  · exact impossible.elim
  · exact same

/-- Whatever stands for the body of a function inside an expansion of the same function,
the result is the same. -/
theorem compileWith_guarded (program : Program) (reentered : Level Code) :
    compileAt Code.target (fun f => Level.guarded Code.target settings (.ofTable program.table)
      reentered [f] settings.maxDepth) program.table = compileWith settings program := by
  have levels : ∀ f entry, entryPoint? program.table = some (f, entry) →
      (guardedSimulation program.table).LevelsAgree [f] entry.nesting
        (Level.guarded Code.target settings (.ofTable program.table) reentered [f]
          settings.maxDepth)
        (Level.ofDepth Code.target settings (.ofTable program.table) settings.maxDepth) :=
    fun f entry _ => guarded_levels_agree reentered settings.maxDepth [f] entry.nesting
  rcases runs_agree trivial levels with ⟨_, _, impossible⟩ | ⟨same, _⟩
  · exact impossible.elim
  · exact same

/-- A limit that is enough stays enough when it grows. -/
theorem compileWith_more (keeps : settings.keepsFunctions = settings'.keepsFunctions)
    (le : settings.maxDepth ≤ settings'.maxDepth) {entry : Entry}
    (compiled : compileWith settings program = .ok entry) :
    compileWith settings' program = .ok entry := by
  have levels : ∀ f entry, entryPoint? program.table = some (f, entry) →
      (moreSimulation program.table).LevelsAgree [f] entry.nesting
        (Level.ofDepth Code.target settings (.ofTable program.table) settings.maxDepth)
        (Level.ofDepth Code.target settings' (.ofTable program.table) settings'.maxDepth) :=
    fun f entry _ => more_levels_agree keeps le [f] entry.nesting
  rcases runs_agree trivial levels with ⟨e, failed, _⟩ | ⟨same, _⟩
  · exact absurd (compiled.symm.trans failed) (by simp)
  · exact same.symm.trans compiled

end Limits

/-- The compiler with as many levels as all functions nest is never too deep and has
one result; at every limit it expands no function inside an expansion of the same
function, so that any other level may stand there; and a limit that is enough stays
enough when it grows. -/
theorem expansion_finite (settings : Settings) (program : Program) :
    (∀ limit, program.table.totalNesting ≤ limit → ∀ depth,
      compileWith { settings with maxDepth := limit } program ≠ .error (.nestingTooDeep depth)) ∧
    (∀ limit limit', program.table.totalNesting ≤ limit → program.table.totalNesting ≤ limit' →
      compileWith { settings with maxDepth := limit } program =
        compileWith { settings with maxDepth := limit' } program) ∧
    (∀ limit reentered,
      compileAt Code.target (fun f => Level.guarded Code.target { settings with maxDepth := limit }
        (.ofTable program.table) reentered [f] limit) program.table =
        compileWith { settings with maxDepth := limit } program) ∧
    (∀ limit more entry, limit ≤ more →
      compileWith { settings with maxDepth := limit } program = .ok entry →
      compileWith { settings with maxDepth := more } program = .ok entry) := by
  refine ⟨?_, ?_, ?_, ?_⟩
  · intro limit enough depth failed
    exact (compileWith_enough _ _ rfl enough enough).2 _ failed ⟨depth, rfl⟩
  · intro limit limit' enough enough'
    exact (compileWith_enough { settings with maxDepth := limit }
      { settings with maxDepth := limit' } rfl enough enough').1
  · intro limit reentered
    exact compileWith_guarded { settings with maxDepth := limit } program reentered
  · intro limit more entry le compiled
    exact compileWith_more { settings with maxDepth := limit } { settings with maxDepth := more }
      rfl le compiled

end Church
end ChurchScript
