import ChurchScript.Proofs.Church.Agreement

/-!
# Whole runs of the compiler agree

Agreement of levels carried down all levels of nesting, and from the level of the
entry point to the result of compiling a script. Runs with the same code on both sides
have equal results.
-/
namespace ChurchScript.Church

open Script

/-- The entry point is the declared function of its name. -/
theorem find_of_entryPoint {table : FunctionTable} {f : String} {entry : Func}
    (found : entryPoint? table = some (f, entry)) : table.find? f = some entry := by
  obtain ⟨⟨name, _⟩, _, given⟩ := Option.bind_eq_some_iff.mp found
  obtain ⟨func, declared, same⟩ := Option.bind_eq_some_iff.mp given
  cases same
  exact declared

namespace Simulation

open Lockstep

variable {α β : Type} {left : Target α} {right : Target β} {declared declared' : Declarations}
  {S : Simulation left right declared declared'} {active : List String} {depth : Nat}

/-- With the same settings on both sides, all levels agree on all that can be written. -/
theorem ofDepth_agree (settings : Settings) (tooDeep : S.shared (.nestingTooDeep settings.maxDepth))
    (levels : Nat) (active : List String) (depth : Nat) :
    S.LevelsAgree active depth (Level.ofDepth left settings declared levels)
      (Level.ofDepth right settings declared' levels) := by
  induction levels generalizing active depth with
  | zero => exact ⟨fun _ _ _ => agree_throw tooDeep, fun _ _ _ _ => agree_throw tooDeep⟩
  | succ levels ih =>
    have next := LevelsAgree.above (rfl : settings.keepsFunctions = settings.keepsFunctions)
      (ih active depth) (fun f func _ _ _ => ih (f :: active) func.nesting)
    exact next.mono (Nat.le_succ depth)

/-- The results of two runs. -/
inductive Results (S : Simulation left right declared declared') :
    Except Error (EntryOf α) → Except Error (EntryOf β) → Prop
  | ok {ps : List String} {a : α} {b : β} : (∀ x ∈ ps, S.params x) →
    S.value (ps.reverse ++ []) a b → Results S (.ok ⟨ps, a⟩) (.ok ⟨ps, b⟩)
  | error {e : Error} : S.shared e → Results S (.error e) (.error e)
  | excused {e : Error} {other : Except Error (EntryOf β)} : S.excused e →
    Results S (.error e) other

theorem compileEntry_agree {top : Level α} {top' : Level β}
    (levels : S.LevelsAgree active depth top top') (entry : Func)
    (fits : Fits (S.names active) S.params depth (entry.references []) entry.occurrences
      entry.nesting) :
    S.Agree (fun e e' => S.Results (.ok e) (.ok e')) (compileEntry left top entry)
      (compileEntry right top' entry) := by
  refine agree_bind (paramNames_agree (L := S.lockstep) entry) fun ps ps' named => ?_
  obtain ⟨rfl, rfl⟩ := named
  have params := params_of_fits (L := S.lockstep) fits
  have inside := (Inside.empty (L := S.lockstep) []).enter params
  refine agree_bind (functionBody_agree levels entry inside (body_fits fits)) fun a b values => ?_
  exact agree_pure (.ok params values)

/-- Two runs from entry points of the same name give related results, when the entry
point fits in levels that agree. -/
theorem compileAt_agree {top : String → Level α} {top' : String → Level β}
    (table table' : FunctionTable) (same : entryPoint? table = entryPoint? table')
    (noEntry : S.shared .noEntryPoint)
    (levels : ∀ f entry, entryPoint? table = some (f, entry) →
      S.LevelsAgree [f] entry.nesting (top f) (top' f))
    (fits : ∀ f entry, entryPoint? table = some (f, entry) →
      Fits (S.names [f]) S.params entry.nesting (entry.references []) entry.occurrences
        entry.nesting) :
    S.Results (compileAt left top table) (compileAt right top' table') := by
  unfold compileAt
  rw [← same]
  cases found : entryPoint? table with
  | none => exact .error noEntry
  | some entry =>
    obtain ⟨f, func⟩ := entry
    have agree := compileEntry_agree (levels f func found) func (fits f func found)
    have outcome := agree {} {} .empty
    simp only [StateT.run'_eq]
    generalize (compileEntry left (top f) func).run {} = result at outcome ⊢
    generalize (compileEntry right (top' f) func).run {} = result' at outcome ⊢
    cases outcome with
    | ok results _ => exact results
    | error both => exact .error both
    | excused given => exact .excused given

end Simulation

section Equality

variable {α : Type} {target : Target α} {declared declared' : Declarations}
  {shared excused : Error → Prop}

/-- What a function is entered with depends on what the scope binds alone. -/
structure Target.Extensional (target : Target α) : Prop where
  related (ps : List String) {s s' : Scope α} : s.Related Eq s' →
    (target.enter ps s).Related Eq (target.enter ps s')
  contains (ps : List String) (s : Scope α) (y : String) :
    (target.enter ps s).contains y = (ps.contains y || s.contains y)

theorem Code.target_extensional : Code.target.Extensional where
  related _ _ _ related := related.bindParams _ fun _ _ => rfl
  contains ps s y := Scope.contains_bindParams s _ ps y

/-- Two runs that build the same code on both sides, as long as they look up only names
that both declare and refuse alike. -/
def equalSimulation (extensional : target.Extensional) (names : List String → String → Prop)
    (shared excused : Error → Prop)
    (find_eq : ∀ {active x}, names active x → declared.table.find? x = declared'.table.find? x)
    (recursive_eq : ∀ {active x}, names active x →
      declared.recursive.contains x = declared'.recursive.contains x)
    (callee_names : ∀ {active f func}, names active f → declared.table.find? f = some func →
      ∀ x ∈ func.references [], names (f :: active) x)
    (unsupported : ∀ construct, shared (.unsupported construct))
    (noReturn : ∀ function, shared (.noReturn function)) :
    Simulation target target declared declared' where
  value _ := Eq
  names := names
  params _ := True
  shared := shared
  excused := excused
  name_value _ _ := rfl
  combinator_value _ _ := rfl
  numeral_value _ _ := rfl
  apply_value {_ _ _ as bs} head others := by
    have same : as = bs := by rwa [List.forall₂_eq_eq_eq] at others
    rw [head, same]
  function_value _ body := by rw [body]
  closed_value same _ := same
  enter_related _ related := extensional.related _ related
  enter_contains := extensional.contains
  find_eq := find_eq
  recursive_eq := recursive_eq
  callee_names looked found _ := callee_names looked found
  callee_params _ _ _ _ := trivial
  shared_unsupported := unsupported
  shared_noReturn := noReturn

/-- Related results of such runs are equal, unless the first one is excused. -/
theorem equal_of_results {S : Simulation target target declared declared'}
    (values : S.value = fun _ => Eq) {result result' : Except Error (EntryOf α)}
    (results : S.Results result result') :
    (∃ e, result = .error e ∧ S.excused e) ∨
      result = result' ∧ ∀ e, result = .error e → S.shared e := by
  cases results with
  | ok _ same =>
    rw [values] at same
    cases same
    exact .inr ⟨rfl, fun e h => by cases h⟩
  | error both => exact .inr ⟨rfl, fun e h => by cases h; exact both⟩
  | excused given => exact .inl ⟨_, rfl, given⟩

end Equality

end ChurchScript.Church
