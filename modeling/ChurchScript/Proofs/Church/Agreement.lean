import ChurchScript.Proofs.Church.Simulation

/-!
# Levels of the compiler agree

Names and calls, compiled on both sides of a simulation, end alike when the levels that
they are given do. So two levels put on levels that agree agree themselves.
-/
namespace ChurchScript.Church.Simulation

open Script Lockstep

variable {α β : Type} {left : Target α} {right : Target β} {declared declared' : Declarations}
  {S : Simulation left right declared declared'} {active bound locals : List String}
  {depth : Nat} {s : Scope α} {s' : Scope β}

section Expressions

variable {settings settings' : Settings} {callee : String → Level α} {callee' : String → Level β}
  {below : Level α} {below' : Level β}

theorem refuseRecursive_agree {f : String} (looked : S.names active f) :
    S.Agree (fun _ _ => declared.recursive.contains f = false)
      (Level.refuseRecursive declared f) (Level.refuseRecursive declared' f) := by
  unfold Level.refuseRecursive
  rw [← S.recursive_eq looked]
  cases recursive : declared.recursive.contains f with
  | true => exact agree_throw (S.shared_unsupported _)
  | false => exact agree_pure rfl

/-- Every declared function that can be looked up is expanded at levels that agree. -/
def CalleesAgree (S : Simulation left right declared declared') (active : List String)
    (callee : String → Level α) (callee' : String → Level β) : Prop :=
  ∀ f func, S.names active f → declared.table.find? f = some func →
    declared.recursive.contains f = false →
    S.LevelsAgree (f :: active) func.nesting (callee f) (callee' f)

/-- A declared function fits while it is expanded. -/
theorem callee_fits {f : String} {func : Func} (looked : S.names active f)
    (found : declared.table.find? f = some func)
    (permitted : declared.recursive.contains f = false) :
    Fits (S.names (f :: active)) S.params func.nesting (func.references []) func.occurrences
      func.nesting :=
  ⟨S.callee_names looked found permitted, S.callee_params looked found, Nat.le_refl _⟩

theorem inlineCall_agree (levels : S.LevelsAgree active depth below below')
    (callees : S.CalleesAgree active callee callee') {f : String} {func : Func}
    (looked : S.names active f) (found : declared.table.find? f = some func)
    (inside : S.lockstep.Inside bound locals s s') (arguments : List Expr)
    (fits : ∀ e ∈ arguments,
      Fits (S.names active) S.params depth (e.references locals) e.occurrences e.nesting) :
    S.Agree (S.value bound) (Level.inlineCall left declared callee below f func arguments s)
      (Level.inlineCall right declared' callee' below' f func arguments s') := by
  refine agree_bind (refuseRecursive_agree looked) fun _ _ permitted => ?_
  refine agree_bind (arguments_agree levels inside arguments fits) fun as bs values => ?_
  refine agree_bind (paramNames_agree (L := S.lockstep) func) fun ps ps' named => ?_
  obtain ⟨rfl, rfl⟩ := named
  exact functionBody_agree (callees f func looked found permitted) func
    (Inside.arguments _ values) (body_fits (callee_fits looked found permitted))

theorem keep_agree (keeps : settings.keepsFunctions = settings'.keepsFunctions) (f : String)
    {a : α} {b : β} (values : S.value [] a b) :
    S.Agree (fun _ _ => True) (Level.keep settings f a) (Level.keep settings' f b) := by
  unfold Level.keep
  rw [← keeps]
  cases settings.keepsFunctions with
  | false => exact agree_pure trivial
  | true => exact fun k k' kept => .ok trivial (kept.bind f values)

theorem reference_agree (keeps : settings.keepsFunctions = settings'.keepsFunctions)
    (callees : S.CalleesAgree active callee callee') {f : String} {func : Func}
    (looked : S.names active f) (found : declared.table.find? f = some func) :
    S.Agree (S.value bound) (Level.reference left settings declared callee f func)
      (Level.reference right settings' declared' callee' f func) := by
  refine agree_bind (refuseRecursive_agree looked) fun _ _ permitted => ?_
  refine agree_bind (paramNames_agree (L := S.lockstep) func) fun ps ps' named => ?_
  obtain ⟨rfl, rfl⟩ := named
  have fits := callee_fits looked found permitted
  have params := params_of_fits (L := S.lockstep) fits
  have inside := (Inside.empty (L := S.lockstep) []).enter params
  refine agree_bind (functionBody_agree (callees f func looked found permitted) func
    inside (body_fits fits)) fun a b values => ?_
  have closed := S.function_value params values
  refine agree_bind (keep_agree keeps f closed) fun _ _ _ => ?_
  exact agree_pure (S.closed_value closed bound)

theorem identifier_agree (keeps : settings.keepsFunctions = settings'.keepsFunctions)
    (callees : S.CalleesAgree active callee callee') (inside : S.lockstep.Inside bound locals s s')
    (x : String) (looked : locals.contains x = false → S.names active x) :
    S.Agree (S.value bound) (Level.identifier left settings declared callee x s)
      (Level.identifier right settings' declared' callee' x s') := by
  unfold Level.identifier
  have domain := inside.domain x
  have bindings := inside.related x
  unfold Scope.contains at domain
  generalize s.lookup x = here at bindings domain ⊢
  generalize s'.lookup x = there at bindings ⊢
  cases bindings with
  | some values => exact agree_pure values
  | none =>
    have looked := looked domain.symm
    intro k k' kept
    have keptHere := kept x
    simp only [StateT.run_bind, StateT.run_get, pure_bind]
    generalize k.lookup x = here at keptHere ⊢
    generalize k'.lookup x = there at keptHere ⊢
    cases keptHere with
    | some values => exact agree_pure (S.closed_value values bound) k k' kept
    | none =>
      rw [← S.find_eq looked]
      cases found : declared.table.find? x with
      | some func => exact reference_agree keeps callees looked found k k' kept
      | none => exact agree_pure (S.name_value looked found) k k' kept

/-- Both runs replace the same calls by the body of the same function. -/
theorem inlined_agree (inside : S.lockstep.Inside bound locals s s') {k : Kept α} {k' : Kept β}
    (kept : k.Related (S.value []) k') (called : Expr)
    (looked : ∀ x ∈ called.references locals, S.names active x) :
    Level.inlined? declared called s k = Level.inlined? declared' called s' k' ∧
      ∀ f func, Level.inlined? declared called s k = some (f, func) →
        S.names active f ∧ declared.table.find? f = some func := by
  unfold Level.inlined?
  cases called with
  | identifier x =>
    simp only [← inside.related.contains_eq x, ← kept.contains_eq x]
    cases known : s.contains x || k.contains x with
    | true => simp
    | false =>
      have unbound : locals.contains x = false :=
        (inside.domain x).symm.trans (Bool.or_eq_false_iff.mp known).1
      have looked := looked x (refers_to_unbound unbound)
      rw [← S.find_eq looked]
      refine ⟨rfl, fun f func found => ?_⟩
      obtain ⟨func', found', same⟩ := Option.map_eq_some_iff.mp found
      cases same
      exact ⟨looked, found'⟩
  | _ => exact ⟨rfl, fun f func found => by cases found⟩

theorem call_agree (levels : S.LevelsAgree active depth below below')
    (callees : S.CalleesAgree active callee callee') (inside : S.lockstep.Inside bound locals s s')
    (called : Expr) (arguments : List Expr)
    (calledFits : Fits (S.names active) S.params depth (called.references locals)
      called.occurrences called.nesting)
    (argumentsFit : ∀ e ∈ arguments,
      Fits (S.names active) S.params depth (e.references locals) e.occurrences e.nesting) :
    S.Agree (S.value bound) (Level.call left declared callee below called arguments s)
      (Level.call right declared' callee' below' called arguments s') := by
  intro k k' kept
  unfold Level.call
  simp only [StateT.run_bind, StateT.run_get, pure_bind]
  obtain ⟨same, chosen⟩ := inlined_agree inside kept called calledFits.references
  rw [← same]
  cases choice : Level.inlined? declared called s k with
  | some target =>
    obtain ⟨f, func⟩ := target
    obtain ⟨looked, found⟩ := chosen f func choice
    exact inlineCall_agree levels callees looked found inside arguments argumentsFit k k' kept
  | none =>
    exact application_agree levels inside called arguments calledFits argumentsFit k k' kept

end Expressions

/-- Levels on levels that agree agree, one level deeper. -/
theorem LevelsAgree.above {settings settings' : Settings} {callee : String → Level α}
    {callee' : String → Level β} {below : Level α} {below' : Level β}
    (keeps : settings.keepsFunctions = settings'.keepsFunctions)
    (levels : S.LevelsAgree active depth below below')
    (callees : S.CalleesAgree active callee callee') :
    S.LevelsAgree active (depth + 1) (Level.above left settings declared callee below)
      (Level.above right settings' declared' callee' below') where
  expression e inside fits := by
    refine expression_agree levels inside e fits (fun x same => ?_) fun called arguments same => ?_
    · subst same
      exact identifier_agree keeps callees inside x fun unbound =>
        fits.references x (refers_to_unbound unbound)
    · subst same
      simp only [Expr.references, Expr.occurrences, Expr.nesting] at fits
      exact call_agree levels callees inside called arguments fits.below.left
        (arguments_fit arguments fits.below.right)
  statements place statements inside fits :=
    statements_agree levels place inside statements fits.below

end ChurchScript.Church.Simulation
