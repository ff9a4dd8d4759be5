import ChurchScript.Church.Compiler

/-!
# Successful runs of the compiler

What a part of the compiler that succeeded has done, one lemma for each part that declared
functions go through.
-/
namespace ChurchScript.Church

open Script

theorem length_of_mapM_ok {ι A : Type} {f : ι → Except Error A} {items : List ι} {results : List A}
    (success : items.mapM f = .ok results) : results.length = items.length := by
  induction items generalizing results with
  | nil =>
    cases success
    rfl
  | cons i rest ih =>
    rw [List.mapM_cons] at success
    obtain ⟨a, _, success⟩ := ok_of_bind success
    obtain ⟨as, others, success⟩ := ok_of_bind success
    cases success
    exact congrArg Nat.succ (ih others)

theorem paramNames_length {func : Func} {params : List String}
    (named : paramNames func = .ok params) : params.length = func.params.length :=
  length_of_mapM_ok named

variable {α A B : Type} {k k' : Kept α}

theorem run_bind_inv {x : Compile α A} {f : A → Compile α B} {result : B × Kept α}
    (success : (x >>= f).run k = .ok result) :
    ∃ a k₁, x.run k = .ok (a, k₁) ∧ (f a).run k₁ = .ok result := by
  rw [StateT.run_bind] at success
  obtain ⟨⟨a, k₁⟩, first, next⟩ := ok_of_bind success
  exact ⟨a, k₁, first, next⟩

theorem run_mapM_length {f : A → Compile α B} {items : List A} {results : List B}
    (success : (items.mapM f).run k = .ok (results, k')) : results.length = items.length := by
  induction items generalizing k results with
  | nil =>
    cases success
    rfl
  | cons i rest ih =>
    rw [List.mapM_cons] at success
    obtain ⟨b, _, _, success⟩ := run_bind_inv success
    obtain ⟨bs, _, others, success⟩ := run_bind_inv success
    cases success
    exact congrArg Nat.succ (ih others)

theorem run_lift_inv {x : Except Error A} {a : A}
    (success : (liftM x : Compile α A).run k = .ok (a, k')) : x = .ok a ∧ k = k' := by
  cases x with
  | error e => cases success
  | ok result =>
    cases success
    exact ⟨rfl, rfl⟩

theorem refuseRecursive_inv {declared : Declarations} {f : String} {u : Unit}
    (success : (Level.refuseRecursive declared f : Compile α Unit).run k = .ok (u, k')) :
    k = k' := by
  unfold Level.refuseRecursive at success
  split at success
  · cases success
  · cases success
    rfl

variable {target : Target α} {settings : Settings} {declared : Declarations}
  {callee : String → Level α} {below : Level α} {f : String} {func : Func} {code : α}

theorem keep_inv {u : Unit} (success : (Level.keep settings f code).run k = .ok (u, k')) :
    k' = if settings.keepsFunctions then k.bind f code else k := by
  unfold Level.keep at success
  split at success
  · cases success
    rw [if_pos ‹_›]
  · cases success
    rw [if_neg ‹_›]

theorem reference_inv
    (success : (Level.reference target settings declared callee f func).run k = .ok (code, k')) :
    ∃ params body k₁, paramNames func = .ok params ∧
      (Level.functionBody (callee f) func (target.enter params {})).run k = .ok (body, k₁) ∧
      code = target.function params body ∧
      k' = if settings.keepsFunctions then k₁.bind f code else k₁ := by
  obtain ⟨_, _, permitted, success⟩ := run_bind_inv success
  obtain rfl := refuseRecursive_inv permitted
  obtain ⟨params, _, lifted, success⟩ := run_bind_inv success
  obtain ⟨named, rfl⟩ := run_lift_inv lifted
  obtain ⟨body, k₁, compiled, success⟩ := run_bind_inv success
  obtain ⟨_, _, keeps, success⟩ := run_bind_inv success
  cases success
  exact ⟨params, body, k₁, named, compiled, rfl, keep_inv keeps⟩

theorem inlineCall_inv {arguments : List Expr} {scope : Scope α}
    (success : (Level.inlineCall target declared callee below f func arguments scope).run k =
      .ok (code, k')) :
    ∃ params values k₁, paramNames func = .ok params ∧
      (arguments.mapM (below.expression scope)).run k = .ok (values, k₁) ∧
      (Level.functionBody (callee f) func
        (Scope.bindArguments {} target.zero params values)).run k₁ = .ok (code, k') := by
  obtain ⟨_, _, permitted, success⟩ := run_bind_inv success
  obtain rfl := refuseRecursive_inv permitted
  obtain ⟨values, k₁, compiled, success⟩ := run_bind_inv success
  obtain ⟨params, _, lifted, success⟩ := run_bind_inv success
  obtain ⟨named, rfl⟩ := run_lift_inv lifted
  exact ⟨params, values, _, named, compiled, success⟩

/-- A compiled script is the lambda of its entry point. -/
theorem compileAt_inv {top : String → Level α} {table : FunctionTable} {entry : EntryOf α}
    (success : compileAt target top table = .ok entry) :
    ∃ start func k', entryPoint? table = some (start, func) ∧
      paramNames func = .ok entry.params ∧
      (Level.functionBody (top start) func (target.enter entry.params {})).run {} =
        .ok (entry.body, k') := by
  unfold compileAt at success
  cases first : entryPoint? table with
  | none =>
    rw [first] at success
    cases success
  | some found =>
    obtain ⟨start, func⟩ := found
    simp only [first, StateT.run'_eq, map_eq_pure_bind] at success
    obtain ⟨⟨result, kept⟩, outcome, same⟩ := ok_of_bind success
    cases same
    obtain ⟨params, _, lifted, inner⟩ := run_bind_inv outcome
    obtain ⟨named, rfl⟩ := run_lift_inv lifted
    obtain ⟨body, _, compiled, inner⟩ := run_bind_inv inner
    cases inner
    exact ⟨start, func, _, rfl, named, compiled⟩

/-- The calls that are replaced by the body of a function. -/
theorem inlined_eq_some_iff {called : Expr} {scope : Scope α} :
    Level.inlined? declared called scope k = some (f, func) ↔
      called = .identifier f ∧ scope.contains f = false ∧ k.contains f = false ∧
        declared.table.find? f = some func := by
  unfold Level.inlined?
  cases called with
  | identifier x =>
    simp only [Expr.identifier.injEq]
    by_cases known : (scope.contains x || k.contains x) = true
    · rw [if_pos known]
      constructor
      · intro none
        cases none
      · rintro ⟨rfl, free, fresh, _⟩
        simp [free, fresh] at known
    · obtain ⟨free, fresh⟩ := Bool.or_eq_false_iff.mp (Bool.eq_false_iff.mpr known)
      rw [if_neg known, Option.map_eq_some_iff]
      constructor
      · rintro ⟨_, found, same⟩
        cases same
        exact ⟨rfl, free, fresh, found⟩
      · rintro ⟨rfl, _, _, found⟩
        exact ⟨func, found, rfl⟩
  | _ => simp

end ChurchScript.Church
