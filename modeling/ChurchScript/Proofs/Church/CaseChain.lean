import ChurchScript.Proofs.Church.Inversion

/-!
# Switches as chains of cases

A switch is compiled to a chain of selections over the cases that have a test and give back
a value, in source order, with the value of the first default case at the end. Where the
default case stands makes no difference. A break ends the case it stands in, from any depth
of blocks, and nothing but that case: what it ends is what stands before it.
-/
namespace ChurchScript.Church

open Script

section Chain

variable {α : Type} (target : Target α) (below : Level α) (scope : Scope α)

/-- The tests of the cases that have one, in source order, each with the value of its case
if that gives one back. The cases are compiled from the last to the first. -/
def testedCases : List SwitchCase → Compile α (List (α × Option α))
  | [] => return []
  | case :: rest => do
    let behind ← testedCases rest
    match case.test with
    | none => return behind
    | some test =>
      let test ← below.expression scope test
      let value ← Level.caseValue below scope case
      return (test, value) :: behind

/-- The cases that give back a value. -/
def returning (outcomes : List (α × Option α)) : List (α × α) :=
  outcomes.filterMap fun outcome => outcome.2.map fun value => (outcome.1, value)

/-- The selections for cases in front of what is selected when none of them matches. -/
def chain (discriminant : α) (cases : List (α × α)) (base : α) : α :=
  cases.foldr (fun case rest =>
    target.use .select [target.use .eq [discriminant, case.1], case.2, rest]) base

/-- The chain over the cases that give back a value, if there are any or the default case
gives one back. -/
def chain? (discriminant : α) (outcomes : List (α × Option α)) (default : Option α) : Option α :=
  match returning outcomes, default with
  | [], none => none
  | cases, default => some (chain target discriminant cases (default.getD target.zero))

variable {target below scope} {discriminant : α} {outcomes : List (α × Option α)}
  {default : Option α}

theorem chain?_eq_none_iff :
    chain? target discriminant outcomes default = none ↔
      (∀ outcome ∈ outcomes, outcome.2 = none) ∧ default = none := by
  have empty : returning outcomes = [] ↔ ∀ outcome ∈ outcomes, outcome.2 = none := by
    simp [returning, List.filterMap_eq_nil_iff]
  rw [← empty]
  unfold chain?
  cases returning outcomes <;> cases default <;> simp

theorem chain?_of_ne_none (returns : chain? target discriminant outcomes default ≠ none) :
    chain? target discriminant outcomes default =
      some (chain target discriminant (returning outcomes) (default.getD target.zero)) := by
  unfold chain? at returns ⊢
  generalize returning outcomes = cases at returns ⊢
  match cases, default with
  | [], none => exact absurd rfl returns
  | [], some value => rfl
  | _ :: _, _ => rfl

/-- Only the cases that give back a value count. -/
theorem chain?_congr {outcomes' : List (α × Option α)}
    (same : returning outcomes' = returning outcomes) :
    chain? target discriminant outcomes' default = chain? target discriminant outcomes default := by
  unfold chain?
  rw [same]

/-- A further case in front of a chain. -/
theorem chain?_cons (test : α) (value : Option α) :
    chain? target discriminant ((test, value) :: outcomes) default =
      match value with
      | none => chain? target discriminant outcomes default
      | some result => some (target.use .select [target.use .eq [discriminant, test], result,
          (chain? target discriminant outcomes default).getD target.zero]) := by
  cases value with
  | none => rfl
  | some result =>
    have first : returning ((test, some result) :: outcomes) =
        (test, result) :: returning outcomes := rfl
    simp only [chain?, first]
    cases returning outcomes <;> cases default <;> rfl

theorem addCases_eq_chain (cases : List SwitchCase) :
    cases.foldrM (Level.addCase target below discriminant scope) default =
      (chain? target discriminant · default) <$> testedCases below scope cases := by
  induction cases with
  | nil =>
    cases default <;> rfl
  | cons case rest ih =>
    rw [List.foldrM_cons, ih, testedCases, map_bind, bind_map_left]
    refine bind_congr fun behind => ?_
    unfold Level.addCase
    cases case.test with
    | none => simp
    | some test =>
      simp only [map_bind]
      refine bind_congr fun test => bind_congr fun value => ?_
      rw [map_pure, chain?_cons]
      cases value <;> rfl

/-- A switch is compiled by its discriminant, its default case and its tested cases. -/
theorem switch_eq_chain (discriminant : Expr) (cases : List SwitchCase) :
    Level.switch target below discriminant cases scope = (do
      let discriminant ← below.expression scope discriminant
      let default ← Level.defaultValue below scope cases
      let outcomes ← testedCases below scope cases
      return chain? target discriminant outcomes default) := by
  unfold Level.switch
  refine bind_congr fun discriminant => bind_congr fun default => ?_
  rw [addCases_eq_chain, map_eq_pure_bind]

end Chain

section Default

variable {α : Type} {target : Target α} {below : Level α} {scope : Scope α}
  {front back : List SwitchCase} {default : SwitchCase}

theorem defaultValue_eq (untested : default.test = none)
    (tested : ∀ case ∈ front, case.test ≠ none) :
    Level.defaultValue below scope (front ++ default :: back) =
      Level.caseValue below scope default := by
  have none_before : front.find? (·.test.isNone) = none := by
    simpa [List.find?_eq_none] using tested
  unfold Level.defaultValue
  rw [List.find?_append, none_before, List.find?_cons]
  simp [untested]

theorem defaultValue_of_tested {cases : List SwitchCase}
    (tested : ∀ case ∈ cases, SwitchCase.test case ≠ none) :
    Level.defaultValue below scope cases = return none := by
  have missing : cases.find? (·.test.isNone) = none := by
    simpa [List.find?_eq_none] using tested
  rw [Level.defaultValue, missing]

theorem testedCases_eq (untested : default.test = none) :
    testedCases below scope (front ++ default :: back) =
      testedCases below scope (front ++ back) := by
  induction front with
  | nil => simp [testedCases, untested]
  | cons case rest ih => simp only [List.cons_append, testedCases, ih]

/-- Where the only default case stands makes no difference. -/
theorem switch_default_moved {front' back' : List SwitchCase} (untested : default.test = none)
    (tested : ∀ case ∈ front ++ back, case.test ≠ none) (same : front' ++ back' = front ++ back)
    (discriminant : Expr) :
    Level.switch target below discriminant (front' ++ default :: back') scope =
      Level.switch target below discriminant (front ++ default :: back) scope := by
  have tested' : ∀ case ∈ front', case.test ≠ none := fun case member =>
    tested case (same ▸ List.mem_append_left back' member)
  have testedFront : ∀ case ∈ front, case.test ≠ none := fun case member =>
    tested case (List.mem_append_left back member)
  rw [switch_eq_chain, switch_eq_chain, defaultValue_eq untested tested',
    defaultValue_eq untested testedFront, testedCases_eq untested, testedCases_eq untested, same]

end Default

section Breaks

def breakStatement : Stmt := .unsupported "BreakStatement"

/-- Statements that come to a break, in their own list or at any depth of blocks, beside what
stands before the break. -/
inductive BreaksAfter : List Stmt → List Stmt → Prop
  | here (before after : List Stmt) : BreaksAfter before (before ++ breakStatement :: after)
  | inBlock (before after : List Stmt) {inner body : List Stmt} : BreaksAfter inner body →
    BreaksAfter (before ++ [.block inner]) (before ++ .block body :: after)

/-- Statements beside the same statements without a break that stands in a case of a nested
switch, at any depth of blocks and switches, and without what follows it in that case. -/
inductive LosesBreak : List Stmt → List Stmt → Prop
  | ended (before after : List Stmt) (discriminant : Expr) (front back : List SwitchCase)
    (test : Option Expr) {passed body : List Stmt} : BreaksAfter passed body →
    LosesBreak (before ++ .switch discriminant (front ++ ⟨test, body⟩ :: back) :: after)
      (before ++ .switch discriminant (front ++ ⟨test, passed⟩ :: back) :: after)
  | inCase (before after : List Stmt) (discriminant : Expr) (front back : List SwitchCase)
    (test : Option Expr) {body body' : List Stmt} : LosesBreak body body' →
    LosesBreak (before ++ .switch discriminant (front ++ ⟨test, body⟩ :: back) :: after)
      (before ++ .switch discriminant (front ++ ⟨test, body'⟩ :: back) :: after)
  | inBlock (before after : List Stmt) {body body' : List Stmt} : LosesBreak body body' →
    LosesBreak (before ++ .block body :: after) (before ++ .block body' :: after)

variable {α : Type}

/-- How a case ends that has a break behind its statements. -/
def Exit.orBroken : Exit α → Exit α
  | finished => broken
  | exit => exit

@[simp] theorem Exit.value?_orBroken (exit : Exit α) : exit.orBroken.value? = exit.value? := by
  cases exit <;> rfl

variable {target : Target α} {below : Level α} {place : Place} {tail tail' : List Stmt}

/-- What is said of the end of a list of statements holds behind any statements, when it
leaves alone what is returned and a break. -/
theorem compileStatements_append {f : Exit α → Exit α} (returned : ∀ value, f (.returned value) =
      .returned value) (broken : f .broken = .broken)
    (ends : ∀ scope, Level.compileStatements target below place scope tail =
      f <$> Level.compileStatements target below place scope tail')
    (before : List Stmt) (scope : Scope α) :
    Level.compileStatements target below place scope (before ++ tail) =
      f <$> Level.compileStatements target below place scope (before ++ tail') := by
  induction before generalizing scope with
  | nil => exact ends scope
  | cons first rest ih =>
    simp only [List.cons_append]
    cases first with
    | function func => rfl
    | declare declarators =>
      simp only [Level.compileStatements, map_bind]
      exact bind_congr fun later => ih later
    | ret value =>
      cases value with
      | none => exact ih scope
      | some value => simp [Level.compileStatements, returned]
    | switch discriminant cases =>
      simp only [Level.compileStatements, map_bind]
      refine bind_congr fun result => ?_
      cases result with
      | none => exact ih scope
      | some value => simp [returned]
    | block body =>
      simp only [Level.compileStatements, map_bind]
      refine bind_congr fun exit => ?_
      cases exit with
      | returned value => simp [returned]
      | broken => simp [broken]
      | finished => exact ih scope
    | empty => exact ih scope
    | unsupported kind =>
      unfold Level.compileStatements
      cases place with
      | body => rfl
      | case =>
        by_cases ended : (kind == "BreakStatement") = true
        · simp [ended, broken]
        · simp only [ended]
          exact ih scope

/-- A break gives the case the end that the statements before it have, or ends it. -/
theorem BreaksAfter.statements {passed body : List Stmt} (breaks : BreaksAfter passed body)
    (settings : Settings) (declared : Declarations) (depth : Nat) (scope : Scope α) :
    (Level.ofDepth target settings declared depth).statements .case scope body =
      Exit.orBroken <$>
        (Level.ofDepth target settings declared depth).statements .case scope passed := by
  induction breaks generalizing depth scope with
  | here before after =>
    cases depth with
    | zero => rfl
    | succ depth =>
      have ends (scope : Scope α) :
          Level.compileStatements target (Level.ofDepth target settings declared depth) .case scope
              (breakStatement :: after) =
            Exit.orBroken <$> Level.compileStatements target
              (Level.ofDepth target settings declared depth) .case scope [] := rfl
      have whole := compileStatements_append (fun _ => rfl) rfl ends before scope
      rwa [List.append_nil] at whole
  | @inBlock before after inner body _ ih =>
    cases depth with
    | zero => rfl
    | succ depth =>
      refine compileStatements_append (fun _ => rfl) rfl (fun scope => ?_) before scope
      simp only [Level.compileStatements, ih depth scope, bind_map_left, map_bind]
      refine bind_congr fun exit => ?_
      cases exit <;> rfl

theorem BreaksAfter.caseValue {passed body : List Stmt} (breaks : BreaksAfter passed body)
    (settings : Settings) (declared : Declarations) (depth : Nat) (scope : Scope α)
    (test : Option Expr) :
    Level.caseValue (Level.ofDepth target settings declared depth) scope ⟨test, body⟩ =
      Level.caseValue (Level.ofDepth target settings declared depth) scope ⟨test, passed⟩ := by
  unfold Level.caseValue
  rw [breaks.statements, Functor.map_map]
  simp only [Exit.value?_orBroken]

theorem testedCases_congr {scope : Scope α} {test : Option Expr} {body body' : List Stmt}
    (same : Level.caseValue below scope ⟨test, body⟩ = Level.caseValue below scope ⟨test, body'⟩)
    (front back : List SwitchCase) :
    testedCases below scope (front ++ ⟨test, body⟩ :: back) =
      testedCases below scope (front ++ ⟨test, body'⟩ :: back) := by
  induction front with
  | nil => simp only [List.nil_append, testedCases, same]
  | cons case rest ih => simp only [List.cons_append, testedCases, ih]

/-- A case may stand for another one with the same test and the same value. -/
theorem switch_case_congr {scope : Scope α} {test : Option Expr} {body body' : List Stmt}
    (same : Level.caseValue below scope ⟨test, body⟩ = Level.caseValue below scope ⟨test, body'⟩)
    (discriminant : Expr) (front back : List SwitchCase) :
    Level.switch target below discriminant (front ++ ⟨test, body⟩ :: back) scope =
      Level.switch target below discriminant (front ++ ⟨test, body'⟩ :: back) scope := by
  have default : Level.defaultValue below scope (front ++ ⟨test, body⟩ :: back) =
      Level.defaultValue below scope (front ++ ⟨test, body'⟩ :: back) := by
    unfold Level.defaultValue
    rw [List.find?_append, List.find?_append, List.find?_cons, List.find?_cons]
    cases front.find? (·.test.isNone) with
    | some first => rfl
    | none => cases test <;> simp [same]
  rw [switch_eq_chain, switch_eq_chain, default, testedCases_congr same]

theorem compileStatements_congr
    (ends : ∀ scope, Level.compileStatements target below place scope tail =
      Level.compileStatements target below place scope tail') (before : List Stmt)
    (scope : Scope α) :
    Level.compileStatements target below place scope (before ++ tail) =
      Level.compileStatements target below place scope (before ++ tail') := by
  have same := compileStatements_append (f := id) (fun _ => rfl) rfl
    (fun scope => (ends scope).trans (id_map _).symm) before scope
  rwa [id_map] at same

/-- A switch may stand for another one that is compiled alike in every scope. -/
theorem compileStatements_switch_congr {discriminant : Expr} {cases cases' : List SwitchCase}
    (same : ∀ scope, Level.switch target below discriminant cases scope =
      Level.switch target below discriminant cases' scope) (before after : List Stmt)
    (scope : Scope α) :
    Level.compileStatements target below place scope
        (before ++ .switch discriminant cases :: after) =
      Level.compileStatements target below place scope
        (before ++ .switch discriminant cases' :: after) := by
  refine compileStatements_congr (fun scope => ?_) before scope
  simp only [Level.compileStatements, same scope]

/-- A break in a case of a nested switch ends that case alone, so nothing else is compiled
otherwise when the case stops before it. -/
theorem LosesBreak.statements {body body' : List Stmt} (loses : LosesBreak body body')
    (settings : Settings) (declared : Declarations) (depth : Nat) (place : Place)
    (scope : Scope α) :
    (Level.ofDepth target settings declared depth).statements place scope body =
      (Level.ofDepth target settings declared depth).statements place scope body' := by
  induction loses generalizing depth place scope with
  | ended before after discriminant front back test breaks =>
    cases depth with
    | zero => rfl
    | succ depth =>
      refine compileStatements_switch_congr (fun scope => ?_) before after scope
      exact switch_case_congr (breaks.caseValue settings declared depth scope test) _ front back
  | inCase before after discriminant front back test _ ih =>
    cases depth with
    | zero => rfl
    | succ depth =>
      refine compileStatements_switch_congr (fun scope => ?_) before after scope
      exact switch_case_congr (congrArg (Exit.value? <$> ·) (ih depth .case scope)) _ front back
  | inBlock before after _ ih =>
    cases depth with
    | zero => rfl
    | succ depth =>
      refine compileStatements_congr (fun scope => ?_) before scope
      simp only [Level.compileStatements, ih depth place scope]

end Breaks

/-- Whatever a switch comes to: no value exactly if no tested case and no first default case
gives one back, and else the chain of selections over the tested cases that do, in source
order, with the value of the first default case or zero behind them. The first default case is
the one without a test that only cases with a test stand before. A break ends its case
where it stands, from any depth of blocks, and a break of a nested switch nothing else. A
default case that is the only one may stand anywhere. -/
theorem switch_is_chain_of_cases {α : Type} (target : Target α) :
    (∀ (below : Level α) scope discriminant cases kept kept' result,
      (Level.switch target below discriminant cases scope).run kept = .ok (result, kept') →
      ∃ d default outcomes kept₁ kept₂,
        (below.expression scope discriminant).run kept = .ok (d, kept₁) ∧
        (Level.defaultValue below scope cases).run kept₁ = .ok (default, kept₂) ∧
        (∀ front clause back, cases = front ++ clause :: back → clause.test = none →
          (∀ case ∈ front, SwitchCase.test case ≠ none) →
          (Level.caseValue below scope clause).run kept₁ = .ok (default, kept₂)) ∧
        ((∀ case ∈ cases, SwitchCase.test case ≠ none) → default = none ∧ kept₂ = kept₁) ∧
        (testedCases below scope cases).run kept₂ = .ok (outcomes, kept') ∧
        (result = none ↔ (∀ outcome ∈ outcomes, outcome.2 = none) ∧ default = none) ∧
        (result ≠ none →
          result = some (chain target d (returning outcomes) (default.getD target.zero)))) ∧
    (∀ settings declared depth scope passed body, BreaksAfter passed body →
      (Level.ofDepth target settings declared depth).statements .case scope body =
        Exit.orBroken <$>
          (Level.ofDepth target settings declared depth).statements .case scope passed ∧
      ∀ test, Level.caseValue (Level.ofDepth target settings declared depth) scope ⟨test, body⟩ =
        Level.caseValue (Level.ofDepth target settings declared depth) scope ⟨test, passed⟩) ∧
    (∀ settings declared depth place scope body body', LosesBreak body body' →
      (Level.ofDepth target settings declared depth).statements place scope body =
        (Level.ofDepth target settings declared depth).statements place scope body') ∧
    (∀ (below : Level α) scope discriminant front back front' back' (default : SwitchCase),
      default.test = none → (∀ case ∈ front ++ back, SwitchCase.test case ≠ none) →
      front' ++ back' = front ++ back →
      Level.switch target below discriminant (front' ++ default :: back') scope =
        Level.switch target below discriminant (front ++ default :: back) scope) := by
  refine ⟨?_, ?_, ?_, ?_⟩
  · intro below scope discriminant cases kept kept' result success
    rw [switch_eq_chain] at success
    obtain ⟨d, kept₁, compiled, success⟩ := run_bind_inv success
    obtain ⟨default, kept₂, given, success⟩ := run_bind_inv success
    obtain ⟨outcomes, _, tested, success⟩ := run_bind_inv success
    cases success
    refine ⟨d, default, outcomes, kept₁, kept₂, compiled, given, ?_, ?_, tested,
      chain?_eq_none_iff, chain?_of_ne_none⟩
    · rintro front clause back rfl untested others
      rwa [defaultValue_eq untested others] at given
    · intro others
      rw [defaultValue_of_tested others] at given
      cases given
      exact ⟨rfl, rfl⟩
  · intro settings declared depth scope passed body breaks
    exact ⟨breaks.statements settings declared depth scope,
      breaks.caseValue settings declared depth scope⟩
  · intro settings declared depth place scope body body' loses
    exact loses.statements settings declared depth place scope
  · intro below scope discriminant front back front' back' default untested tested same
    exact switch_default_moved untested tested same discriminant

section Sample

def resultOf (x : String) : Stmt := .ret (some (.identifier x))

/-- A case that a break in a block ends before it returns. -/
def brokenCase : SwitchCase := ⟨some (.identifier "a"), [.block [breakStatement], resultOf "late"]⟩

/-- A case that goes on behind a nested switch with a break in it. -/
def nestedCase : SwitchCase := ⟨some (.identifier "c"), [.switch (.identifier "n") [
  ⟨some (.identifier "a"), [breakStatement, resultOf "late"]⟩], resultOf "third"]⟩

def secondCase : SwitchCase := ⟨some (.identifier "b"), [resultOf "second"]⟩

def otherCase : SwitchCase := ⟨none, [resultOf "other"]⟩

def brokenLevel : Level Code := Level.ofDepth Code.target {} ⟨⟨[]⟩, []⟩ 4

/-- The switch of a name over cases, compiled with no functions kept. -/
def brokenSwitch (cases : List SwitchCase) : Except Error (Option Code × Kept Code) :=
  (Level.switch Code.target brokenLevel (.identifier "n") cases {}).run {}

theorem brokenSwitch_chain :
    brokenSwitch [brokenCase, otherCase, secondCase, nestedCase] =
      .ok (some (chain Code.target (.name "n") [(.name "b", .name "second"),
        (.name "c", .name "third")] (.name "other")), {}) ∧
    brokenSwitch [brokenCase, secondCase, nestedCase, otherCase] =
      brokenSwitch [brokenCase, otherCase, secondCase, nestedCase] ∧
    Level.caseValue brokenLevel {} brokenCase =
      Level.caseValue brokenLevel {} ⟨some (.identifier "a"), [.block []]⟩ ∧
    brokenLevel.statements .case {} nestedCase.consequent = brokenLevel.statements .case {}
      [.switch (.identifier "n") [⟨some (.identifier "a"), []⟩], resultOf "third"] := by
  obtain ⟨chained, ended, nested, moved⟩ := switch_is_chain_of_cases Code.target
  refine ⟨?_, ?_, ?_, ?_⟩
  · obtain ⟨found, success⟩ : ∃ found, brokenSwitch [brokenCase, otherCase, secondCase,
        nestedCase] = .ok (some found, {}) := ⟨_, rfl⟩
    obtain ⟨d, default, outcomes, kept₁, kept₂, compiled, -, given, -, tested, _, returns⟩ :=
      chained _ _ _ _ _ _ _ success
    have first : Except.ok (Code.name "n", {}) = .ok (d, kept₁) := compiled
    cases first
    have second : Except.ok (some (Code.name "other"), {}) = .ok (default, kept₂) :=
      given [brokenCase] otherCase [secondCase, nestedCase] rfl rfl (by simp [brokenCase])
    cases second
    have third : Except.ok ([(Code.name "a", none), (.name "b", some (.name "second")),
      (.name "c", some (.name "third"))], {}) = .ok (outcomes, ({} : Kept Code)) := tested
    cases third
    rw [success, returns (by simp)]
    rfl
  · refine congrArg (·.run {}) (moved brokenLevel {} (.identifier "n") [brokenCase]
      [secondCase, nestedCase] [brokenCase, secondCase, nestedCase] [] otherCase rfl ?_ rfl)
    simp [brokenCase, secondCase, nestedCase]
  · exact (ended {} _ 4 {} _ _ (.inBlock [] [resultOf "late"] (.here [] []))).2 _
  · exact nested {} _ 4 .case {} _ _ (.ended [] [resultOf "third"] _ [] [] _ (.here [] _))

end Sample

end ChurchScript.Church
