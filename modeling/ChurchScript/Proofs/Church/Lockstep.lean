import ChurchScript.Church.Compiler
import ChurchScript.Proofs.Church.Scopes
import ChurchScript.Proofs.Script.Measures

/-!
# Runs of the compiler in lockstep

Two runs of the compiler take the same steps through a script as long as they treat names
and calls alike. A `Lockstep` says what is kept alike by each step: how the values of the
two runs are related, and when two computations agree. Two levels agree when they are put
on levels that agree and the lookups of names and the calls at them agree.
-/
namespace ChurchScript.Church

open Script

variable {α β : Type}

inductive Exit.Related (R : α → β → Prop) : Exit α → Exit β → Prop
  | returned {a : α} {b : β} : R a b → Related R (.returned a) (.returned b)
  | broken : Related R .broken .broken
  | finished : Related R .finished .finished

/-- Names that a piece of syntax looks up, parameters that it has and levels that it
takes, each within bounds. -/
structure Fits (names params : String → Prop) (depth : Nat) (references : List String)
    (occurrences : List (Role × String)) (nesting : Nat) : Prop where
  references : ∀ x ∈ references, names x
  params : ∀ x, (.parameter, x) ∈ occurrences → params x
  nesting : nesting ≤ depth

namespace Fits

variable {names params : String → Prop} {depth n n' : Nat} {refs refs' : List String}
  {occs occs' : List (Role × String)}

theorem left (fits : Fits names params depth (refs ++ refs') (occs ++ occs') (max n n')) :
    Fits names params depth refs occs n where
  references x member := fits.references x (by simp [member])
  params x member := fits.params x (by simp [member])
  nesting := (Nat.max_le.mp fits.nesting).1

theorem right (fits : Fits names params depth (refs ++ refs') (occs ++ occs') (max n n')) :
    Fits names params depth refs' occs' n' where
  references x member := fits.references x (by simp [member])
  params x member := fits.params x (by simp [member])
  nesting := (Nat.max_le.mp fits.nesting).2

theorem below (fits : Fits names params (depth + 1) refs occs (n + 1)) :
    Fits names params depth refs occs n :=
  ⟨fits.references, fits.params, Nat.le_of_succ_le_succ fits.nesting⟩

end Fits

/-- What two runs of the compiler keep alike: how their values are related, given what
stands around them, and when two of their computations agree. -/
structure Lockstep (left : Target α) (right : Target β) where
  /-- What stands around a value. -/
  Around : Type
  value : Around → α → β → Prop
  /-- What stands around a value inside a function with the given parameters. -/
  under : List String → Around → Around
  params : String → Prop
  agree {A B : Type} : (A → B → Prop) → Compile α A → Compile β B → Prop
  combinator_value (around : Around) (c : Combinator) :
    value around (left.combinator c) (right.combinator c)
  numeral_value (around : Around) (n : Nat) : value around (left.numeral n) (right.numeral n)
  apply_value {around : Around} {f : α} {g : β} {as : List α} {bs : List β} : value around f g →
    List.Forall₂ (value around) as bs → value around (left.apply f as) (right.apply g bs)
  function_value {around : Around} {ps : List String} {a : α} {b : β} : (∀ x ∈ ps, params x) →
    value (under ps around) a b → value around (left.function ps a) (right.function ps b)
  enter_related {around : Around} {ps : List String} {s : Scope α} {s' : Scope β} :
    (∀ x ∈ ps, params x) → s.Related (value around) s' →
    (left.enter ps s).Related (value (under ps around)) (right.enter ps s')
  enter_contains (ps : List String) (s : Scope α) (y : String) :
    (left.enter ps s).contains y = (ps.contains y || s.contains y)
  agree_pure {A B : Type} {post : A → B → Prop} {a : A} {b : B} : post a b →
    agree post (pure a) (pure b)
  agree_bind {A B A' B' : Type} {post : A → B → Prop} {post' : A' → B' → Prop} {x : Compile α A}
    {y : Compile β B} {f : A → Compile α A'} {g : B → Compile β B'} : agree post x y →
    (∀ a b, post a b → agree post' (f a) (g b)) → agree post' (x >>= f) (y >>= g)
  agree_unsupported {A B : Type} {post : A → B → Prop} (construct : Construct) :
    agree post (throw (.unsupported construct)) (throw (.unsupported construct))
  agree_noReturn {A B : Type} {post : A → B → Prop} (function : String) :
    agree post (throw (.noReturn function)) (throw (.noReturn function))

namespace Lockstep

variable {left : Target α} {right : Target β} (L : Lockstep left right)

section Computations

variable {L} {A B A' B' : Type} {post : A → B → Prop} {post' : A' → B' → Prop}

theorem agree_imp {weaker : A → B → Prop} {x : Compile α A} {y : Compile β B}
    (agree : L.agree post x y) (weaken : ∀ a b, post a b → weaker a b) : L.agree weaker x y := by
  rw [← bind_pure x, ← bind_pure y]
  exact L.agree_bind agree fun a b results => L.agree_pure (weaken a b results)

theorem agree_map {x : Compile α A} {y : Compile β B} {f : A → A'} {g : B → B'}
    (first : L.agree post x y) (next : ∀ a b, post a b → post' (f a) (g b)) :
    L.agree post' (f <$> x) (g <$> y) := by
  rw [map_eq_pure_bind, map_eq_pure_bind]
  exact L.agree_bind first fun a b results => L.agree_pure (next a b results)

theorem agree_mapM {ι : Type} {f : ι → Compile α A} {g : ι → Compile β B} (items : List ι)
    (each : ∀ i ∈ items, L.agree post (f i) (g i)) :
    L.agree (List.Forall₂ post) (items.mapM f) (items.mapM g) := by
  induction items with
  | nil => exact L.agree_pure .nil
  | cons i rest ih =>
    rw [List.mapM_cons, List.mapM_cons]
    refine L.agree_bind (each i (by simp)) fun a b first => ?_
    refine L.agree_bind (ih fun j member => each j (by simp [member])) fun as bs others => ?_
    exact L.agree_pure (.cons first others)

end Computations

/-- Scopes that bind exactly the local names, to related values. -/
structure Inside (around : L.Around) (locals : List String) (s : Scope α) (s' : Scope β) :
    Prop where
  domain : ∀ x, s.contains x = locals.contains x
  related : s.Related (L.value around) s'

namespace Inside

variable {L} {around : L.Around} {locals locals' : List String} {s : Scope α} {s' : Scope β}

theorem congr (inside : L.Inside around locals s s')
    (same : ∀ x, locals.contains x = locals'.contains x) : L.Inside around locals' s s' :=
  ⟨fun x => (inside.domain x).trans (same x), inside.related⟩

theorem bind (inside : L.Inside around locals s s') (x : String) {a : α} {b : β}
    (values : L.value around a b) : L.Inside around (x :: locals) (s.bind x a) (s'.bind x b) where
  domain y := by rw [Scope.contains_bind, inside.domain, List.contains_cons]
  related := inside.related.bind x values

theorem empty (around : L.Around) : L.Inside around [] {} {} :=
  ⟨fun _ => rfl, .empty⟩

theorem enter (inside : L.Inside around locals s s') {ps : List String}
    (params : ∀ x ∈ ps, L.params x) :
    L.Inside (L.under ps around) (ps ++ locals) (left.enter ps s) (right.enter ps s') where
  domain x := by rw [L.enter_contains, inside.domain, List.contains_append]
  related := L.enter_related params inside.related

theorem arguments (ps : List String) {as : List α} {bs : List β}
    (values : List.Forall₂ (L.value around) as bs) :
    L.Inside around (ps ++ []) (Scope.bindArguments {} left.zero ps as)
      (Scope.bindArguments {} right.zero ps bs) where
  domain x := by rw [Scope.contains_bindArguments, List.contains_append]; rfl
  related := Scope.Related.empty.bindArguments (L.numeral_value around 0) ps values

end Inside

/-- Two levels that compile alike all that fits in `depth` levels and looks up the given
names only. -/
structure LevelsAgree (names : String → Prop) (depth : Nat) (l : Level α) (l' : Level β) :
    Prop where
  expression {around : L.Around} {locals : List String} {s : Scope α} {s' : Scope β} (e : Expr) :
    L.Inside around locals s s' →
    Fits names L.params depth (e.references locals) e.occurrences e.nesting →
    L.agree (L.value around) (l.expression s e) (l'.expression s' e)
  statements {around : L.Around} {locals : List String} {s : Scope α} {s' : Scope β} (place : Place)
    (statements : List Stmt) : L.Inside around locals s s' →
    Fits names L.params depth (statementReferences locals statements)
      (statementOccurrences statements) (statementNesting statements + 1) →
    L.agree (Exit.Related (L.value around)) (l.statements place s statements)
      (l'.statements place s' statements)

variable {L} {names : String → Prop} {around : L.Around} {locals : List String} {depth : Nat}
  {s : Scope α} {s' : Scope β}

theorem LevelsAgree.mono {l : Level α} {l' : Level β} {less : Nat}
    (levels : L.LevelsAgree names depth l l') (fewer : less ≤ depth) :
    L.LevelsAgree names less l l' where
  expression e inside fits :=
    levels.expression e inside ⟨fits.references, fits.params, Nat.le_trans fits.nesting fewer⟩
  statements place statements inside fits :=
    levels.statements place statements inside
      ⟨fits.references, fits.params, Nat.le_trans fits.nesting fewer⟩

/-- Nothing fits in no levels. -/
theorem LevelsAgree.zero (l : Level α) (l' : Level β) : L.LevelsAgree names 0 l l' where
  expression e _ fits := absurd fits.nesting (Nat.not_le.mpr e.nesting_pos)
  statements _ _ _ fits := absurd fits.nesting (Nat.not_succ_le_zero _)

section Encodings

theorem use_value (c : Combinator) {as : List α} {bs : List β}
    (values : List.Forall₂ (L.value around) as bs) :
    L.value around (left.use c as) (right.use c bs) :=
  L.apply_value (L.combinator_value around c) values

theorem literal_value (value : Literal) :
    L.value around (literal left value) (literal right value) := by
  cases value with
  | number value =>
    simp only [literal]
    cases value.toNatUpTo? Term.maxNumeral with
    | some n => exact L.numeral_value around n
    | none => exact L.numeral_value around 0
  | boolean value => cases value <;> exact L.combinator_value around _
  | string value => exact L.numeral_value around 0
  | null => exact L.numeral_value around 0
  | other => exact L.numeral_value around 0

theorem binary_agree (operator : BinaryOperator) {a b : α} {a' b' : β} (first : L.value around a a')
    (second : L.value around b b') :
    L.agree (L.value around) (liftM (binary left operator a b))
      (liftM (binary right operator a' b')) := by
  have inOrder (c : Combinator) := use_value c (.cons first (.cons second .nil))
  have swapped (c : Combinator) := use_value c (.cons second (.cons first .nil))
  cases operator with
  | gt => exact L.agree_pure (swapped .lt)
  | notEq => exact L.agree_pure (use_value .not (.cons (inOrder .eq) .nil))
  | strictNotEq => exact L.agree_pure (use_value .not (.cons (inOrder .eq) .nil))
  | other token => exact L.agree_unsupported _
  | _ => exact L.agree_pure (inOrder _)

theorem logical_agree (operator : LogicalOperator) {a b : α} {a' b' : β}
    (first : L.value around a a') (second : L.value around b b') :
    L.agree (L.value around) (liftM (logical left operator a b))
      (liftM (logical right operator a' b')) := by
  cases operator with
  | other token => exact L.agree_unsupported _
  | _ => exact L.agree_pure (use_value _ (.cons first (.cons second .nil)))

theorem unary_agree (operator : UnaryOperator) {a : α} {a' : β} (values : L.value around a a') :
    L.agree (L.value around) (liftM (unary left operator a)) (liftM (unary right operator a')) := by
  cases operator with
  | not => exact L.agree_pure (use_value .not (.cons values .nil))
  | minus =>
    have zero := L.numeral_value around 0
    exact L.agree_pure (use_value .sub (.cons zero (.cons values .nil)))
  | other token => exact L.agree_unsupported _

theorem namedMember_agree (property : Expr) {a : α} {a' : β} (values : L.value around a a') :
    L.agree (L.value around) (liftM (namedMember left a property))
      (liftM (namedMember right a' property)) := by
  cases property with
  | identifier name =>
    simp only [namedMember]
    by_cases isMap : (name == "map") = true
    · rw [if_pos isMap, if_pos isMap]
      exact L.agree_pure (use_value .map (.cons values .nil))
    · rw [if_neg isMap, if_neg isMap]
      by_cases isFilter : (name == "filter") = true
      · rw [if_pos isFilter, if_pos isFilter]
        exact L.agree_pure (use_value .filter (.cons values .nil))
      · rw [if_neg isFilter, if_neg isFilter]
        exact L.agree_pure (use_value .property
          (.cons values (.cons (L.combinator_value around .identity) .nil)))
  | _ => exact L.agree_unsupported _

end Encodings

section Parameters

/-- The parameters have names unless one of them is refused for its pattern. -/
theorem paramNames_cases (func : Func) :
    paramNames func = .ok (func.params.filterMap Pattern.name?) ∨
      ∃ kind, paramNames func = .error (.unsupported (.parameterPattern kind)) := by
  obtain ⟨name, params, body⟩ := func
  simp only [paramNames]
  induction params with
  | nil => exact .inl rfl
  | cons pattern rest ih =>
    rw [List.mapM_cons]
    cases pattern with
    | unsupported kind => exact .inr ⟨kind, rfl⟩
    | identifier name =>
      obtain named | ⟨kind, refused⟩ := ih
      · left
        rw [named]
        rfl
      · right
        rw [refused]
        exact ⟨kind, rfl⟩

theorem paramNames_agree (func : Func) :
    L.agree (fun ps ps' => ps = ps' ∧ ps = func.params.filterMap Pattern.name?)
      (liftM (paramNames func)) (liftM (paramNames func)) := by
  obtain named | ⟨kind, refused⟩ := paramNames_cases func
  · rw [named]
    exact L.agree_pure ⟨rfl, rfl⟩
  · rw [refused]
    exact L.agree_unsupported _

/-- The parameters of a function that fits are allowed ones. -/
theorem params_of_fits {names : String → Prop} {func : Func} {refs : List String} {n : Nat}
    (fits : Fits names L.params depth refs func.occurrences n) :
    ∀ x ∈ func.params.filterMap Pattern.name?, L.params x := by
  intro x member
  obtain ⟨name, params, body⟩ := func
  obtain ⟨pattern, belongs, named⟩ := List.mem_filterMap.mp member
  apply fits.params
  have occurs : (Role.parameter, x) ∈ params.flatMap (Pattern.occurrences .parameter) := by
    refine List.mem_flatMap.mpr ⟨pattern, belongs, ?_⟩
    cases pattern with
    | identifier name => simpa [Pattern.name?, Pattern.occurrences, eq_comm] using named
    | unsupported kind => simp [Pattern.name?] at named
  simp [Func.occurrences, occurs]

/-- The body of a function that fits. -/
theorem body_fits {names params : String → Prop} {func : Func}
    (fits : Fits names params depth (func.references locals) func.occurrences func.nesting) :
    Fits names params depth
      (func.body.references (func.params.filterMap Pattern.name? ++ locals))
      func.body.occurrences func.body.nesting := by
  obtain ⟨name, ps, body⟩ := func
  exact ⟨fits.references, fun x member => fits.params x (by simp [Func.occurrences, member]),
    fits.nesting⟩

end Parameters

theorem functionBody_agree {l : Level α} {l' : Level β} (levels : L.LevelsAgree names depth l l')
    (func : Func) (inside : L.Inside around locals s s')
    (fits : Fits names L.params depth (func.body.references locals)
      func.body.occurrences func.body.nesting) :
    L.agree (L.value around) (Level.functionBody l func s) (Level.functionBody l' func s') := by
  unfold Level.functionBody
  cases body : func.body with
  | expression result =>
    rw [body] at fits
    exact levels.expression result inside fits
  | block statements =>
    rw [body] at fits
    refine L.agree_bind (levels.statements .body statements inside fits) fun exit exit' ends => ?_
    cases ends with
    | returned values => exact L.agree_pure values
    | broken => exact L.agree_noReturn _
    | finished => exact L.agree_noReturn _

theorem refers_to_unbound {x : String} (unbound : locals.contains x = false) :
    x ∈ (Expr.identifier x).references locals := by
  rw [Expr.references, unbound]
  simp

theorem arguments_fit {names params : String → Prop} (es : List Expr)
    (fits : Fits names params depth (expressionReferences locals es) (expressionOccurrences es)
      (expressionNesting es)) :
    ∀ e ∈ es, Fits names params depth (e.references locals) e.occurrences e.nesting := by
  induction es with
  | nil => simp
  | cons first rest ih =>
    simp only [expressionReferences, expressionOccurrences, expressionNesting] at fits
    intro e member
    rcases List.mem_cons.mp member with rfl | member
    · exact fits.left
    · exact ih fits.right e member

theorem arguments_agree {l : Level α} {l' : Level β} (levels : L.LevelsAgree names depth l l')
    (inside : L.Inside around locals s s') (arguments : List Expr)
    (fits : ∀ e ∈ arguments,
      Fits names L.params depth (e.references locals) e.occurrences e.nesting) :
    L.agree (List.Forall₂ (L.value around)) (arguments.mapM (l.expression s))
      (arguments.mapM (l'.expression s')) :=
  agree_mapM arguments fun e member => levels.expression e inside (fits e member)

/-- A call of anything but a declared function is an application. -/
theorem application_agree {l : Level α} {l' : Level β} (levels : L.LevelsAgree names depth l l')
    (inside : L.Inside around locals s s') (called : Expr) (arguments : List Expr)
    (calledFits : Fits names L.params depth (called.references locals) called.occurrences
      called.nesting)
    (fits : ∀ e ∈ arguments,
      Fits names L.params depth (e.references locals) e.occurrences e.nesting) :
    L.agree (L.value around)
      (do
        let head ← l.expression s called
        let arguments ← arguments.mapM (l.expression s)
        return left.apply head arguments)
      (do
        let head ← l'.expression s' called
        let arguments ← arguments.mapM (l'.expression s')
        return right.apply head arguments) := by
  refine L.agree_bind (levels.expression called inside calledFits) fun f g heads => ?_
  refine L.agree_bind (arguments_agree levels inside arguments fits) fun as bs values => ?_
  exact L.agree_pure (L.apply_value heads values)

section Expressions

variable {declared declared' : Declarations} {settings settings' : Settings}
  {callee : String → Level α} {callee' : String → Level β} {below : Level α} {below' : Level β}

/-- Expressions agree where their parts do, names and calls apart. -/
theorem expression_agree (levels : L.LevelsAgree names depth below below')
    (inside : L.Inside around locals s s') (e : Expr)
    (fits : Fits names L.params (depth + 1) (e.references locals) e.occurrences e.nesting)
    (identifiers : ∀ x, e = .identifier x → L.agree (L.value around)
      (Level.identifier left settings declared callee x s)
      (Level.identifier right settings' declared' callee' x s'))
    (calls : ∀ called arguments, e = .call called arguments → L.agree (L.value around)
      (Level.call left declared callee below called arguments s)
      (Level.call right declared' callee' below' called arguments s')) :
    L.agree (L.value around) (Level.compileExpression left settings declared callee below s e)
      (Level.compileExpression right settings' declared' callee' below' s' e) := by
  cases e with
  | literal value => exact L.agree_pure (literal_value value)
  | identifier x => exact identifiers x rfl
  | binary operator l r =>
    simp only [Expr.references, Expr.occurrences, Expr.nesting] at fits
    refine L.agree_bind (levels.expression l inside fits.below.left) fun a a' first => ?_
    refine L.agree_bind (levels.expression r inside fits.below.right) fun b b' second => ?_
    exact binary_agree operator first second
  | logical operator l r =>
    simp only [Expr.references, Expr.occurrences, Expr.nesting] at fits
    refine L.agree_bind (levels.expression l inside fits.below.left) fun a a' first => ?_
    refine L.agree_bind (levels.expression r inside fits.below.right) fun b b' second => ?_
    exact logical_agree operator first second
  | unary operator argument =>
    simp only [Expr.references, Expr.occurrences, Expr.nesting] at fits
    refine L.agree_bind (levels.expression argument inside fits.below) fun a a' values => ?_
    exact unary_agree operator values
  | call called arguments => exact calls called arguments rfl
  | conditional test consequent alternate =>
    simp only [Expr.references, Expr.occurrences, Expr.nesting, List.append_assoc] at fits
    have branches := fits.below.right
    refine L.agree_bind (levels.expression test inside fits.below.left) fun a a' first => ?_
    refine L.agree_bind (levels.expression consequent inside branches.left) fun b b' second => ?_
    refine L.agree_bind (levels.expression alternate inside branches.right) fun c c' third => ?_
    exact L.agree_pure (use_value .select (.cons first (.cons second (.cons third .nil))))
  | function func =>
    simp only [Expr.references, Expr.occurrences, Expr.nesting] at fits
    refine L.agree_bind (paramNames_agree func) fun ps ps' named => ?_
    obtain ⟨rfl, rfl⟩ := named
    have params := params_of_fits fits
    refine L.agree_bind (functionBody_agree levels func (inside.enter params)
      (body_fits fits.below)) fun a b values => ?_
    exact L.agree_pure (L.function_value params values)
  | member object property computed =>
    simp only [Expr.references, Expr.occurrences, Expr.nesting] at fits
    refine L.agree_bind (levels.expression object inside fits.below.left) fun a a' first => ?_
    cases computed with
    | false => exact namedMember_agree property first
    | true =>
      refine L.agree_bind (levels.expression property inside fits.below.right) fun b b' second => ?_
      exact L.agree_pure (use_value .property (.cons first (.cons second .nil)))
  | unsupported kind => exact L.agree_unsupported _

end Expressions

section Statements

variable {below : Level α} {below' : Level β}

theorem declare_agree (levels : L.LevelsAgree names depth below below')
    (inside : L.Inside around locals s s') (declarators : List Declarator)
    (fits : Fits names L.params depth (declaratorReferences locals declarators)
      (declaratorOccurrences declarators) (declaratorNesting declarators)) :
    L.agree (L.Inside around (declaredNames declarators ++ locals))
      (Level.declare below s declarators) (Level.declare below' s' declarators) := by
  induction declarators generalizing locals s s' with
  | nil => exact L.agree_pure inside
  | cons first rest ih =>
    obtain ⟨target, init⟩ := first
    cases target with
    | unsupported kind => exact L.agree_unsupported _
    | identifier x =>
      cases init with
      | none =>
        refine ih inside ⟨fits.references, fun y member => fits.params y ?_, fits.nesting⟩
        simp [declaratorOccurrences, member]
      | some init =>
        have inner : Fits names L.params depth
            (init.references locals ++ declaratorReferences (x :: locals) rest)
            (init.occurrences ++ declaratorOccurrences rest)
            (max init.nesting (declaratorNesting rest)) :=
          ⟨fits.references, fun y member => fits.params y (by
            simpa [declaratorOccurrences, Pattern.occurrences] using member), fits.nesting⟩
        refine L.agree_bind (levels.expression init inside inner.left) fun a b values => ?_
        have behind := ih (inside.bind x values) inner.right
        -- the new name stands behind those of the rest in one list and before them in the other
        refine agree_imp behind fun later later' inside' => inside'.congr fun y => ?_
        have names : declaredNames (⟨.identifier x, some init⟩ :: rest) =
            x :: declaredNames rest := rfl
        rw [names, List.contains_append, List.contains_cons, List.cons_append, List.contains_cons,
          List.contains_append, Bool.or_left_comm]

theorem caseValue_agree (levels : L.LevelsAgree names depth below below')
    (inside : L.Inside around locals s s') (case : SwitchCase)
    (fits : Fits names L.params depth (statementReferences locals case.consequent)
      (statementOccurrences case.consequent) (statementNesting case.consequent + 1)) :
    L.agree (Option.Rel (L.value around)) (Level.caseValue below s case)
      (Level.caseValue below' s' case) := by
  refine agree_map (levels.statements .case case.consequent inside fits) fun exit exit' ends => ?_
  cases ends with
  | returned values => exact .some values
  | broken => exact .none
  | finished => exact .none

/-- A case in front of related selections gives related selections. -/
theorem addCase_agree (levels : L.LevelsAgree names depth below below')
    (inside : L.Inside around locals s s') {d : α} {d' : β} (discriminants : L.value around d d')
    (case : SwitchCase)
    (testFits : ∀ test, case.test = some test →
      Fits names L.params depth (test.references locals) test.occurrences test.nesting)
    (fits : Fits names L.params depth (statementReferences locals case.consequent)
      (statementOccurrences case.consequent) (statementNesting case.consequent + 1))
    {folded : Option α} {folded' : Option β} (behind : Option.Rel (L.value around) folded folded') :
    L.agree (Option.Rel (L.value around)) (Level.addCase left below d s case folded)
      (Level.addCase right below' d' s' case folded') := by
  unfold Level.addCase
  cases tested : case.test with
  | none => exact L.agree_pure behind
  | some test =>
    refine L.agree_bind (levels.expression test inside (testFits test tested)) fun a a' tests => ?_
    refine L.agree_bind (caseValue_agree levels inside case fits) fun r r' results => ?_
    cases results with
    | none => exact L.agree_pure behind
    | some results =>
      have equal := use_value .eq (.cons discriminants (.cons tests .nil))
      have remainder : L.value around (folded.getD left.zero) (folded'.getD right.zero) := by
        cases behind with
        | some values => exact values
        | none => exact L.numeral_value around 0
      exact L.agree_pure (.some (use_value .select
        (.cons equal (.cons results (.cons remainder .nil)))))

theorem cases_fit {names params : String → Prop} (cases : List SwitchCase)
    (fits : Fits names params depth (caseReferences locals cases) (caseOccurrences cases)
      (caseNesting cases)) :
    ∀ case ∈ cases,
      (∀ test, case.test = some test →
        Fits names params depth (test.references locals) test.occurrences test.nesting) ∧
      Fits names params depth (statementReferences locals case.consequent)
        (statementOccurrences case.consequent) (statementNesting case.consequent + 1) := by
  induction cases with
  | nil => simp
  | cons first rest ih =>
    obtain ⟨test, consequent⟩ := first
    cases test with
    | none =>
      simp only [caseReferences, caseOccurrences, caseNesting] at fits
      intro case member
      rcases List.mem_cons.mp member with rfl | member
      · exact ⟨fun test same => absurd same (by simp), fits.left⟩
      · exact ih fits.right case member
    | some test =>
      simp only [caseReferences, caseOccurrences, caseNesting, List.append_assoc] at fits
      intro case member
      rcases List.mem_cons.mp member with rfl | member
      · refine ⟨fun test same => ?_, fits.right.left⟩
        cases same
        exact fits.left
      · exact ih fits.right.right case member

theorem switch_agree (levels : L.LevelsAgree names depth below below')
    (inside : L.Inside around locals s s') (discriminant : Expr) (cases : List SwitchCase)
    (fits : Fits names L.params depth (discriminant.references locals)
      discriminant.occurrences discriminant.nesting)
    (casesFit : Fits names L.params depth (caseReferences locals cases)
      (caseOccurrences cases) (caseNesting cases)) :
    L.agree (Option.Rel (L.value around)) (Level.switch left below discriminant cases s)
      (Level.switch right below' discriminant cases s') := by
  have each := cases_fit cases casesFit
  refine L.agree_bind (levels.expression discriminant inside fits) fun d d' discriminants => ?_
  have default : L.agree (Option.Rel (L.value around)) (Level.defaultValue below s cases)
      (Level.defaultValue below' s' cases) := by
    unfold Level.defaultValue
    cases found : cases.find? (·.test.isNone) with
    | none => exact L.agree_pure .none
    | some case =>
      exact caseValue_agree levels inside case (each case (List.mem_of_find?_eq_some found)).2
  refine L.agree_bind default fun base base' bases => ?_
  clear casesFit default
  induction cases with
  | nil => exact L.agree_pure bases
  | cons first rest ih =>
    rw [List.foldrM_cons, List.foldrM_cons]
    refine L.agree_bind (ih fun case member => each case (by simp [member])) fun f f' folded => ?_
    obtain ⟨testFits, consequentFits⟩ := each first (by simp)
    exact addCase_agree levels inside discriminants first testFits consequentFits folded

theorem statements_agree (levels : L.LevelsAgree names depth below below') (place : Place)
    (inside : L.Inside around locals s s') (statements : List Stmt)
    (fits : Fits names L.params depth (statementReferences locals statements)
      (statementOccurrences statements) (statementNesting statements)) :
    L.agree (Exit.Related (L.value around)) (Level.compileStatements left below place s statements)
      (Level.compileStatements right below' place s' statements) := by
  induction statements generalizing locals s s' with
  | nil => exact L.agree_pure .finished
  | cons first rest ih =>
    cases first with
    | function func => exact L.agree_unsupported _
    | declare declarators =>
      simp only [statementReferences, statementOccurrences, statementNesting] at fits
      refine L.agree_bind (declare_agree levels inside declarators fits.left) fun later later' => ?_
      intro inside'
      exact ih inside' fits.right
    | ret value =>
      cases value with
      | none => exact ih inside fits
      | some value =>
        have valueFits : Fits names L.params depth (value.references locals)
            value.occurrences value.nesting := by
          refine ⟨fits.references, fun x member => fits.params x ?_, ?_⟩
          · simp [statementOccurrences, member]
          · exact (Nat.max_le.mp fits.nesting).1
        refine L.agree_bind (levels.expression value inside valueFits) fun a b values => ?_
        exact L.agree_pure (.returned values)
    | switch discriminant cases =>
      simp only [statementReferences, statementOccurrences, statementNesting,
        List.append_assoc] at fits
      refine L.agree_bind (switch_agree levels inside discriminant cases fits.left fits.right.left)
        fun r r' results => ?_
      cases results with
      | some values => exact L.agree_pure (.returned values)
      | none => exact ih inside fits.right.right
    | block body =>
      simp only [statementReferences, statementOccurrences, statementNesting] at fits
      refine L.agree_bind (levels.statements place body inside fits.left) fun exit exit' ends => ?_
      cases ends with
      | returned values => exact L.agree_pure (.returned values)
      | broken => exact L.agree_pure .broken
      | finished => exact ih inside fits.right
    | empty => exact ih inside fits
    | unsupported kind =>
      unfold Level.compileStatements
      cases place with
      | body => exact L.agree_unsupported _
      | case =>
        by_cases ends : (kind == "BreakStatement") = true
        · simp only [ends, if_true]
          exact L.agree_pure .broken
        · simp only [ends]
          exact ih inside fits

end Statements

end Lockstep
end ChurchScript.Church
