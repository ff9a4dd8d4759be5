import ChurchScript.Proofs.Church.Reading
import ChurchScript.Proofs.Church.Values

/-!
# Compiled first-order scripts compute

A well-typed first-order script, compiled and applied to Church numerals and truth
values, reduces to what a call of its entry point gives back. Nothing in such a
script names a function without calling it, so no function is ever kept.
-/
namespace ChurchScript.Church

open Script
open Skeleton (Reduces)

section Computations

variable {A B : Type} {mid : A → Prop} {post : B → Prop}

/-- Started with no function kept, the computation fails, or it keeps none and gives a
result as described. -/
def Ensures (x : Compile Term A) (post : A → Prop) : Prop :=
  ∀ result kept, x.run {} = .ok (result, kept) → kept = {} ∧ post result

theorem ensures_pure {b : B} (holds : post b) : Ensures (pure b) post := by
  rintro _ _ ⟨⟩
  exact ⟨rfl, holds⟩

theorem ensures_throw (e : Error) : Ensures (throw e) post := by
  rintro _ _ ⟨⟩

theorem ensures_bind {x : Compile Term A} {f : A → Compile Term B} (first : Ensures x mid)
    (next : ∀ a, mid a → Ensures (f a) post) : Ensures (x >>= f) post := by
  intro result kept success
  rw [StateT.run_bind] at success
  cases outcome : x.run {} with
  | error e =>
    rw [outcome] at success
    cases success
  | ok pair =>
    rw [outcome] at success
    obtain ⟨none, holds⟩ := first pair.1 pair.2 outcome
    rw [show pair = (pair.1, {}) from Prod.ext rfl none] at success
    exact next pair.1 holds result kept success

end Computations

variable {I : Interpretation} {declared : Declarations} {signatures : Signatures}

/-- A level that compiles well-typed expressions and bodies to terms that compute what
these evaluate to. -/
structure LevelSound (I : Interpretation) (table : FunctionTable) (signatures : Signatures)
    (level : Level Term) : Prop where
  expression {types : Scope Ty} {values : Scope Value} {code : Scope Term} {e : Expr} {ty : Ty} :
    I.Locals types values code → HasType signatures types e ty →
    Ensures (level.expression code e) (I.Computes (Evaluates table values e) ty)
  statements {types : Scope Ty} {values : Scope Value} {code : Scope Term} {place : Place}
    {statements : List Stmt} {ty : Ty} : I.Locals types values code →
    ReturnsTyped signatures types statements ty →
    Ensures (level.statements place code statements) fun exit =>
      ∃ t, exit = .returned t ∧ I.Computes (Returns table values statements) ty t

section Operators

variable {table : FunctionTable} {values : Scope Value} {left right : Expr} {l r : Term}

theorem number_of_ty {v : Value} (typed : v.ty = .number) : ∃ n, v = .number n := by
  cases v with
  | number n => exact ⟨n, rfl⟩
  | boolean b => cases typed

theorem boolean_of_ty {v : Value} (typed : v.ty = .boolean) : ∃ b, v = .boolean b := by
  cases v with
  | number n => cases typed
  | boolean b => exact ⟨b, rfl⟩

/-- An operator on numbers whose combinator computes it. -/
theorem arithmetic_computes {c : Combinator} {operation : Nat → Nat → Nat} {e : Expr}
    (reduces : ∀ m n, Reduces (c.skeleton.apps [.numeral m, .numeral n]) (.numeral (operation m n)))
    (rule : ∀ m n, Evaluates table values left (.number m) →
      Evaluates table values right (.number n) → Evaluates table values e (.number (operation m n)))
    (inverse : ∀ v, Evaluates table values e v → ∃ m n, Evaluates table values left (.number m) ∧
      Evaluates table values right (.number n) ∧ v = .number (operation m n))
    (first : I.Computes (Evaluates table values left) .number l)
    (second : I.Computes (Evaluates table values right) .number r) :
    I.Computes (Evaluates table values e) .number (termTarget.use c [l, r]) := by
  obtain ⟨v, typed, means, evaluates, unique⟩ := first
  obtain ⟨w, typed', means', evaluates', unique'⟩ := second
  obtain ⟨m, rfl⟩ := number_of_ty typed
  obtain ⟨n, rfl⟩ := number_of_ty typed'
  refine ⟨.number (operation m n), rfl, Interpretation.use_means c (.cons means (.cons means' .nil))
    (reduces m n), rule m n evaluates evaluates', ?_⟩
  intro other evaluation
  obtain ⟨m', n', leftValue, rightValue, rfl⟩ := inverse other evaluation
  cases unique _ leftValue
  cases unique' _ rightValue
  rfl

theorem not_computes (first : I.Computes (Evaluates table values left) .boolean l) :
    I.Computes (Evaluates table values (.unary .not left)) .boolean (termTarget.use .not [l]) := by
  obtain ⟨v, typed, means, evaluates, unique⟩ := first
  obtain ⟨b, rfl⟩ := boolean_of_ty typed
  refine ⟨.boolean !b, rfl, Interpretation.use_means .not (.cons means .nil) (not_reduces b),
    .not evaluates, ?_⟩
  intro other evaluation
  cases evaluation with
  | not argument =>
    cases unique _ argument
    rfl

theorem and_computes (first : I.Computes (Evaluates table values left) .boolean l)
    (second : I.Computes (Evaluates table values right) .boolean r) :
    I.Computes (Evaluates table values (.logical .and left right)) .boolean
      (termTarget.use .and [l, r]) := by
  obtain ⟨v, typed, means, evaluates, unique⟩ := first
  obtain ⟨w, typed', means', evaluates', unique'⟩ := second
  obtain ⟨a, rfl⟩ := boolean_of_ty typed
  obtain ⟨b, rfl⟩ := boolean_of_ty typed'
  have next : ∀ u, Evaluates table values (if a then right else .literal (.boolean false)) u ↔
      u = .boolean (a && b) := by
    intro u
    cases a with
    | false => exact ⟨fun h => by cases h; rfl, fun h => h ▸ .boolean false⟩
    | true => exact ⟨unique' u, fun h => h ▸ evaluates'⟩
  refine ⟨.boolean (a && b), rfl, Interpretation.use_means .and (.cons means (.cons means' .nil))
    (and_reduces a b), .and evaluates ((next _).mpr rfl), ?_⟩
  intro other evaluation
  cases evaluation with
  | and test branch =>
    cases unique _ test
    exact (next other).mp branch

theorem or_computes (first : I.Computes (Evaluates table values left) .boolean l)
    (second : I.Computes (Evaluates table values right) .boolean r) :
    I.Computes (Evaluates table values (.logical .or left right)) .boolean
      (termTarget.use .or [l, r]) := by
  obtain ⟨v, typed, means, evaluates, unique⟩ := first
  obtain ⟨w, typed', means', evaluates', unique'⟩ := second
  obtain ⟨a, rfl⟩ := boolean_of_ty typed
  obtain ⟨b, rfl⟩ := boolean_of_ty typed'
  have next : ∀ u, Evaluates table values (if a then .literal (.boolean true) else right) u ↔
      u = .boolean (a || b) := by
    intro u
    cases a with
    | false => exact ⟨unique' u, fun h => h ▸ evaluates'⟩
    | true => exact ⟨fun h => by cases h; rfl, fun h => h ▸ .boolean true⟩
  refine ⟨.boolean (a || b), rfl, Interpretation.use_means .or (.cons means (.cons means' .nil))
    (or_reduces a b), .or evaluates ((next _).mpr rfl), ?_⟩
  intro other evaluation
  cases evaluation with
  | or test branch =>
    cases unique _ test
    exact (next other).mp branch

theorem conditional_computes {test yes no : Expr} {p y n : Term} {ty : Ty}
    (tested : I.Computes (Evaluates table values test) .boolean p)
    (first : I.Computes (Evaluates table values yes) ty y)
    (second : I.Computes (Evaluates table values no) ty n) :
    I.Computes (Evaluates table values (.conditional test yes no)) ty
      (termTarget.use .select [p, y, n]) := by
  obtain ⟨u, typed, means, evaluates, unique⟩ := tested
  obtain ⟨v, typedYes, meansYes, evaluatesYes, uniqueYes⟩ := first
  obtain ⟨w, typedNo, meansNo, evaluatesNo, uniqueNo⟩ := second
  obtain ⟨b, rfl⟩ := boolean_of_ty typed
  have next : ∀ u, Evaluates table values (if b then yes else no) u ↔ u = if b then v else w := by
    intro u
    cases b with
    | false => exact ⟨uniqueNo u, fun h => h ▸ evaluatesNo⟩
    | true => exact ⟨uniqueYes u, fun h => h ▸ evaluatesYes⟩
  have chosen : Reduces (Combinator.select.skeleton.apps [.boolean b, v.skeleton, w.skeleton])
      (if b then v else w).skeleton := by
    have selected := select_reduces b v.skeleton_closed w.skeleton_closed
    cases b <;> exact selected
  refine ⟨if b then v else w, ?_, Interpretation.use_means .select
    (.cons means (.cons meansYes (.cons meansNo .nil))) chosen,
    .conditional evaluates ((next _).mpr rfl), ?_⟩
  · cases b
    · exact typedNo
    · exact typedYes
  · intro other evaluation
    cases evaluation with
    | conditional test branch =>
      cases unique _ test
      exact (next other).mp branch

end Operators

section Level

variable {settings : Settings} {callee : String → Level Term} {below : Level Term}
  {types : Scope Ty} {values : Scope Value} {code : Scope Term}

theorem number_computes {table : FunctionTable} {value : Binary64} {n : Nat}
    (natural : IsNatural value n) (small : n ≤ Term.maxNumeral) :
    I.Computes (Evaluates table values (.literal (.number value))) .number
      (literal termTarget (.number value)) := by
  have encoded : literal termTarget (.number value) = Term.numeral n := by
    simp only [literal, toNatUpTo_of_isNatural natural small]
    rfl
  refine ⟨.number n, rfl, ?_, .number natural, ?_⟩
  · rw [encoded, Interpretation.Means, I.numeral]
    exact .refl
  · intro other evaluation
    cases evaluation with
    | number same => rw [isNatural_unique natural same]

theorem boolean_computes {table : FunctionTable} (b : Bool) :
    I.Computes (Evaluates table values (.literal (.boolean b))) .boolean
      (literal termTarget (.boolean b)) := by
  refine ⟨.boolean b, rfl, ?_, .boolean b, ?_⟩
  · cases b with
    | false =>
      have encoded : I.denote (literal termTarget (.boolean false)) = .boolean false :=
        I.combinator .false
      rw [Interpretation.Means, encoded]
      exact .refl
    | true =>
      have encoded : I.denote (literal termTarget (.boolean true)) = .boolean true :=
        I.combinator .true
      rw [Interpretation.Means, encoded]
      exact .refl
  · intro other evaluation
    cases evaluation
    rfl

theorem name_ensures (locals : I.Locals types values code) {x : String} {ty : Ty}
    (found : types.lookup x = some ty) :
    Ensures (Level.identifier termTarget settings declared callee x code)
      (I.Computes (Evaluates declared.table values (.identifier x)) ty) := by
  have typed := locals.types x
  have means := locals.code x
  unfold Level.identifier
  rw [found] at typed
  cases valued : values.lookup x with
  | none =>
    rw [valued] at typed
    cases typed
  | some v =>
    rw [valued] at typed means
    generalize code.lookup x = here at means ⊢
    cases typed with
    | some typed =>
      cases means with
      | some means =>
        refine ensures_pure ⟨v, typed, means, .name valued, ?_⟩
        intro other evaluation
        cases evaluation with
        | name same => exact Option.some.inj (same.symm.trans valued)

/-- Arguments are compiled to terms that compute them one by one. -/
theorem arguments_ensure (sound : LevelSound I declared.table signatures below)
    (locals : I.Locals types values code) {arguments : List Expr} {tys : List Ty}
    (typed : List.Forall₂ (HasType signatures types) arguments tys) :
    Ensures (arguments.mapM (below.expression code)) fun terms =>
      ∃ vs, List.Forall₂ (fun v ty => Value.ty v = ty) vs tys ∧ List.Forall₂ I.Means terms vs ∧
        EvaluatesAll declared.table values arguments vs ∧
        ∀ others, EvaluatesAll declared.table values arguments others → others = vs := by
  induction typed with
  | nil => exact ensures_pure ⟨[], .nil, .nil, .nil, fun others h => by cases h; rfl⟩
  | cons first _ ih =>
    rw [List.mapM_cons]
    refine ensures_bind (sound.expression locals first) fun t computes => ?_
    refine ensures_bind ih fun ts others => ?_
    obtain ⟨v, typed, means, evaluates, unique⟩ := computes
    obtain ⟨vs, typeds, meanings, evaluations, uniques⟩ := others
    refine ensures_pure ⟨v :: vs, .cons typed typeds, .cons means meanings,
      .cons evaluates evaluations, fun others evaluation => ?_⟩
    cases evaluation with
    | cons head tail => rw [unique _ head, uniques _ tail]

theorem paramNames_identifiers (name : Option String) (params : List String) (body : Body) :
    paramNames ⟨name, params.map .identifier, body⟩ = .ok params := by
  unfold paramNames
  induction params with
  | nil => rfl
  | cons x rest ih =>
    simp only [List.map_cons, List.mapM_cons]
    simp only at ih
    rw [ih]
    rfl

theorem paramNames_ensures (name : Option String) (params : List String) (body : Body) :
    Ensures (liftM (paramNames ⟨name, params.map .identifier, body⟩)) fun names =>
      names = params := by
  rw [paramNames_identifiers]
  exact ensures_pure rfl

/-- The body of a declared function, in a scope of compiled arguments, computes what a
call of the function gives back. -/
theorem functionBody_ensures {level : Level Term}
    (sound : LevelSound I declared.table signatures level) {f : String} {name : Option String}
    {params : List String} {statements : List Stmt} {tys : List Ty} {ty : Ty} {vs : List Value}
    (found : declared.table.find? f = some ⟨name, params.map .identifier, .block statements⟩)
    (arity : params.length = vs.length)
    (typed : ReturnsTyped signatures (argumentScope params tys) statements ty)
    (locals : I.Locals (argumentScope params tys) (argumentScope params vs) code) :
    Ensures (Level.functionBody level ⟨name, params.map .identifier, .block statements⟩ code)
      (I.Computes (Calls declared.table f vs) ty) := by
  unfold Level.functionBody
  refine ensures_bind (sound.statements locals typed) fun exit returned => ?_
  obtain ⟨t, rfl, v, typedValue, means, returns, unique⟩ := returned
  refine ensures_pure ⟨v, typedValue, means, .intro found arity returns, ?_⟩
  intro other calls
  cases calls with
  | intro found' _ returns' =>
    rw [found, Option.some.injEq, Func.mk.injEq, Body.block.injEq] at found'
    obtain ⟨_, sameParams, rfl⟩ := found'
    have injective : Function.Injective Pattern.identifier := fun _ _ => Pattern.identifier.inj
    rw [← injective.list_map sameParams] at returns'
    exact unique other returns'

theorem refuseRecursive_ensures (f : String) :
    Ensures (Level.refuseRecursive (α := Term) declared f) fun _ => True := by
  unfold Level.refuseRecursive
  split
  · exact ensures_throw _
  · exact ensures_pure trivial

theorem inlineCall_ensures (sound : LevelSound I declared.table signatures below)
    (callees : ∀ f, LevelSound I declared.table signatures (callee f))
    (locals : I.Locals types values code) {f : String} {func : Func} {arguments : List Expr}
    {tys : List Ty} {ty : Ty} (unbound : values.contains f = false)
    (found : declared.table.find? f = some func)
    (functionTyped : FunctionTyped signatures func tys ty)
    (typed : List.Forall₂ (HasType signatures types) arguments tys) :
    Ensures (Level.inlineCall termTarget declared callee below f func arguments code)
      (I.Computes (Evaluates declared.table values (.call (.identifier f) arguments)) ty) := by
  obtain @⟨name, params, statements, _, _, arity, returnsTyped⟩ := functionTyped
  unfold Level.inlineCall
  refine ensures_bind (refuseRecursive_ensures f) fun _ _ => ?_
  refine ensures_bind (arguments_ensure sound locals typed) fun terms argumentsCompute => ?_
  obtain ⟨vs, typeds, meanings, evaluations, uniques⟩ := argumentsCompute
  have sameLength : params.length = vs.length := arity.trans typeds.length_eq.symm
  have given : params.length = terms.length := sameLength.trans meanings.length_eq.symm
  have inside : I.Locals (argumentScope params tys) (argumentScope params vs)
      (argumentScope params terms) :=
    ⟨argumentScope_related params typeds, argumentScope_related params meanings⟩
  have body := functionBody_ensures (callees f) found sameLength returnsTyped inside
  refine ensures_bind (paramNames_ensures name params _) fun names same => ?_
  rw [same, bindArguments_eq termTarget.zero given]
  intro t kept success
  obtain ⟨none, v, typedValue, means, calls, unique⟩ := body t kept success
  refine ⟨none, v, typedValue, means, .call unbound evaluations calls, ?_⟩
  intro other evaluation
  cases evaluation with
  | call _ evaluations' calls' =>
    rw [uniques _ evaluations'] at calls'
    exact unique other calls'

theorem call_ensures (hold : signatures.Hold declared.table)
    (sound : LevelSound I declared.table signatures below)
    (callees : ∀ f, LevelSound I declared.table signatures (callee f))
    (locals : I.Locals types values code) {f : String} {arguments : List Expr} {tys : List Ty}
    {ty : Ty} (visible : types.contains f = false) (signature : signatures f tys ty)
    (typed : List.Forall₂ (HasType signatures types) arguments tys) :
    Ensures (Level.call termTarget declared callee below (.identifier f) arguments code)
      (I.Computes (Evaluates declared.table values (.call (.identifier f) arguments)) ty) := by
  obtain ⟨func, found, functionTyped⟩ := hold f tys ty signature
  have unbound : values.contains f = false := (locals.types.contains_eq f).trans visible
  have notInCode : code.contains f = false := (locals.code.contains_eq f).trans unbound
  have inlined : Level.inlined? declared (.identifier f) code {} = some (f, func) := by
    have none : (code.contains f || ({} : Kept Term).contains f) = false := by
      rw [notInCode]
      rfl
    simp only [Level.inlined?, none, found, Bool.false_eq_true, if_false, Option.map_some]
  intro t kept success
  refine inlineCall_ensures sound callees locals unbound found functionTyped typed t kept ?_
  unfold Level.call at success
  rw [StateT.run_bind] at success
  simpa [inlined] using success

theorem expression_ensures (hold : signatures.Hold declared.table)
    (sound : LevelSound I declared.table signatures below)
    (callees : ∀ f, LevelSound I declared.table signatures (callee f))
    (locals : I.Locals types values code) {e : Expr} {ty : Ty}
    (typed : HasType signatures types e ty) :
    Ensures (Level.compileExpression termTarget settings declared callee below code e)
      (I.Computes (Evaluates declared.table values e) ty) := by
  cases typed with
  | number natural small => exact ensures_pure (number_computes natural small)
  | boolean b => exact ensures_pure (boolean_computes b)
  | name found => exact name_ensures locals found
  | add first second =>
    refine ensures_bind (sound.expression locals first) fun l left => ?_
    refine ensures_bind (sound.expression locals second) fun r right => ?_
    refine ensures_pure (arithmetic_computes add_reduces (fun _ _ => .add) ?_ left right)
    intro v evaluation
    cases evaluation with
    | add leftValue rightValue => exact ⟨_, _, leftValue, rightValue, rfl⟩
  | mul first second =>
    refine ensures_bind (sound.expression locals first) fun l left => ?_
    refine ensures_bind (sound.expression locals second) fun r right => ?_
    refine ensures_pure (arithmetic_computes mul_reduces (fun _ _ => .mul) ?_ left right)
    intro v evaluation
    cases evaluation with
    | mul leftValue rightValue => exact ⟨_, _, leftValue, rightValue, rfl⟩
  | not first =>
    refine ensures_bind (sound.expression locals first) fun l argument => ?_
    exact ensures_pure (not_computes argument)
  | and first second =>
    refine ensures_bind (sound.expression locals first) fun l left => ?_
    refine ensures_bind (sound.expression locals second) fun r right => ?_
    exact ensures_pure (and_computes left right)
  | or first second =>
    refine ensures_bind (sound.expression locals first) fun l left => ?_
    refine ensures_bind (sound.expression locals second) fun r right => ?_
    exact ensures_pure (or_computes left right)
  | conditional test yes no =>
    refine ensures_bind (sound.expression locals test) fun p tested => ?_
    refine ensures_bind (sound.expression locals yes) fun y first => ?_
    refine ensures_bind (sound.expression locals no) fun n second => ?_
    exact ensures_pure (conditional_computes tested first second)
  | call visible signature arguments =>
    exact call_ensures hold sound callees locals visible signature arguments

/-- After declarations, the local names have their values. -/
theorem declare_ensures (sound : LevelSound I declared.table signatures below)
    {after : Scope Ty} {declarators : List Declarator}
    (typed : DeclaresTyped signatures types declarators after)
    (locals : I.Locals types values code) :
    Ensures (Level.declare below code declarators) fun code' =>
      ∃ values', I.Locals after values' code' ∧ Declares declared.table values declarators values' ∧
        ∀ other, Declares declared.table values declarators other → other = values' := by
  induction typed generalizing values code with
  | nil =>
    refine ensures_pure ⟨values, locals, .nil, fun other declares => ?_⟩
    cases declares
    rfl
  | @cons _ _ x _ _ _ initTyped _ ih =>
    refine ensures_bind (sound.expression locals initTyped) fun t computes => ?_
    obtain ⟨v, typedValue, means, evaluates, unique⟩ := computes
    intro code' kept success
    obtain ⟨none, values', locals', declares, uniques⟩ :=
      ih (locals.bind x typedValue means) code' kept success
    refine ⟨none, values', locals', .cons evaluates declares, fun other declares' => ?_⟩
    cases declares' with
    | cons evaluates' rest' =>
      rw [unique _ evaluates'] at rest'
      exact uniques other rest'

theorem statements_ensure (sound : LevelSound I declared.table signatures below) {place : Place}
    {statements : List Stmt} {ty : Ty} (typed : ReturnsTyped signatures types statements ty)
    (locals : I.Locals types values code) :
    Ensures (Level.compileStatements termTarget below place code statements) fun exit =>
      ∃ t, exit = .returned t ∧ I.Computes (Returns declared.table values statements) ty t := by
  induction typed generalizing values code with
  | ret resultTyped =>
    refine ensures_bind (sound.expression locals resultTyped) fun t computes => ?_
    obtain ⟨v, typedValue, means, evaluates, unique⟩ := computes
    refine ensures_pure ⟨t, rfl, v, typedValue, means, .ret evaluates, fun other returns => ?_⟩
    cases returns with
    | ret evaluates' => exact unique other evaluates'
  | declare declaresTyped _ ih =>
    refine ensures_bind (declare_ensures sound declaresTyped locals) fun code' declared => ?_
    obtain ⟨values', locals', declares, uniques⟩ := declared
    intro exit kept success
    obtain ⟨none, t, returned, v, typedValue, means, returns, unique⟩ :=
      ih locals' exit kept success
    refine ⟨none, t, returned, v, typedValue, means, .declare declares returns, ?_⟩
    intro other returns'
    cases returns' with
    | declare declares' rest' =>
      rw [uniques _ declares'] at rest'
      exact unique other rest'

end Level

/-- Every level is sound: the induction goes down the levels of nesting, and the body
of a called function is one of the levels below. -/
theorem ofDepth_sound (I : Interpretation) (settings : Settings) (declared : Declarations)
    (hold : signatures.Hold declared.table) (depth : Nat) :
    LevelSound I declared.table signatures (Level.ofDepth termTarget settings declared depth) := by
  induction depth with
  | zero => exact ⟨fun _ _ => ensures_throw _, fun _ _ => ensures_throw _⟩
  | succ depth ih =>
    exact ⟨fun locals typed => expression_ensures hold ih (fun _ => ih) locals typed,
      fun locals typed => statements_ensure ih typed locals⟩

end ChurchScript.Church
