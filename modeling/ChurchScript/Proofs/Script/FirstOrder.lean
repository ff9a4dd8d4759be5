import ChurchScript.Proofs.Church.Scopes
import ChurchScript.Proofs.Number.WholeNumbers
import ChurchScript.Script.CallGraph
import ChurchScript.Term.Numeral

/-!
# First-order scripts

The scripts over natural numbers and truth values without functions as values:
which of them are well typed, and what a call of a declared function gives back
when arguments are evaluated before the call.
-/
namespace ChurchScript

namespace Script

open Church (Scope)

inductive Ty where
  | number | boolean
  deriving DecidableEq, Repr

inductive Value where
  | number (n : Nat)
  | boolean (b : Bool)
  deriving DecidableEq, Repr

def Value.ty : Value → Ty
  | number _ => .number
  | boolean _ => .boolean

/-- A floating-point number that is the given natural number; zero has two signs. -/
def IsNatural : Binary64 → Nat → Prop
  | .finite negative units, n => units = n * Binary64.one ∧ (negative = false ∨ n = 0)
  | _, _ => False

theorem toNatUpTo_of_isNatural {value : Binary64} {n bound : Nat} (natural : IsNatural value n)
    (small : n ≤ bound) : value.toNatUpTo? bound = some n := by
  cases value with
  | nan => exact natural.elim
  | infinite negative => exact natural.elim
  | finite negative units =>
    have sign : (!negative || units == 0) = true := by
      rcases natural.2 with positive | zero
      · simp [positive]
      · simp [natural.1, zero]
    have fits : units ≤ bound * Binary64.one := by
      rw [natural.1]
      exact Nat.mul_le_mul_right _ small
    simp only [Binary64.toNatUpTo?, sign, fits, decide_true, Bool.and_self, if_true]
    rw [natural.1, Binary64.roundMagnitude_mul_one]

theorem isNatural_unique {value : Binary64} {m n : Nat} (left : IsNatural value m)
    (right : IsNatural value n) : m = n := by
  cases value with
  | nan => exact left.elim
  | infinite negative => exact left.elim
  | finite negative units =>
    exact Nat.eq_of_mul_eq_mul_right Binary64.one_pos (left.1.symm.trans right.1)

/-- The values of the parameters of a function, those of the last parameters first, so
that of several parameters with one name the last counts. -/
def argumentScope {α : Type} (params : List String) (arguments : List α) : Scope α :=
  ⟨(params.zip arguments).reverse⟩

section Arguments

variable {α β : Type}

/-- As many arguments as parameters: none is missing and none is dropped. -/
theorem bindArguments_eq (missing : α) {params : List String} {arguments : List α}
    (arity : params.length = arguments.length) :
    Scope.bindArguments {} missing params arguments = argumentScope params arguments := by
  have general (scope : Scope α) : scope.bindArguments missing params arguments =
      ⟨(params.zip arguments).reverse ++ scope.bindings⟩ := by
    induction params generalizing scope arguments with
    | nil => simp [Scope.bindArguments]
    | cons param rest ih =>
      cases arguments with
      | nil => simp at arity
      | cons first others =>
        rw [Scope.bindArguments, ih (by simpa using arity)]
        simp [Scope.bind]
  rw [general, List.append_nil, argumentScope]

/-- Related arguments give related scopes. -/
theorem argumentScope_related {R : α → β → Prop} (params : List String) {left : List α}
    {right : List β} (arguments : List.Forall₂ R left right) :
    (argumentScope params left).Related R (argumentScope params right) := by
  have general (s : Scope α) (s' : Scope β) (related : s.Related R s') :
      Scope.Related R ⟨(params.zip left).reverse ++ s.bindings⟩
        ⟨(params.zip right).reverse ++ s'.bindings⟩ := by
    induction arguments generalizing params s s' with
    | nil => simpa using related
    | cons first _ ih =>
      cases params with
      | nil => simpa using related
      | cons param rest =>
        simpa [Scope.bind] using ih rest _ _ (related.bind param first)
  simpa [argumentScope] using general {} {} .empty

/-- Of several parameters with one name, the last counts. -/
theorem lookup_argumentScope {params : List String} {arguments : List α}
    (arity : params.length = arguments.length) (x : String) :
    (argumentScope params arguments).lookup x =
      if x ∈ params then arguments.reverse[params.reverse.idxOf x]? else none := by
  have front (names : List String) (others : List α) (same : names.length = others.length) :
      (names.zip others).lookup x = if x ∈ names then others[names.idxOf x]? else none := by
    induction names generalizing others with
    | nil => rfl
    | cons y rest ih =>
      cases others with
      | nil => simp at same
      | cons a others =>
        rw [List.zip_cons_cons, List.lookup_cons, ih others (by simpa using same)]
        by_cases here : x = y
        · simp [here]
        · have there : (y == x) = false := beq_false_of_ne fun h => here h.symm
          simp [here, beq_false_of_ne here, List.idxOf_cons, there]
  have reversed : (params.zip arguments).reverse = params.reverse.zip arguments.reverse :=
    List.reverse_zipWith arity
  rw [argumentScope, Scope.lookup, reversed, front _ _ (by simpa using arity)]
  simp

end Arguments

/-- The argument and result types that declared functions are called with. -/
abbrev Signatures := String → List Ty → Ty → Prop

inductive HasType (signatures : Signatures) (locals : Scope Ty) : Expr → Ty → Prop
  | number {value : Binary64} {n : Nat} : IsNatural value n → n ≤ Term.maxNumeral →
    HasType signatures locals (.literal (.number value)) .number
  | boolean (b : Bool) : HasType signatures locals (.literal (.boolean b)) .boolean
  | name {x : String} {ty : Ty} : locals.lookup x = some ty →
    HasType signatures locals (.identifier x) ty
  | add {left right : Expr} : HasType signatures locals left .number →
    HasType signatures locals right .number →
    HasType signatures locals (.binary .add left right) .number
  | mul {left right : Expr} : HasType signatures locals left .number →
    HasType signatures locals right .number →
    HasType signatures locals (.binary .mul left right) .number
  | not {argument : Expr} : HasType signatures locals argument .boolean →
    HasType signatures locals (.unary .not argument) .boolean
  | and {left right : Expr} : HasType signatures locals left .boolean →
    HasType signatures locals right .boolean →
    HasType signatures locals (.logical .and left right) .boolean
  | or {left right : Expr} : HasType signatures locals left .boolean →
    HasType signatures locals right .boolean →
    HasType signatures locals (.logical .or left right) .boolean
  | conditional {test yes no : Expr} {ty : Ty} : HasType signatures locals test .boolean →
    HasType signatures locals yes ty → HasType signatures locals no ty →
    HasType signatures locals (.conditional test yes no) ty
  | call {f : String} {arguments : List Expr} {types : List Ty} {ty : Ty} :
    locals.contains f = false → signatures f types ty →
    List.Forall₂ (HasType signatures locals) arguments types →
    HasType signatures locals (.call (.identifier f) arguments) ty

/-- Declarations with an initial value, and the local names after them. -/
inductive DeclaresTyped (signatures : Signatures) :
    Scope Ty → List Declarator → Scope Ty → Prop
  | nil {locals : Scope Ty} : DeclaresTyped signatures locals [] locals
  | cons {locals after : Scope Ty} {x : String} {init : Expr} {ty : Ty} {rest : List Declarator} :
    HasType signatures locals init ty → DeclaresTyped signatures (locals.bind x ty) rest after →
    DeclaresTyped signatures locals (⟨.identifier x, some init⟩ :: rest) after

/-- Declarations followed by a return. -/
inductive ReturnsTyped (signatures : Signatures) : Scope Ty → List Stmt → Ty → Prop
  | ret {locals : Scope Ty} {result : Expr} {ty : Ty} : HasType signatures locals result ty →
    ReturnsTyped signatures locals [.ret (some result)] ty
  | declare {locals after : Scope Ty} {declarators : List Declarator} {rest : List Stmt} {ty : Ty} :
    DeclaresTyped signatures locals declarators after → ReturnsTyped signatures after rest ty →
    ReturnsTyped signatures locals (.declare declarators :: rest) ty

/-- A function of named parameters with the given types. -/
inductive FunctionTyped (signatures : Signatures) : Func → List Ty → Ty → Prop
  | intro {name : Option String} {params : List String} {statements : List Stmt}
    {types : List Ty} {ty : Ty} : params.length = types.length →
    ReturnsTyped signatures (argumentScope params types) statements ty →
    FunctionTyped signatures ⟨name, params.map .identifier, .block statements⟩ types ty

/-- Every function that is called is declared and has the types it is called with.
Functions that are never called need no signature. -/
def Signatures.Hold (signatures : Signatures) (table : FunctionTable) : Prop :=
  ∀ f types ty, signatures f types ty →
    ∃ func, table.find? f = some func ∧ FunctionTyped signatures func types ty

mutual

inductive Evaluates (table : FunctionTable) : Scope Value → Expr → Value → Prop
  | number {locals : Scope Value} {value : Binary64} {n : Nat} : IsNatural value n →
    Evaluates table locals (.literal (.number value)) (.number n)
  | boolean {locals : Scope Value} (b : Bool) :
    Evaluates table locals (.literal (.boolean b)) (.boolean b)
  | name {locals : Scope Value} {x : String} {v : Value} : locals.lookup x = some v →
    Evaluates table locals (.identifier x) v
  | add {locals : Scope Value} {left right : Expr} {m n : Nat} :
    Evaluates table locals left (.number m) → Evaluates table locals right (.number n) →
    Evaluates table locals (.binary .add left right) (.number (m + n))
  | mul {locals : Scope Value} {left right : Expr} {m n : Nat} :
    Evaluates table locals left (.number m) → Evaluates table locals right (.number n) →
    Evaluates table locals (.binary .mul left right) (.number (m * n))
  | not {locals : Scope Value} {argument : Expr} {b : Bool} :
    Evaluates table locals argument (.boolean b) →
    Evaluates table locals (.unary .not argument) (.boolean !b)
  | and {locals : Scope Value} {left right : Expr} {b : Bool} {v : Value} :
    Evaluates table locals left (.boolean b) →
    Evaluates table locals (if b then right else .literal (.boolean false)) v →
    Evaluates table locals (.logical .and left right) v
  | or {locals : Scope Value} {left right : Expr} {b : Bool} {v : Value} :
    Evaluates table locals left (.boolean b) →
    Evaluates table locals (if b then .literal (.boolean true) else right) v →
    Evaluates table locals (.logical .or left right) v
  | conditional {locals : Scope Value} {test yes no : Expr} {b : Bool} {v : Value} :
    Evaluates table locals test (.boolean b) →
    Evaluates table locals (if b then yes else no) v →
    Evaluates table locals (.conditional test yes no) v
  | call {locals : Scope Value} {f : String} {arguments : List Expr} {values : List Value}
    {v : Value} : locals.contains f = false → EvaluatesAll table locals arguments values →
    Calls table f values v → Evaluates table locals (.call (.identifier f) arguments) v

inductive EvaluatesAll (table : FunctionTable) : Scope Value → List Expr → List Value → Prop
  | nil {locals : Scope Value} : EvaluatesAll table locals [] []
  | cons {locals : Scope Value} {first : Expr} {rest : List Expr} {v : Value} {vs : List Value} :
    Evaluates table locals first v → EvaluatesAll table locals rest vs →
    EvaluatesAll table locals (first :: rest) (v :: vs)

/-- A call of a declared function with as many values as it has parameters. -/
inductive Calls (table : FunctionTable) : String → List Value → Value → Prop
  | intro {f : String} {name : Option String} {params : List String} {statements : List Stmt}
    {values : List Value} {v : Value} :
    table.find? f = some ⟨name, params.map .identifier, .block statements⟩ →
    params.length = values.length →
    Returns table (argumentScope params values) statements v → Calls table f values v

inductive Declares (table : FunctionTable) :
    Scope Value → List Declarator → Scope Value → Prop
  | nil {locals : Scope Value} : Declares table locals [] locals
  | cons {locals after : Scope Value} {x : String} {init : Expr} {v : Value}
    {rest : List Declarator} : Evaluates table locals init v →
    Declares table (locals.bind x v) rest after →
    Declares table locals (⟨.identifier x, some init⟩ :: rest) after

inductive Returns (table : FunctionTable) : Scope Value → List Stmt → Value → Prop
  | ret {locals : Scope Value} {result : Expr} {rest : List Stmt} {v : Value} :
    Evaluates table locals result v → Returns table locals (.ret (some result) :: rest) v
  | declare {locals after : Scope Value} {declarators : List Declarator} {rest : List Stmt}
    {v : Value} : Declares table locals declarators after → Returns table after rest v →
    Returns table locals (.declare declarators :: rest) v

end

end Script
end ChurchScript
