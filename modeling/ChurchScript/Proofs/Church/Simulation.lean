import ChurchScript.Proofs.Church.Lockstep

/-!
# Two runs of the compiler side by side

The compiler makes the same decisions whatever its target, its limit of nesting
and the scripts around what it compiles. A `Simulation` collects what two runs
must have in common for that.
-/
namespace ChurchScript.Church

open Script

variable {α β : Type}

/-- What two runs of the compiler have in common: how their values are related below
given binders, which names can be looked up while given functions are expanded, which
errors both give, and which errors of the first run are excused. -/
structure Simulation (left : Target α) (right : Target β) (declared declared' : Declarations) where
  value : List String → α → β → Prop
  names : List String → String → Prop
  params : String → Prop
  shared : Error → Prop
  excused : Error → Prop
  name_value {active bound : List String} {x : String} : names active x →
    declared.table.find? x = none → value bound (left.name x) (right.name x)
  combinator_value (bound : List String) (c : Combinator) :
    value bound (left.combinator c) (right.combinator c)
  numeral_value (bound : List String) (n : Nat) : value bound (left.numeral n) (right.numeral n)
  apply_value {bound : List String} {f : α} {g : β} {as : List α} {bs : List β} : value bound f g →
    List.Forall₂ (value bound) as bs → value bound (left.apply f as) (right.apply g bs)
  function_value {bound ps : List String} {a : α} {b : β} : (∀ x ∈ ps, params x) →
    value (ps.reverse ++ bound) a b → value bound (left.function ps a) (right.function ps b)
  closed_value {a : α} {b : β} : value [] a b → ∀ bound, value bound a b
  enter_related {bound ps : List String} {s : Scope α} {s' : Scope β} : (∀ x ∈ ps, params x) →
    s.Related (value bound) s' →
    (left.enter ps s).Related (value (ps.reverse ++ bound)) (right.enter ps s')
  enter_contains (ps : List String) (s : Scope α) (y : String) :
    (left.enter ps s).contains y = (ps.contains y || s.contains y)
  find_eq {active : List String} {x : String} : names active x →
    declared.table.find? x = declared'.table.find? x
  recursive_eq {active : List String} {x : String} : names active x →
    declared.recursive.contains x = declared'.recursive.contains x
  callee_names {active : List String} {f : String} {func : Func} : names active f →
    declared.table.find? f = some func → declared.recursive.contains f = false →
    ∀ x ∈ func.references [], names (f :: active) x
  callee_params {active : List String} {f : String} {func : Func} : names active f →
    declared.table.find? f = some func → ∀ x, (.parameter, x) ∈ func.occurrences → params x
  shared_unsupported (construct : Construct) : shared (.unsupported construct)
  shared_noReturn (function : String) : shared (.noReturn function)

namespace Simulation

variable {left : Target α} {right : Target β} {declared declared' : Declarations}
  (S : Simulation left right declared declared')

section Computations

variable {A B A' B' : Type} {post : A → B → Prop} {post' : A' → B' → Prop}

inductive Outcome (post : A → B → Prop) :
    Except Error (A × Kept α) → Except Error (B × Kept β) → Prop
  | ok {a : A} {b : B} {k : Kept α} {k' : Kept β} : post a b → k.Related (S.value []) k' →
    Outcome post (.ok (a, k)) (.ok (b, k'))
  | error {e : Error} : S.shared e → Outcome post (.error e) (.error e)
  | excused {e : Error} {other : Except Error (B × Kept β)} : S.excused e →
    Outcome post (.error e) other

/-- Started with related functions kept, the two computations end alike. -/
def Agree (post : A → B → Prop) (x : Compile α A) (y : Compile β B) : Prop :=
  ∀ k k', Scope.Related (S.value []) k k' → S.Outcome post (x.run k) (y.run k')

variable {S}

theorem agree_pure {a : A} {b : B} (results : post a b) : S.Agree post (pure a) (pure b) :=
  fun _ _ kept => .ok results kept

theorem agree_throw {e : Error} (both : S.shared e) :
    S.Agree post (throw e : Compile α A) (throw e) :=
  fun _ _ _ => .error both

theorem agree_excused {e : Error} (given : S.excused e) (y : Compile β B) :
    S.Agree post (throw e : Compile α A) y :=
  fun _ _ _ => .excused given

theorem agree_bind {x : Compile α A} {y : Compile β B} {f : A → Compile α A'}
    {g : B → Compile β B'} (first : S.Agree post x y)
    (next : ∀ a b, post a b → S.Agree post' (f a) (g b)) : S.Agree post' (x >>= f) (y >>= g) := by
  intro k k' kept
  rw [StateT.run_bind, StateT.run_bind]
  have outcome := first k k' kept
  generalize x.run k = resultX at outcome
  generalize y.run k' = resultY at outcome
  cases outcome with
  | ok results kept => exact next _ _ results _ _ kept
  | error both => exact .error both
  | excused given => exact .excused given

end Computations

/-- The two runs in lockstep. -/
abbrev lockstep : Lockstep left right where
  Around := List String
  value := S.value
  under ps bound := ps.reverse ++ bound
  params := S.params
  agree := S.Agree
  combinator_value := S.combinator_value
  numeral_value := S.numeral_value
  apply_value := S.apply_value
  function_value := S.function_value
  enter_related := S.enter_related
  enter_contains := S.enter_contains
  agree_pure := agree_pure
  agree_bind := agree_bind
  agree_unsupported construct := agree_throw (S.shared_unsupported construct)
  agree_noReturn function := agree_throw (S.shared_noReturn function)

/-- Two levels that compile alike all that fits in `depth` levels, while the given
functions are being expanded. -/
abbrev LevelsAgree (active : List String) (depth : Nat) (l : Level α) (l' : Level β) : Prop :=
  S.lockstep.LevelsAgree (S.names active) depth l l'

end Simulation
end ChurchScript.Church
