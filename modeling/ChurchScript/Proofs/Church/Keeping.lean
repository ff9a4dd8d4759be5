import ChurchScript.Proofs.Church.Equivalence
import ChurchScript.Proofs.Church.Exact
import ChurchScript.Proofs.Church.Inversion

/-!
# Keeping functions

A function that was named once is kept as a lambda, and a later call applies the lambda
where it would otherwise put the arguments into the body. A run that keeps functions is
compared with a run that keeps none. The invariant is that every kept lambda stands for its
function: with anything in place of its parameters, its body is equivalent to what the other
run compiles the body of the function to.
-/
namespace ChurchScript.Church

open Script
open Skeleton (Joins lift push)

/-- What the other run compiles with, at some depth. -/
abbrev plainLevel (declared : Declarations) (plain : Settings) (depth : Nat) : Level Hygienic :=
  .ofDepth Hygienic.target plain declared depth

/-- Kept code that stands for a declared function. -/
inductive StandsFor (declared : Declarations) (plain : Settings) (f : String) : Hygienic → Prop
  | intro {func : Func} {params : List String} {body : Hygienic}
      (found : declared.table.find? f = some func) (named : paramNames func = .ok params)
      (closed : body.skeleton.ClosedAt params.length)
      (inlines : ∀ depth σ s' b kept,
        (Hygienic.target.enter params {}).Related (Equivalent params.length σ) s' →
        (Level.functionBody (plainLevel declared plain depth) func s').run {} = .ok (b, kept) →
        kept = {} ∧ Joins (body.skeleton.instantiate σ) b.skeleton) :
      StandsFor declared plain f (Hygienic.target.function params body)

def KeptSound (declared : Declarations) (plain : Settings) (kept : Kept Hygienic) : Prop :=
  ∀ f code, kept.lookup f = some code → StandsFor declared plain f code

section Computations

variable {declared : Declarations} {plain : Settings} {A B A' B' : Type} {post : A → B → Prop}
  {post' : A' → B' → Prop}

/-- When a run with kept functions and a run without both succeed, the second keeps none,
the first keeps code that stands for its functions, and the results are related. -/
def Tallies (declared : Declarations) (plain : Settings) (post : A → B → Prop)
    (x : Compile Hygienic A) (y : Compile Hygienic B) : Prop :=
  ∀ k, KeptSound declared plain k → ∀ a k₁ b k', x.run k = .ok (a, k₁) → y.run {} = .ok (b, k') →
    k' = {} ∧ KeptSound declared plain k₁ ∧ post a b

theorem tallies_pure {a : A} {b : B} (results : post a b) :
    Tallies declared plain post (pure a) (pure b) := by
  rintro k sound _ _ _ _ ⟨⟩ ⟨⟩
  exact ⟨rfl, sound, results⟩

theorem tallies_throw {e : Error} {y : Compile Hygienic B} :
    Tallies declared plain post (throw e : Compile Hygienic A) y := by
  rintro k sound _ _ _ _ ⟨⟩

theorem tallies_throw_right {e : Error} {x : Compile Hygienic A} :
    Tallies declared plain post x (throw e : Compile Hygienic B) := by
  rintro k sound _ _ _ _ _ ⟨⟩

theorem tallies_bind {x : Compile Hygienic A} {y : Compile Hygienic B}
    {f : A → Compile Hygienic A'} {g : B → Compile Hygienic B'}
    (first : Tallies declared plain post x y)
    (next : ∀ a b, post a b → Tallies declared plain post' (f a) (g b)) :
    Tallies declared plain post' (x >>= f) (y >>= g) := by
  intro k sound a k₁ b k' left right
  obtain ⟨a₀, k₀, left₀, left⟩ := run_bind_inv left
  obtain ⟨b₀, k₀', right₀, right⟩ := run_bind_inv right
  obtain ⟨rfl, sound₀, results⟩ := first k sound a₀ k₀ b₀ k₀' left₀ right₀
  exact next a₀ b₀ results k₀ sound₀ a k₁ b k' left right

end Computations

/-- A run that keeps functions in lockstep with one that keeps none. What stands around a
value is the number of abstractions and what replaces their variables. -/
def keepingLockstep (declared : Declarations) (plain : Settings) :
    Lockstep Hygienic.target Hygienic.target where
  Around := Nat × (Nat → Skeleton)
  value around := Equivalent around.1 around.2
  under params around := (params.length + around.1, lift^[params.length] around.2)
  params _ := True
  agree := Tallies declared plain
  combinator_value _ c := .ofTerm c.term
  numeral_value _ n := .ofTerm (Term.numeral n)
  apply_value := Equivalent.apply
  function_value _ := Equivalent.function
  enter_related {_ ps _ _} _ related := Equivalent.enter related ps
  enter_contains := Hygienic.contains_enter
  agree_pure := tallies_pure
  agree_bind := tallies_bind
  agree_unsupported _ := tallies_throw
  agree_noReturn _ := tallies_throw

variable {declared : Declarations} {settings plain : Settings} {depth n : Nat}
  {σ : Nat → Skeleton} {s s' : Scope Hygienic} {l : Level Hygienic}

/-- A level that compiles with kept functions what levels without any compile, however many
of those there are, and that compiles the name of a kept function to what is kept. -/
structure Follows (declared : Declarations) (plain : Settings) (l : Level Hygienic) : Prop where
  levels (depth nesting : Nat) :
    (keepingLockstep declared plain).LevelsAgree (fun _ => True) nesting l
      (plainLevel declared plain depth)
  kept {s : Scope Hygienic} {f : String} {k k₁ : Kept Hygienic} {code a : Hygienic} :
    s.lookup f = none → k.lookup f = some code →
    (l.expression s (.identifier f)).run k = .ok (a, k₁) → a = code ∧ k = k₁

/-- Scopes side by side, with the names that they bind. -/
theorem keepingInside (related : s.Related (Equivalent n σ) s') :
    (keepingLockstep declared plain).Inside (n, σ) (s.bindings.map Prod.fst) s s' :=
  ⟨s.contains_names, related⟩

/-- Where no names are excluded, every piece of syntax fits that is not nested too deep. -/
theorem keepingFits (references : List String) (occurrences : List (Role × String))
    {nesting depth : Nat} (within : nesting ≤ depth) :
    Fits (fun _ => True) (keepingLockstep declared plain).params depth references occurrences
      nesting :=
  ⟨fun _ _ => trivial, fun _ _ => trivial, within⟩

/-- What the variables of a lambda stand for when nothing replaces them. -/
theorem parameters_related (params : List String) :
    (Hygienic.target.enter params {}).Related
      (Equivalent params.length (lift^[params.length] Skeleton.bound))
      (Hygienic.target.enter params {}) :=
  Equivalent.enter (Scope.Related.empty (R := Equivalent 0 Skeleton.bound)) params

namespace Follows

theorem functionBody (follows : Follows declared plain l) (func : Func)
    (related : s.Related (Equivalent n σ) s') :
    Tallies declared plain (Equivalent n σ) (Level.functionBody l func s)
      (Level.functionBody (plainLevel declared plain depth) func s') :=
  Lockstep.functionBody_agree (follows.levels depth func.body.nesting) func
    (keepingInside related) (keepingFits _ _ le_rfl)

theorem arguments (follows : Follows declared plain l) (es : List Expr)
    (related : s.Related (Equivalent n σ) s') :
    Tallies declared plain (List.Forall₂ (Equivalent n σ)) (es.mapM (l.expression s))
      (es.mapM ((plainLevel declared plain depth).expression s')) :=
  Lockstep.agree_mapM es fun e _ => (follows.levels depth e.nesting).expression e
    (keepingInside related) (keepingFits _ _ le_rfl)

theorem application (follows : Follows declared plain l) (called : Expr) (es : List Expr)
    (related : s.Related (Equivalent n σ) s') :
    Tallies declared plain (Equivalent n σ)
      (do
        let head ← l.expression s called
        let arguments ← es.mapM (l.expression s)
        return Hygienic.target.apply head arguments)
      (do
        let head ← (plainLevel declared plain depth).expression s' called
        let arguments ← es.mapM ((plainLevel declared plain depth).expression s')
        return Hygienic.target.apply head arguments) := by
  have levels := follows.levels depth (max called.nesting (expressionNesting es))
  exact Lockstep.application_agree levels (keepingInside related) called es
    (keepingFits _ _ (Nat.le_max_left _ _))
    (Lockstep.arguments_fit es (keepingFits _ _ (Nat.le_max_right _ _)))

/-- A lambda that a run keeps stands for the function it was compiled from. -/
theorem standsFor (follows : Follows declared plain l) {f : String} {func : Func}
    {params : List String} {k k₁ : Kept Hygienic} {body : Hygienic}
    (found : declared.table.find? f = some func) (named : paramNames func = .ok params)
    (sound : KeptSound declared plain k) (closed : body.skeleton.ClosedAt params.length)
    (compiled : (Level.functionBody l func (Hygienic.target.enter params {})).run k =
      .ok (body, k₁)) :
    StandsFor declared plain f (Hygienic.target.function params body) := by
  refine .intro found named closed fun depth σ s' b kept related run => ?_
  obtain ⟨none, _, values⟩ := follows.functionBody func related k sound body k₁ b kept compiled run
  exact ⟨none, values.joins⟩

/-- A function that is named, not kept by either run. -/
theorem reference (follows : Follows declared plain l) (none : plain.keepsFunctions = false)
    {f : String} {func : Func} (found : declared.table.find? f = some func) :
    Tallies declared plain (Equivalent n σ)
      (Level.reference Hygienic.target settings declared (fun _ => l) f func)
      (Level.reference Hygienic.target plain declared
        (fun _ => plainLevel declared plain depth) f func) := by
  intro k sound code k₂ code' k' left right
  obtain ⟨params, body, k₁, named, compiled, rfl, kept⟩ := reference_inv left
  obtain ⟨params', body', k₁', named', compiled', rfl, kept'⟩ := reference_inv right
  obtain rfl : params = params' := Except.ok.inj (named.symm.trans named')
  obtain ⟨rfl, sound₁, values⟩ := follows.functionBody func (parameters_related params) k sound
    body k₁ body' k₁' compiled compiled'
  refine ⟨by simpa [none] using kept', ?_, values.function.anywhere⟩
  rw [kept]
  split
  · intro y code looked
    rw [Scope.lookup_bind] at looked
    split at looked
    · cases looked
      subst y
      exact follows.standsFor found named sound values.closed compiled
    · exact sound₁ y code looked
  · exact sound₁

end Follows

/-- The name of a function that one run has kept and the other compiles. -/
theorem StandsFor.reference {f : String} {func : Func} {k' : Kept Hygienic}
    {code code' : Hygienic} (stands : StandsFor declared plain f code)
    (none : plain.keepsFunctions = false) (found : declared.table.find? f = some func)
    (right : (Level.reference Hygienic.target plain declared
      (fun _ => plainLevel declared plain depth) f func).run {} = .ok (code', k')) :
    k' = {} ∧ Equivalent n σ code code' := by
  obtain @⟨func', params, body, found', named, closed, inlines⟩ := stands
  obtain rfl : func' = func := Option.some.inj (found'.symm.trans found)
  obtain ⟨params', body', k₁', named', compiled', rfl, kept'⟩ := reference_inv right
  obtain rfl : params = params' := Except.ok.inj (named.symm.trans named')
  obtain ⟨rfl, joins⟩ := inlines _ _ _ _ _ (parameters_related params) compiled'
  have values : Equivalent params.length (lift^[params.length] Skeleton.bound) body body' :=
    ⟨closed, joins⟩
  exact ⟨by simpa [none] using kept', values.function.anywhere⟩

/-- A call of a function that one run has kept and the other inlines. -/
theorem StandsFor.call {f : String} {func : Func} {code b : Hygienic} {as bs : List Hygienic}
    {params : List String} {k' : Kept Hygienic} (stands : StandsFor declared plain f code)
    (found : declared.table.find? f = some func) (named : paramNames func = .ok params)
    (arity : as.length = params.length) (values : List.Forall₂ (Equivalent n σ) as bs)
    (right : (Level.functionBody (plainLevel declared plain depth) func
      (Scope.bindArguments {} Hygienic.target.zero params bs)).run {} = .ok (b, k')) :
    k' = {} ∧ Equivalent n σ (Hygienic.target.apply code as) b := by
  obtain @⟨func', params', body, found', named', closed, inlines⟩ := stands
  obtain rfl : func' = func := Option.some.inj (found'.symm.trans found)
  obtain rfl : params' = params := Except.ok.inj (named'.symm.trans named)
  have joined : List.Forall₂ (fun t b => Joins t b.skeleton)
      (as.map fun a => a.skeleton.instantiate σ) bs :=
    List.forall₂_map_left_iff.mpr (values.imp fun _ _ value => value.joins)
  have related := Equivalent.atArguments (Scope.Related.empty (R := Equivalent 0 σ))
    Hygienic.target.zero joined ((List.length_map _).trans arity)
  obtain ⟨none, inlined⟩ := inlines _ _ _ _ _ related right
  exact ⟨none, .applied closed values arity inlined⟩

namespace Follows

theorem identifier (follows : Follows declared plain l) (none : plain.keepsFunctions = false)
    (related : s.Related (Equivalent n σ) s') (x : String) :
    Tallies declared plain (Equivalent n σ)
      (Level.identifier Hygienic.target settings declared (fun _ => l) x s)
      (Level.identifier Hygienic.target plain declared
        (fun _ => plainLevel declared plain depth) x s') := by
  unfold Level.identifier
  have bindings := related x
  generalize s.lookup x = here at bindings ⊢
  generalize s'.lookup x = there at bindings ⊢
  cases bindings with
  | some values => exact tallies_pure values
  | none =>
    intro k sound a k₁ b k' left right
    simp only [StateT.run_bind, StateT.run_get, pure_bind, Scope.lookup_empty] at left right
    cases kept : k.lookup x with
    | some code =>
      have stands := sound x code kept
      rw [kept] at left
      cases left
      obtain ⟨func, found⟩ : ∃ func, declared.table.find? x = some func := by
        obtain ⟨found, _, _, _⟩ := stands
        exact ⟨_, found⟩
      rw [found] at right
      obtain ⟨empty, values⟩ := stands.reference none found right
      exact ⟨empty, sound, values⟩
    | none =>
      rw [kept] at left
      cases found : declared.table.find? x with
      | some func =>
        rw [found] at left right
        exact follows.reference none found k sound a k₁ b k' left right
      | none =>
        rw [found] at left right
        refine tallies_pure ?_ k sound a k₁ b k' left right
        exact ⟨trivial, .refl _⟩

theorem inlineCall (follows : Follows declared plain l) (related : s.Related (Equivalent n σ) s')
    (f : String) (func : Func) (es : List Expr) :
    Tallies declared plain (Equivalent n σ)
      (Level.inlineCall Hygienic.target declared (fun _ => l) l f func es s)
      (Level.inlineCall Hygienic.target declared (fun _ => plainLevel declared plain depth)
        (plainLevel declared plain depth) f func es s') := by
  intro k sound a k₂ b k' left right
  obtain ⟨params, as, k₁, named, compiled, left⟩ := inlineCall_inv left
  obtain ⟨params', bs, k₁', named', compiled', right⟩ := inlineCall_inv right
  obtain rfl : params = params' := Except.ok.inj (named.symm.trans named')
  obtain ⟨rfl, sound₁, values⟩ := follows.arguments es related k sound as k₁ bs k₁' compiled
    compiled'
  have bound := Scope.Related.bindArguments Scope.Related.empty
    (Equivalent.ofTerm (Term.numeral 0)) params values
  exact follows.functionBody func bound k₁ sound₁ a k₂ b k' left right

/-- A call of a kept function, which the other run inlines. -/
theorem keptCall (follows : Follows declared plain l) (related : s.Related (Equivalent n σ) s')
    {f : String} {func : Func} {es : List Expr} {k k₁ k' : Kept Hygienic} {a b code : Hygienic}
    (sound : KeptSound declared plain k) (found : declared.table.find? f = some func)
    (free : s.lookup f = none) (kept : k.lookup f = some code)
    (arity : func.params.length = es.length)
    (left : (do
      let head ← l.expression s (.identifier f)
      let arguments ← es.mapM (l.expression s)
      return Hygienic.target.apply head arguments).run k = .ok (a, k₁))
    (right : (Level.inlineCall Hygienic.target declared (fun _ => plainLevel declared plain depth)
      (plainLevel declared plain depth) f func es s').run {} = .ok (b, k')) :
    k' = {} ∧ KeptSound declared plain k₁ ∧ Equivalent n σ a b := by
  obtain ⟨head, k₀, looked, left⟩ := run_bind_inv left
  obtain ⟨rfl, rfl⟩ := follows.kept free kept looked
  obtain ⟨as, k₂, compiled, left⟩ := run_bind_inv left
  cases left
  obtain ⟨params, bs, k₁', named, compiled', right⟩ := inlineCall_inv right
  obtain ⟨rfl, sound₁, values⟩ := follows.arguments es related _ sound as k₁ bs k₁' compiled
    compiled'
  have count : as.length = params.length := by
    rw [run_mapM_length compiled, paramNames_length named, arity]
  obtain ⟨empty, applied⟩ := (sound f head kept).call found named count values right
  exact ⟨empty, sound₁, applied⟩

/-- A call that is exact where its function is kept. -/
theorem call (follows : Follows declared plain l) (related : s.Related (Equivalent n σ) s')
    {called : Expr} {es : List Expr} {k k₁ k' : Kept Hygienic} {a b : Hygienic}
    (sound : KeptSound declared plain k)
    (exactly : Level.miscalls declared s k (.call called es) = false)
    (left : (Level.call Hygienic.target declared (fun _ => l) l called es s).run k = .ok (a, k₁))
    (right : (Level.call Hygienic.target declared (fun _ => plainLevel declared plain depth)
      (plainLevel declared plain depth) called es s').run {} = .ok (b, k')) :
    k' = {} ∧ KeptSound declared plain k₁ ∧ Equivalent n σ a b := by
  unfold Level.call at left right
  simp only [StateT.run_bind, StateT.run_get, pure_bind] at left right
  cases other : Level.inlined? declared called s' {} with
  | none =>
    have choice : Level.inlined? declared called s k = none := by
      refine Option.eq_none_iff_forall_not_mem.mpr fun ⟨f, func⟩ chosen => ?_
      obtain ⟨named, free, _, found⟩ := inlined_eq_some_iff.mp chosen
      rw [related.contains_eq] at free
      have impossible : Level.inlined? declared called s' {} = some (f, func) :=
        inlined_eq_some_iff.mpr ⟨named, free, rfl, found⟩
      rw [other] at impossible
      cases impossible
    rw [choice] at left
    rw [other] at right
    exact follows.application called es related k sound a k₁ b k' left right
  | some chosen =>
    obtain ⟨f, func⟩ := chosen
    obtain ⟨rfl, free', _, found⟩ := inlined_eq_some_iff.mp other
    have free : s.contains f = false := (related.contains_eq f).trans free'
    rw [other] at right
    cases kept : k.lookup f with
    | none =>
      have fresh : k.contains f = false := by rw [Scope.contains, kept]; rfl
      rw [inlined_eq_some_iff.mpr ⟨rfl, free, fresh, found⟩] at left
      exact follows.inlineCall related f func es k sound a k₁ b k' left right
    | some code =>
      have known : k.contains f = true := by rw [Scope.contains, kept]; rfl
      have choice : Level.inlined? declared (.identifier f) s k = none := by
        simp [Level.inlined?, known]
      have arity : func.params.length = es.length := by
        simpa [Level.miscalls, free, known, found] using exactly
      rw [choice] at left
      have unbound : s.lookup f = none := by simpa [Scope.contains] using free
      exact follows.keptCall related sound found unbound kept arity left right

theorem bottom : Follows declared plain (Level.bottom settings) where
  levels _ _ := ⟨fun _ _ _ => tallies_throw, fun _ _ _ _ => tallies_throw⟩
  kept _ _ run := by cases run

/-- A strict level on a level that follows, beside all numbers of levels. -/
theorem strict (follows : Follows declared plain l) (none : plain.keepsFunctions = false) :
    Follows declared plain (Level.strict declared
      (Level.above Hygienic.target settings declared (fun _ => l) l)) where
  levels depth nesting := by
    cases depth with
    | zero => exact ⟨fun _ _ _ => tallies_throw_right, fun _ _ _ _ => tallies_throw_right⟩
    | succ depth =>
      refine ⟨fun e inside fits => ?_, fun place statements inside fits => ?_⟩
      · intro k sound a k₁ b k' left right
        rw [Level.strict_run] at left
        split at left
        · cases left
        · rename_i exactly
          by_cases called : ∃ callee arguments, e = .call callee arguments
          · obtain ⟨callee, arguments, rfl⟩ := called
            exact follows.call inside.related sound (Bool.eq_false_iff.mpr exactly) left right
          · exact Lockstep.expression_agree (follows.levels depth nesting) inside e
              ⟨fits.references, fits.params, Nat.le_succ_of_le fits.nesting⟩
              (fun x _ => follows.identifier none inside.related x)
              (fun callee arguments same => absurd ⟨callee, arguments, same⟩ called)
              k sound a k₁ b k' left right
      · exact Lockstep.statements_agree (follows.levels depth nesting) place inside statements
          ⟨fits.references, fits.params, Nat.le_of_succ_le fits.nesting⟩
  kept free kept run := by
    rw [Level.strict_run, if_neg (by simp [Level.miscalls])] at run
    simp only [Level.above, Level.compileExpression, Level.identifier, free, StateT.run_bind,
      StateT.run_get, pure_bind, kept] at run
    cases run
    exact ⟨rfl, rfl⟩

theorem strictOfDepth (none : plain.keepsFunctions = false) (levels : Nat) :
    Follows declared plain (Level.strictOfDepth Hygienic.target settings declared levels) := by
  induction levels with
  | zero => exact bottom
  | succ levels ih => exact ih.strict none

end Follows

/-- The hygienic translations with and without kept functions have a common reduct. -/
theorem compileHygienic_joins {settings plain : Settings} {program : Program}
    {entry entry' : EntryOf Hygienic} (none : plain.keepsFunctions = false)
    (accepted : compileStrictTo Hygienic.target settings program = .ok entry)
    (compiled : compileTo Hygienic.target plain program = .ok entry') :
    Joins (entry.params.foldr Hygienic.abs entry.body).skeleton
      (entry'.params.foldr Hygienic.abs entry'.body).skeleton := by
  obtain ⟨start, func, k₁, first, named, left⟩ := compileAt_inv accepted
  obtain ⟨start', func', k', first', named', right⟩ := compileAt_inv compiled
  cases first.symm.trans first'
  have same : entry.params = entry'.params := Except.ok.inj (named.symm.trans named')
  rw [← same] at right ⊢
  have follows : Follows (.ofTable program.table) plain
      (.strictOfDepth Hygienic.target settings (.ofTable program.table) settings.maxDepth) :=
    .strictOfDepth none settings.maxDepth
  have noneKept : KeptSound (.ofTable program.table) plain {} := by
    intro f code looked
    cases looked
  obtain ⟨_, _, bodies⟩ := follows.functionBody func (parameters_related entry.params) {} noneKept
    _ k₁ _ k' left right
  have whole : Equivalent 0 Skeleton.bound (Hygienic.target.function entry.params entry.body)
      (Hygienic.target.function entry.params entry'.body) := .function bodies
  have joins := whole.joins
  rw [Skeleton.instantiate_bound] at joins
  exact joins

theorem compileHygienicWith_inv {settings : Settings} {program : Program} {h : Hygienic}
    (translated : compileHygienicWith settings program = .ok h) :
    ∃ entry, compileTo Hygienic.target settings program = .ok entry ∧
      entry.params.foldr Hygienic.abs entry.body = h := by
  unfold compileHygienicWith at translated
  cases outcome : compileTo Hygienic.target settings program with
  | error e =>
    rw [outcome] at translated
    cases translated
  | ok entry =>
    rw [outcome] at translated
    cases translated
    exact ⟨entry, rfl, rfl⟩

/-- The hygienic translations of a script whose calls of kept functions are exact. -/
theorem joins_of_hygienic {plain : Settings} {program : Program} {entry : Entry}
    {h h' : Hygienic} (accepted : compileStrict program = .ok entry)
    (none : plain.keepsFunctions = false) (hygienic : compileHygienicWith {} program = .ok h)
    (hygienic' : compileHygienicWith plain program = .ok h') : Joins h.skeleton h'.skeleton := by
  obtain ⟨kept, compiled, rfl⟩ := compileHygienicWith_inv hygienic
  obtain ⟨inlined, compiled', rfl⟩ := compileHygienicWith_inv hygienic'
  obtain ⟨result, strict⟩ := compileStrictTo_hygienic accepted
  rw [compileTo_eq_of_strict strict] at compiled
  cases compiled
  exact compileHygienic_joins none strict compiled'

/-- Keeping functions changes nothing but words, for a script whose calls of kept functions
are exact. The hygienic translations with and without kept functions have a common reduct,
so that they have the same normal form. The texts are these translations written by their
names; where neither captures a variable, what the texts are read as has the same normal
form, too. -/
theorem kept_and_inlined_agree (program : Program) (entry entry' : Entry) (t t' : Term)
    (wellNamed : program.WellNamed) (compiled : compile program = .ok entry)
    (compiled' : compileWith { keepsFunctions := false } program = .ok entry')
    (parsed : Term.parse entry.text = .ok t) (parsed' : Term.parse entry'.text = .ok t')
    (exactly : compileStrict program = compile program) :
    ∃ h h', compileHygienic program = .ok h ∧
      compileHygienicWith { keepsFunctions := false } program = .ok h' ∧
      h.named = t ∧ h'.named = t' ∧ Joins h.skeleton h'.skeleton ∧
      (¬ h.Captured [] → ¬ h'.Captured [] → ∀ n n', n.Normal → n'.Normal →
        Skeleton.Reduces t.resolve.skeleton n → Skeleton.Reduces t'.resolve.skeleton n' →
        n = n') := by
  obtain ⟨h, hygienic, rfl, binds⟩ :=
    compileTermWith_writes (compileTermWith_of_parse wellNamed compiled parsed)
  obtain ⟨h', hygienic', rfl, binds'⟩ :=
    compileTermWith_writes (compileTermWith_of_parse wellNamed compiled' parsed')
  have joins := joins_of_hygienic (exactly.trans compiled) rfl hygienic hygienic'
  refine ⟨h, h', hygienic, hygienic', rfl, rfl, joins, ?_⟩
  intro free free' n n' normal normal' reduces reduces'
  rw [Term.resolve_skeleton, (Hygienic.nameless_named_iff binds).mpr free] at reduces
  rw [Term.resolve_skeleton, (Hygienic.nameless_named_iff binds').mpr free'] at reduces'
  exact joins.normal_eq reduces reduces' normal normal'

section Samples

/-- A script that names a function before it calls it. -/
def callAfterNaming (outer params : List String) (result : Expr) (arguments : List Expr) :
    Program where
  body := [
    .function ⟨some "main", outer.map .identifier, .block [
      .declare [⟨.identifier "g", some (.identifier "f")⟩],
      .ret (some (.call (.identifier "f") arguments))]⟩,
    .function ⟨some "f", params.map .identifier, .expression result⟩]

theorem callAfterNaming_declared {table : FunctionTable}
    (graph : table.callGraph = ⟨[("main", ["f", "f"]), ("f", [])]⟩) :
    Declarations.ofTable table = ⟨table, []⟩ := by
  simp [Declarations.ofTable, graph, CallGraph.recursive, CallGraph.reachable,
    CallGraph.nodes, CallGraph.successors, List.lookup_cons]

/-- `f` is the square. It is passed on by its name, and called with as many arguments as it
has parameters. -/
def squares : Program :=
  callAfterNaming ["a"] ["n"] (.binary .mul (.identifier "n") (.identifier "n"))
    [.call (.identifier "g") [.identifier "a"]]

theorem squares_declared : Declarations.ofTable squares.table = ⟨squares.table, []⟩ :=
  callAfterNaming_declared (by decide +kernel)

/-- The square as a lambda for any target, given what its parameter stands for. -/
def squareLambda {α : Type} (target : Target α) (n : α) : α :=
  target.function ["n"] (target.use .mul [n, n])

def squaresKept {α : Type} (target : Target α) (n a : α) : α :=
  target.apply (squareLambda target n) [target.apply (squareLambda target n) [a]]

def squaresInlined {α : Type} (target : Target α) (n a : α) : α :=
  let first := target.apply (squareLambda target n) [a]
  target.use .mul [first, first]

theorem squares_compiled :
    compile squares = .ok ⟨["a"], squaresKept Code.target (.name "n") (.name "a")⟩ ∧
      compileStrict squares = .ok ⟨["a"], squaresKept Code.target (.name "n") (.name "a")⟩ ∧
      compileWith { keepsFunctions := false } squares =
        .ok ⟨["a"], squaresInlined Code.target (.name "n") (.name "a")⟩ := by
  rw [compile, compileStrict, compileStrictTo, compileWith, compileWith, compileTo, compileTo,
    squares_declared]
  exact ⟨rfl, rfl, rfl⟩

theorem squares_hygienic :
    compileHygienic squares =
        .ok (.abs "a" (squaresKept Hygienic.target (.bound "n" 0) (.bound "a" 0))) ∧
      compileHygienicWith { keepsFunctions := false } squares =
        .ok (.abs "a" (squaresInlined Hygienic.target (.bound "n" 0) (.bound "a" 0))) := by
  rw [compileHygienic, compileHygienicWith, compileHygienicWith, compileTo, compileTo,
    squares_declared]
  exact ⟨rfl, rfl⟩

theorem squares_parsed :
    Term.parse (Entry.text ⟨["a"], squaresKept Code.target (.name "n") (.name "a")⟩) =
        .ok (.lam "a" (squaresKept termTarget (.name "n") (.name "a"))) ∧
      Term.parse (Entry.text ⟨["a"], squaresInlined Code.target (.name "n") (.name "a")⟩) =
        .ok (.lam "a" (squaresInlined termTarget (.name "n") (.name "a"))) := by
  decide +kernel

theorem squares_kept_and_inlined_agree :
    squares.WellNamed ∧ compileStrict squares = compile squares ∧
      ∀ n n', n.Normal → n'.Normal →
        Skeleton.Reduces
          (Term.lam "a" (squaresKept termTarget (.name "n") (.name "a"))).resolve.skeleton n →
        Skeleton.Reduces
          (Term.lam "a" (squaresInlined termTarget (.name "n") (.name "a"))).resolve.skeleton n' →
        n = n' := by
  have wellNamed : squares.WellNamed := by decide +kernel
  obtain ⟨compiled, strict, compiled'⟩ := squares_compiled
  have exactly : compileStrict squares = compile squares := strict.trans compiled.symm
  obtain ⟨h, h', hygienic, hygienic', _, _, _, agree⟩ := kept_and_inlined_agree squares _ _ _ _
    wellNamed compiled compiled' squares_parsed.1 squares_parsed.2 exactly
  rw [squares_hygienic.1] at hygienic
  rw [squares_hygienic.2] at hygienic'
  cases hygienic
  cases hygienic'
  exact ⟨wellNamed, exactly, agree (by decide) (by decide)⟩

/-- A script compiles to terms with different normal forms, with and without kept
functions. -/
def KeepingShows (program : Program) : Prop :=
  ∃ entry entry' t t' n n', compile program = .ok entry ∧
    compileWith { keepsFunctions := false } program = .ok entry' ∧
    Term.parse entry.text = .ok t ∧ Term.parse entry'.text = .ok t' ∧
    Skeleton.Reduces t.resolve.skeleton n ∧ Skeleton.Reduces t'.resolve.skeleton n' ∧
    n.Normal ∧ n'.Normal ∧ n ≠ n'

/-- The lambda of `f` stays as it is without its argument, the body takes zero for it. -/
def missingArgument : Program := callAfterNaming [] ["x"] (.identifier "x") []

theorem missingArgument_shows : KeepingShows missingArgument := by
  have declared : Declarations.ofTable missingArgument.table = ⟨missingArgument.table, []⟩ :=
    callAfterNaming_declared (by decide +kernel)
  refine ⟨⟨[], .apply (.function ["x"] (.name "x")) []⟩, ⟨[], .numeral 0⟩,
    .lam "x" (.name "x"), Term.numeral 0, .abs (.bound 0), .abs (.abs (.bound 0)), ?_, ?_,
    by decide +kernel, by decide +kernel, .refl, .refl, trivial, trivial, by decide⟩
  · rw [compile, compileWith, compileTo, declared]
    rfl
  · rw [compileWith, compileTo, declared]
    rfl

/-- The argument has the name of a parameter inside of `f`, which captures it in the body. -/
def capturedArgument : Program :=
  callAfterNaming ["y"] ["x"] (.function ⟨none, [.identifier "y"], .expression (.identifier "x")⟩)
    [.identifier "y"]

theorem capturedArgument_shows :
    compileStrict capturedArgument = compile capturedArgument ∧ KeepingShows capturedArgument := by
  have declared : Declarations.ofTable capturedArgument.table = ⟨capturedArgument.table, []⟩ :=
    callAfterNaming_declared (by decide +kernel)
  have compiled : compile capturedArgument =
      .ok ⟨["y"], .apply (.function ["x"] (.function ["y"] (.name "x"))) [.name "y"]⟩ := by
    rw [compile, compileWith, compileTo, declared]
    rfl
  refine ⟨?_, _, ⟨["y"], .function ["y"] (.name "y")⟩,
    .lam "y" (.app (.lam "x" (.lam "y" (.name "x"))) (.name "y")), .lam "y" (.lam "y" (.name "y")),
    .abs (.abs (.bound 1)), .abs (.abs (.bound 0)), compiled, ?_, by decide +kernel,
    by decide +kernel, (Skeleton.Reduces.beta rfl).abs, .refl, trivial, trivial, by decide⟩
  · rw [compiled, compileStrict, compileStrictTo, declared]
    rfl
  · rw [compileWith, compileTo, declared]
    rfl

/-- The text of the lambda reads as one with twice the same parameter. -/
def misnamedParameter : Program :=
  callAfterNaming [] ["x", "$x"] (.identifier "x")
    [.literal (.boolean true), .literal (.boolean false)]

theorem misnamedParameter_shows :
    compileStrict misnamedParameter = compile misnamedParameter ∧
      KeepingShows misnamedParameter := by
  have declared : Declarations.ofTable misnamedParameter.table = ⟨misnamedParameter.table, []⟩ :=
    callAfterNaming_declared (by decide +kernel)
  have compiled : compile misnamedParameter =
      .ok ⟨[], .apply (.function ["x", "$x"] (.name "x"))
        [.combinator .true, .combinator .false]⟩ := by
    rw [compile, compileWith, compileTo, declared]
    rfl
  have first : Skeleton.Reduces
      (.app (.abs (.abs (.bound 0))) (.abs (.abs (.bound 1)))) (.abs (.bound 0)) := .beta rfl
  have both := (first.app .refl).trans
    (Skeleton.Reduces.beta (a := .abs (.abs (.bound 0))) rfl)
  refine ⟨?_, _, ⟨[], .combinator .true⟩,
    .app (.app (.lam "x" (.lam "x" (.name "x"))) Combinator.true.term) Combinator.false.term,
    Combinator.true.term, .abs (.abs (.bound 0)), .abs (.abs (.bound 1)), compiled, ?_,
    by decide +kernel, by decide +kernel, both, .refl, trivial, trivial, by decide⟩
  · rw [compiled, compileStrict, compileStrictTo, declared]
    rfl
  · rw [compileWith, compileTo, declared]
    rfl

/-- Keeping functions shows when a call has too few arguments, when an argument is captured,
and when a parameter is not a name of lambda text. -/
theorem keeping_shows :
    (missingArgument.WellNamed ∧ KeepingShows missingArgument) ∧
      (capturedArgument.WellNamed ∧ compileStrict capturedArgument = compile capturedArgument ∧
        KeepingShows capturedArgument) ∧
      compileStrict misnamedParameter = compile misnamedParameter ∧
        KeepingShows misnamedParameter :=
  ⟨⟨by decide +kernel, missingArgument_shows⟩, ⟨by decide +kernel, capturedArgument_shows⟩,
    misnamedParameter_shows⟩

end Samples

end ChurchScript.Church
