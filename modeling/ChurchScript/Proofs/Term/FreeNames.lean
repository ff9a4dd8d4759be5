import Mathlib.Data.Nat.Digits.Defs
import Mathlib.Logic.Function.Iterate
import ChurchScript.Proofs.Term.Renaming
import ChurchScript.Proofs.Term.Resolution

/-!
# Free variables

A variable is free for the list of free names, for the numerals that are put in its place and
for the annotations that it gets if and only if no abstraction around it has its name
(`free_names_agree`). Places in a term are given by the turns that lead to them from the root,
so that a term and what becomes of it are compared place by place.
-/
namespace ChurchScript.Term

/-- One step down in a term. -/
inductive Turn where
  | body | function | argument
  deriving DecidableEq, Repr

/-- The part of a term that the turns lead to. -/
def part? : List Turn → Term → Option Term
  | [], t => some t
  | .body :: path, abs _ _ body => body.part? path
  | .function :: path, app f _ => f.part? path
  | .argument :: path, app _ a => a.part? path
  | _, _ => none

/-- Puts terms in place of variables, where there is one for the path. -/
def replaceVariables (new : List Turn → Option Term) : Term → Term
  | var x index mark => (new []).getD (var x index mark)
  | abs x mark body => abs x mark (body.replaceVariables fun path => new (.body :: path))
  | app f a =>
    app (f.replaceVariables fun path => new (.function :: path))
      (a.replaceVariables fun path => new (.argument :: path))

/-- The numeral that an unmarked variable of a resolved term stands for. -/
def numeralAt (resolved : Term) (path : List Turn) : Option Term :=
  match resolved.part? path with
  | some (var x _ none) => (numeralValue? x).map numeral
  | _ => none

/-- The names of the variables without a mark, from left to right. -/
def unmarkedNames : Term → List String
  | var x _ mark => if mark.isNone then [x] else []
  | abs _ _ body => body.unmarkedNames
  | app f a => f.unmarkedNames ++ a.unmarkedNames

/-- The members of a list once each, in the order of their first occurrence. -/
structure FirstOccurrences (firsts names : List String) : Prop where
  distinct : firsts.Nodup
  members : ∀ x, x ∈ firsts ↔ x ∈ names
  ordered : firsts.Pairwise fun x y => names.idxOf x < names.idxOf y

section Lists

variable {x y : String} {names : List String} {p : String → Bool}

/-- Leaving names out keeps the order of the others. -/
theorem idxOf_lt_of_filter (keepsLeft : p x = true) (keepsRight : p y = true)
    (before : (names.filter p).idxOf x < (names.filter p).idxOf y) :
    names.idxOf x < names.idxOf y := by
  induction names with
  | nil => exact before
  | cons first rest ih =>
    by_cases keeps : p first = true
    · rw [List.filter_cons_of_pos keeps, List.idxOf_cons, List.idxOf_cons] at before
      rw [List.idxOf_cons, List.idxOf_cons]
      grind
    · rw [List.filter_cons_of_neg keeps] at before
      have behind := ih before
      rw [List.idxOf_cons, List.idxOf_cons]
      grind

theorem eraseDups_ordered (names : List String) :
    names.eraseDups.Pairwise fun x y => names.idxOf x < names.idxOf y := by
  induction size : names.length using Nat.strong_induction_on generalizing names with
  | _ size ih =>
    subst size
    cases names with
    | nil => exact .nil
    | cons first rest =>
      have behind := ih (rest.filter fun x => !x == first).length
        (Nat.lt_succ_of_le (List.length_filter_le _ _)) _ rfl
      have other {x : String} (member : x ∈ (rest.filter fun x => !x == first).eraseDups) :
          (!x == first) = true :=
        (List.mem_filter.mp (List.mem_eraseDups.mp member)).2
      rw [List.eraseDups_cons, List.pairwise_cons]
      refine ⟨fun x member => ?_, behind.imp_of_mem fun left right before => ?_⟩
      · have differs := other member
        grind
      · have differs := other left
        have differs' := other right
        have kept := idxOf_lt_of_filter differs differs' before
        grind

theorem eraseDups_firstOccurrences (names : List String) :
    FirstOccurrences names.eraseDups names where
  distinct := (eraseDups_ordered names).imp fun before same => by simp [same] at before
  members _ := List.mem_eraseDups
  ordered := eraseDups_ordered names

theorem eraseDups_filter (p : String → Bool) (names : List String) :
    (names.filter p).eraseDups = names.eraseDups.filter p := by
  induction size : names.length using Nat.strong_induction_on generalizing names with
  | _ size ih =>
    subst size
    cases names with
    | nil => rfl
    | cons first rest =>
      have behind := ih (rest.filter fun x => !x == first).length
        (Nat.lt_succ_of_le (List.length_filter_le _ _)) _ rfl
      by_cases keeps : p first = true
      · rw [List.filter_cons_of_pos keeps, List.eraseDups_cons, List.eraseDups_cons,
          List.filter_cons_of_pos keeps, ← behind, List.filter_filter, List.filter_filter]
        simp only [Bool.and_comm]
      · rw [List.filter_cons_of_neg keeps, List.eraseDups_cons, List.filter_cons_of_neg keeps,
          ← behind, List.filter_filter]
        congr 1
        refine List.filter_congr fun x _ => ?_
        by_cases same : x = first
        · simp [same, keeps]
        · simp [same]

end Lists

section Annotations

variable {enclosing : Enclosing}

theorem find_none_iff (x : String) (enclosing : Enclosing) :
    enclosing.find? x = none ↔ x ∉ enclosing.map Prod.fst := by
  refine ⟨not_mem_of_find_none, fun outside => ?_⟩
  have found := find_index x enclosing
  rw [if_neg outside] at found
  exact Option.map_eq_none_iff.mp found

theorem mem_of_find_some {x : String} {nearest : Nat × Binder}
    (found : enclosing.find? x = some nearest) : x ∈ enclosing.map Prod.fst := by
  by_contra outside
  rw [(find_none_iff x enclosing).mpr outside] at found
  cases found

/-- Annotating leaves those variables without a mark whose name no abstraction around has. -/
theorem annotate_unmarkedNames (t : Term) (enclosing : Enclosing) (next : UInt32) :
    (t.annotate enclosing next).1.unmarkedNames = t.freeOccurrences (enclosing.map Prod.fst) := by
  induction t generalizing enclosing next with
  | var x index mark =>
    cases found : enclosing.find? x with
    | none =>
      have outside := (find_none_iff x enclosing).mp found
      simp [annotate, found, unmarkedNames, freeOccurrences, outside]
    | some nearest =>
      have inside := mem_of_find_some found
      simp [annotate, found, unmarkedNames, freeOccurrences, inside]
  | abs x mark body ih =>
    cases mark with
    | none => exact ih _ _
    | some mark => exact ih _ _
  | app f a ihf iha => simp only [annotate, unmarkedNames, freeOccurrences, ihf, iha]

/-- Numerals are put in place of the variables that annotating leaves without a mark. -/
theorem expandUnder_eq_replaceVariables (t : Term) (enclosing : Enclosing) (next : UInt32) :
    t.expandUnder (enclosing.map Prod.fst) =
      t.replaceVariables (numeralAt (t.annotate enclosing next).1) := by
  induction t generalizing enclosing next with
  | var x index mark =>
    cases found : enclosing.find? x with
    | none =>
      have outside := (find_none_iff x enclosing).mp found
      cases value : numeralValue? x <;>
        simp [expandUnder, replaceVariables, numeralAt, part?, annotate, found, value, outside]
    | some nearest =>
      have inside := mem_of_find_some found
      cases value : numeralValue? x <;>
        simp [expandUnder, replaceVariables, numeralAt, part?, annotate, found, value, inside]
  | abs x mark body ih =>
    cases mark with
    | none => exact congrArg (abs x none) (ih ((x, ⟨next.toNat⟩) :: enclosing) (next + 1))
    | some mark => exact congrArg (abs x (some mark)) (ih ((x, mark) :: enclosing) next)
  | app f a ihf iha => exact congrArg₂ app (ihf enclosing next) (iha enclosing _)

theorem annotate_var (x : String) (index : Option Nat) (mark : Option Binder)
    (enclosing : Enclosing) (next : UInt32) :
    ((var x index mark).annotate enclosing next).1 =
      var x ((enclosing.find? x).map Prod.fst) ((enclosing.find? x).map Prod.snd) := by
  unfold annotate
  cases enclosing.find? x with
  | none => rfl
  | some nearest => rfl

/-- A variable that is kept has the same index with the numerals as without them: its index
depends on the names around it alone, and no numeral stands around it. -/
theorem kept_index (t : Term) {enclosing enclosing' : Enclosing}
    (names : enclosing'.map Prod.fst = enclosing.map Prod.fst) (next next' : UInt32)
    {path : List Turn} {x : String} {index : Option Nat} {mark : Option Binder}
    (there : t.part? path = some (var x index mark))
    (kept : (t.expandUnder (enclosing.map Prod.fst)).part? path = some (var x index mark)) :
    ∃ found before after,
      (t.annotate enclosing next).1.part? path = some (var x found before) ∧
      ((t.expandUnder (enclosing.map Prod.fst)).annotate enclosing' next').1.part? path =
        some (var x found after) := by
  induction t generalizing enclosing enclosing' next next' path with
  | var y staleIndex staleMark =>
    cases path with
    | nil =>
      cases there
      rw [Option.some.inj kept, annotate_var, annotate_var]
      have same : (enclosing'.find? x).map Prod.fst = (enclosing.find? x).map Prod.fst := by
        rw [find_index, find_index, names]
      exact ⟨_, _, _, rfl, by rw [same]; rfl⟩
    | cons turn path => cases turn <;> cases there
  | abs y preset body ih =>
    cases path with
    | nil => cases there
    | cons turn path =>
      cases turn with
      | body =>
        cases preset with
        | none =>
          have inner : ((y, (⟨next'.toNat⟩ : Binder)) :: enclosing').map Prod.fst =
              ((y, (⟨next.toNat⟩ : Binder)) :: enclosing).map Prod.fst := congrArg (y :: ·) names
          exact ih inner _ _ there kept
        | some preset =>
          have inner : ((y, preset) :: enclosing').map Prod.fst =
              ((y, preset) :: enclosing).map Prod.fst := congrArg (y :: ·) names
          exact ih inner _ _ there kept
      | function => cases there
      | argument => cases there
  | app f a ihf iha =>
    cases path with
    | nil => cases there
    | cons turn path =>
      cases turn with
      | body => cases there
      | function => exact ihf names next next' there kept
      | argument => exact iha names _ _ there kept

end Annotations

section Expansion

theorem expandUnder_numeral (n : Nat) (bound : List String) :
    (numeral n).expandUnder bound = numeral n := by
  have letters : numeralValue? "f" = none ∧ numeralValue? "x" = none := by decide
  refine congrArg (fun body => lam "f" (lam "x" body)) ?_
  induction n with
  | zero => simp [iterate, expandUnder, letters]
  | succ n ih => simp [iterate, expandUnder, letters, ih]

theorem expandUnder_expandUnder (t : Term) (bound : List String) :
    (t.expandUnder bound).expandUnder bound = t.expandUnder bound := by
  induction t generalizing bound with
  | var x index mark =>
    cases value : numeralValue? x with
    | none => simp [expandUnder, value]
    | some n =>
      by_cases inside : x ∈ bound
      · simp [expandUnder, value, inside]
      · simp [expandUnder, value, inside, expandUnder_numeral]
  | abs x mark body ih => simp [expandUnder, ih]
  | app f a ihf iha => simp [expandUnder, ihf, iha]

/-- Only the names that stand for a numeral are free no longer. -/
theorem expandUnder_freeOccurrences (t : Term) (bound : List String) :
    (t.expandUnder bound).freeOccurrences bound =
      (t.freeOccurrences bound).filter fun x => (numeralValue? x).isNone := by
  induction t generalizing bound with
  | var x index mark =>
    cases value : numeralValue? x with
    | none =>
      by_cases inside : x ∈ bound <;> simp [expandUnder, freeOccurrences, value, inside]
    | some n =>
      by_cases inside : x ∈ bound
      · simp [expandUnder, freeOccurrences, value, inside]
      · simp [expandUnder, freeOccurrences, value, inside, numeral_freeOccurrences]
  | abs x mark body ih => exact ih (x :: bound)
  | app f a ihf iha => simp [expandUnder, freeOccurrences, ihf, iha]

/-- The number that digits spell, the last digit being the ones. -/
theorem digitsValue_eq (cs : List Char) :
    Digits.value cs = Nat.ofDigits 10 (cs.reverse.map fun c => c.toNat - '0'.toNat) := by
  rw [Nat.ofDigits_eq_foldr, List.foldr_map, List.foldr_reverse]
  refine congrArg (fun step => cs.foldl step 0) (funext fun n => funext fun c => ?_)
  exact Nat.add_comm _ _

/-- A name stands for a numeral if it is made of digits and not above the largest. -/
theorem numeralValue_eq_some_iff (x : String) (n : Nat) :
    numeralValue? x = some n ↔ x.toList ≠ [] ∧ (∀ c ∈ x.toList, c.isDigit = true) ∧
      Nat.ofDigits 10 (x.toList.reverse.map fun c => c.toNat - '0'.toNat) = n ∧ n ≤ 100 := by
  rw [← digitsValue_eq]
  simp only [numeralValue?, Digits.isNumber, maxNumeral, Option.ite_none_right_eq_some,
    Bool.and_eq_true, Bool.not_eq_true', List.isEmpty_eq_false_iff, List.all_eq_true,
    Option.some.injEq]
  constructor
  · rintro ⟨⟨⟨nonempty, digits⟩, fits⟩, rfl⟩
    exact ⟨nonempty, digits, rfl, of_decide_eq_true fits⟩
  · rintro ⟨nonempty, digits, rfl, fits⟩
    exact ⟨⟨⟨nonempty, digits⟩, decide_eq_true fits⟩, rfl⟩

/-- A numeral applies its first parameter to the second as often as it says. -/
theorem numeral_eq (n : Nat) :
    numeral n = lam "f" (lam "x" ((app (name "f"))^[n] (name "x"))) := by
  refine congrArg (fun body => lam "f" (lam "x" body)) ?_
  induction n with
  | zero => rfl
  | succ n ih => rw [iterate, ih, Function.iterate_succ_apply']

end Expansion

/-- The three notions of a free variable are one. The free names are those of the variables
that resolving leaves without a mark, each where it occurs first. Numerals are put in place of
exactly those of these variables whose name is a decimal number up to 100, the numeral of a
number being the function that applies `f` to `x` so many times, and nothing else changes; the
variables that are kept keep their indices, the names that are left free are the others, and
there is nothing more to put in. -/
theorem free_names_agree (t : Term) :
    FirstOccurrences t.freeVariables t.resolve.unmarkedNames ∧
    t.expandNumerals = t.replaceVariables (numeralAt t.resolve) ∧
    (∀ x n, numeralValue? x = some n ↔ x.toList ≠ [] ∧ (∀ c ∈ x.toList, c.isDigit = true) ∧
      Nat.ofDigits 10 (x.toList.reverse.map fun c => c.toNat - '0'.toNat) = n ∧ n ≤ 100) ∧
    (∀ n, numeral n = lam "f" (lam "x" ((app (name "f"))^[n] (name "x")))) ∧
    (∀ path x index mark, t.part? path = some (var x index mark) →
      t.expandNumerals.part? path = some (var x index mark) →
      ∃ found before after, t.resolve.part? path = some (var x found before) ∧
        t.expandNumerals.resolve.part? path = some (var x found after)) ∧
    t.expandNumerals.freeVariables = t.freeVariables.filter (fun x => (numeralValue? x).isNone) ∧
    t.expandNumerals.expandNumerals = t.expandNumerals := by
  have unmarked : t.resolve.unmarkedNames = t.freeOccurrences [] := annotate_unmarkedNames t [] _
  refine ⟨?_, expandUnder_eq_replaceVariables t [] _, numeralValue_eq_some_iff, numeral_eq, ?_, ?_,
    expandUnder_expandUnder t []⟩
  · rw [unmarked]
    exact eraseDups_firstOccurrences _
  · intro path x index mark there kept
    exact kept_index t rfl _ _ there kept
  · rw [freeVariables, expandNumerals, expandUnder_freeOccurrences, eraseDups_filter]
    rfl

/-- The term of `λf.007 (λ7.7 y) (101 f)`. -/
def numberedSample : Term :=
  lam "f" (app (app (name "007") (lam "7" (app (name "7") (name "y"))))
    (app (name "101") (name "f")))

theorem numberedSample_names :
    numberedSample.freeVariables = ["007", "y", "101"] ∧
    numberedSample.expandNumerals.freeVariables = ["y", "101"] ∧
    numberedSample.part? [.body, .argument, .argument] = some (name "f") ∧
    numberedSample.expandNumerals.part? [.body, .argument, .argument] = some (name "f") ∧
    ∃ index before after,
      numberedSample.resolve.part? [.body, .argument, .argument] = some (var "f" index before) ∧
      numberedSample.expandNumerals.resolve.part? [.body, .argument, .argument] =
        some (var "f" index after) := by
  have free : numberedSample.freeVariables = ["007", "y", "101"] := by decide +kernel
  obtain ⟨-, -, -, -, kept, left, -⟩ := free_names_agree numberedSample
  refine ⟨free, ?_, rfl, by decide +kernel, kept _ _ _ _ rfl (by decide +kernel)⟩
  rw [left, free]
  decide +kernel

end ChurchScript.Term
