import ChurchScript.Proofs.Church.Correctness

/-!
# Applying a compiled script

A compiled script is a function of the parameters of its entry point. Applied to
the encodings of values it reduces to its body with the encodings in place of the
parameters, and so to the encoding of what the entry point gives back.
-/
namespace ChurchScript

open Script

namespace Term

theorem nameless_apps (f : Term) (arguments : List Term) (names : List String) :
    (f.apps arguments).nameless names =
      (f.nameless names).apps (arguments.map (nameless names)) := by
  induction arguments generalizing f with
  | nil => rfl
  | cons a rest ih => exact ih (.app f a)

theorem nameless_lams (params names : List String) (body : Term) :
    (lams params body).nameless names =
      Skeleton.lams params.length (body.nameless (params.reverse ++ names)) := by
  induction params generalizing names with
  | nil => rfl
  | cons x rest ih =>
    rw [List.reverse_cons, List.append_assoc]
    exact congrArg Skeleton.abs (ih (x :: names))

theorem numeral_closed (n : Nat) : (numeral n).freeOccurrences [] = [] := by
  have inner : (iterate (name "f") (name "x") n).freeOccurrences ["x", "f"] = [] := by
    induction n with
    | zero => rfl
    | succ n ih => exact List.append_eq_nil_iff.mpr ⟨rfl, ih⟩
  exact inner

end Term

theorem Skeleton.fill_apps (arguments : List Skeleton) (f : Skeleton) (others : List Skeleton) :
    fill arguments (f.apps others) = (fill arguments f).apps (others.map (fill arguments)) := by
  induction others generalizing f with
  | nil => rfl
  | cons a rest ih =>
    have step := ih (.app f a)
    rw [fill_app] at step
    exact step

namespace Church

open Skeleton (Reduces fill)

theorem combinator_closed (c : Combinator) : c.term.freeOccurrences [] = [] := by
  cases c <;> decide

/-- Compiled terms with the encodings of values in place of the parameters. -/
def Interpretation.ofArguments (params : List String) (values : List Value) : Interpretation where
  denote t := fill (values.map Value.skeleton) (t.nameless params.reverse)
  apps f arguments := by
    rw [Term.nameless_apps, Skeleton.fill_apps, List.map_map]
    rfl
  combinator c := by
    have alone := c.term.nameless_append [] params.reverse (combinator_closed c)
    rw [List.nil_append] at alone
    rw [alone]
    exact Skeleton.fill_of_closed (c.term.nameless_closedAt [])
  numeral n := by
    have alone := (Term.numeral n).nameless_append [] params.reverse (Term.numeral_closed n)
    rw [List.nil_append] at alone
    rw [alone, Value.numeral_nameless]
    exact Skeleton.fill_of_closed (Skeleton.numeral_closed n)

/-- The parameters of the entry point stand for themselves and mean their arguments. -/
theorem parameters_locals {params : List String} {types : List Ty} {values : List Value}
    (arity : params.length = values.length)
    (typed : List.Forall₂ (fun v ty => Value.ty v = ty) values types) :
    (Interpretation.ofArguments params values).Locals (argumentScope params types)
      (argumentScope params values) (Scope.bindParams {} Term.name params) where
  types := argumentScope_related params typed
  code x := by
    rw [Scope.lookup_bindParams, lookup_argumentScope arity]
    by_cases inside : x ∈ params
    · have bounded : params.reverse.idxOf x < values.reverse.length := by
        rw [List.length_reverse, ← arity, ← List.length_reverse]
        exact List.idxOf_lt_length_of_mem (List.mem_reverse.mpr inside)
      obtain ⟨v, found⟩ : ∃ v, values.reverse[params.reverse.idxOf x]? = some v :=
        ⟨_, List.getElem?_eq_getElem bounded⟩
      rw [if_pos inside, if_pos inside, found]
      refine .some ?_
      have denoted :
          (Interpretation.ofArguments params values).denote (Term.name x) = v.skeleton := by
        have index : (Term.name x).nameless params.reverse =
            .bound (params.reverse.idxOf x) := by
          simp [Term.nameless, inside]
        change fill _ _ = _
        rw [index]
        refine Skeleton.fill_bound ?_ ?_
        · intro a member
          obtain ⟨w, _, rfl⟩ := List.mem_map.mp member
          exact w.skeleton_closed
        · rw [← List.map_reverse, List.getElem?_map, found]
          rfl
      rw [Interpretation.Means, denoted]
    · rw [if_neg inside, if_neg inside]
      exact .none

/-- The entry point, compiled with its parameters as they are, computes what a call of
it gives back. -/
theorem compileEntry_ensures {program : Program} {signatures : Signatures} {f : String}
    {func : Func} {types : List Ty} {ty : Ty} {values : List Value}
    (hold : signatures.Hold program.table) (found : program.table.find? f = some func)
    (functionTyped : FunctionTyped signatures func types ty)
    (typed : List.Forall₂ (fun v ty => Value.ty v = ty) values types) (depth : Nat) :
    Ensures (compileEntry termTarget
        (Level.ofDepth termTarget {} (.ofTable program.table) depth) func) fun entry =>
      entry.params.length = values.length ∧
        (Interpretation.ofArguments entry.params values).Computes (Calls program.table f values) ty
          entry.body := by
  obtain @⟨name, params, statements, _, _, arity, returnsTyped⟩ := functionTyped
  have sameLength : params.length = values.length := arity.trans typed.length_eq.symm
  have sound := ofDepth_sound (Interpretation.ofArguments params values) {} (.ofTable program.table)
    hold depth
  have body := functionBody_ensures sound found sameLength returnsTyped
    (parameters_locals sameLength typed)
  unfold compileEntry
  refine ensures_bind (paramNames_ensures name params _) fun names same => ?_
  rw [same]
  exact ensures_bind body fun t computes => ensures_pure ⟨sameLength, computes⟩

/-- What the term of a compiled script is made of. -/
theorem compileTerm_inv {program : Program} {t : Term} {f : String} {func : Func}
    (translated : compileTerm program = .ok t)
    (start : entryPoint? program.table = some (f, func)) :
    ∃ entry kept, (compileEntry termTarget (Level.ofDepth termTarget {} (.ofTable program.table)
      ({} : Settings).maxDepth) func).run {} = .ok (entry, kept) ∧
      t = Term.lams entry.params entry.body := by
  unfold compileTerm compileTermWith compileTo compileAt at translated
  simp only [start, StateT.run'_eq] at translated
  generalize (compileEntry termTarget _ func).run {} = outcome at translated ⊢
  cases outcome with
  | error e => cases translated
  | ok result =>
    cases translated
    exact ⟨result.1, result.2, rfl, rfl⟩

/-- A well-typed first-order script, compiled, read and applied to the encodings of
arguments for its entry point, reduces to the encoding of the one value that a call of
the entry point with these arguments gives back. -/
theorem compiled_entry_reduces (program : Program) (entry : Entry) (t : Term)
    (signatures : Signatures) (f : String) (func : Func) (types : List Ty) (ty : Ty)
    (values : List Value) (wellNamed : program.WellNamed)
    (compiled : compile program = .ok entry) (parsed : Term.parse entry.text = .ok t)
    (start : entryPoint? program.table = some (f, func)) (hold : signatures.Hold program.table)
    (signature : signatures f types ty) (typed : values.map Value.ty = types) :
    ∃ v, v.ty = ty ∧ Calls program.table f values v ∧
      (∀ other, Calls program.table f values other → other = v) ∧
      Reduces (t.apps (values.map Value.term)).resolve.skeleton v.term.resolve.skeleton := by
  obtain ⟨func', found', functionTyped⟩ := hold f types ty signature
  have found := find_of_entryPoint start
  rw [found'] at found
  cases found
  have typeds : List.Forall₂ (fun v ty => Value.ty v = ty) values types := by
    rw [← typed]
    exact List.forall₂_map_right_iff.mpr (List.forall₂_same.mpr fun _ _ => rfl)
  have translated := compileTerm_of_parse wellNamed compiled parsed
  obtain ⟨result, kept, success, rfl⟩ := compileTerm_inv translated start
  obtain ⟨_, arity, v, typedValue, means, calls, unique⟩ :=
    compileEntry_ensures hold found' functionTyped typeds _ result kept success
  refine ⟨v, typedValue, calls, unique, ?_⟩
  have applied : ((Term.lams result.params result.body).apps (values.map Value.term)).nameless [] =
      (Skeleton.lams (values.map Value.skeleton).length
        (result.body.nameless result.params.reverse)).apps (values.map Value.skeleton) := by
    rw [Term.nameless_apps, Term.nameless_lams, List.append_nil, List.map_map, List.length_map,
      arity]
    exact congrArg _ (List.map_congr_left fun v _ => v.term_nameless)
  rw [Term.resolve_skeleton, Term.resolve_skeleton, applied, Value.term_nameless]
  refine (Skeleton.lams_apps_reduces _ ?_ _).trans means
  intro a member
  obtain ⟨w, _, rfl⟩ := List.mem_map.mp member
  exact w.skeleton_closed

def sampleSignatures : Signatures := fun f types ty =>
  f = "main" ∧ types = [.number, .number, .boolean] ∧ ty = .number ∨
    f = "times" ∧ types = [.number, .number] ∧ ty = .number

theorem sampleSignatures_hold : sampleSignatures.Hold sampleProgram.table := by
  rintro f types ty (⟨rfl, rfl, rfl⟩ | ⟨rfl, rfl, rfl⟩)
  · refine ⟨_, rfl, @FunctionTyped.intro _ (some "main") ["a", "b", "p"] _ _ _ rfl ?_⟩
    refine .declare (.cons (.add (.name rfl) (.name rfl)) .nil) (.ret ?_)
    exact .conditional (.name rfl)
      (.call rfl (.inr ⟨rfl, rfl, rfl⟩) (.cons (.name rfl) (.cons (.name rfl) .nil))) (.name rfl)
  · refine ⟨_, rfl, @FunctionTyped.intro _ (some "times") ["x", "y"] _ _ _ rfl ?_⟩
    exact .ret (.mul (.name rfl) (.name rfl))

theorem sampleProgram_calls :
    Calls sampleProgram.table "main" [.number 2, .number 3, .boolean true]
      (.number ((2 + 3) * 3)) := by
  have times : Calls sampleProgram.table "times" [.number (2 + 3), .number 3]
      (.number ((2 + 3) * 3)) :=
    @Calls.intro _ _ (some "times") ["x", "y"] _ _ _ rfl rfl (.ret (.mul (.name rfl) (.name rfl)))
  refine @Calls.intro _ _ (some "main") ["a", "b", "p"] _ _ _ rfl rfl ?_
  refine .declare (.cons (.add (.name rfl) (.name rfl)) .nil) (.ret ?_)
  exact .conditional (.name rfl) (.call rfl (.cons (.name rfl) (.cons (.name rfl) .nil)) times)

theorem sampleProgram_reduces :
    sampleProgram.WellNamed ∧ compile sampleProgram = .ok sampleEntry ∧
      Term.parse sampleEntry.text = .ok sampleTerm ∧ sampleSignatures.Hold sampleProgram.table ∧
      Reduces (sampleTerm.apps [Term.numeral 2, Term.numeral 3,
        Combinator.true.term]).resolve.skeleton (Term.numeral 15).resolve.skeleton := by
  obtain ⟨v, _, _, unique, reduces⟩ := compiled_entry_reduces sampleProgram sampleEntry sampleTerm
    sampleSignatures "main" _ _ .number [.number 2, .number 3, .boolean true]
    sampleProgram_wellNamed sampleProgram_compiled sampleEntry_parsed rfl sampleSignatures_hold
    (.inl ⟨rfl, rfl, rfl⟩) rfl
  rw [← unique _ sampleProgram_calls] at reduces
  exact ⟨sampleProgram_wellNamed, sampleProgram_compiled, sampleEntry_parsed,
    sampleSignatures_hold, reduces⟩

end Church
end ChurchScript
