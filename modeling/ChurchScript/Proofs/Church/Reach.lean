import ChurchScript.Proofs.Church.Application
import ChurchScript.Proofs.Script.Reachability

/-!
# What the entry point reaches

Nothing but the functions that the entry point reaches has a part in a compiled script.
Another script that declares the same for all the names reached compiles to the same
result, whatever else it declares and in whatever order. The names that stay free in a
compiled term are references of reached functions that no function is declared for.
-/
namespace ChurchScript

open Script

namespace Term

/-- A name is free below abstractions if it is free and none of them has it. -/
theorem mem_freeOccurrences_iff {x : String} (t : Term) (bound : List String) :
    x ∈ t.freeOccurrences bound ↔ x ∈ t.freeOccurrences [] ∧ x ∉ bound := by
  induction t generalizing bound with
  | var y index binder =>
    by_cases inside : y ∈ bound
    · simp only [freeOccurrences, List.contains_iff_mem, if_pos inside]
      grind
    · simp only [freeOccurrences, List.contains_iff_mem, if_neg inside]
      grind
  | abs y binder body ih =>
    unfold freeOccurrences
    rw [ih, ih [y]]
    grind
  | app f a ihf iha =>
    simp only [freeOccurrences, List.mem_append, ihf bound, iha bound]
    grind

theorem mem_freeOccurrences_lams {x : String} (params : List String) (t : Term) :
    x ∈ (lams params t).freeOccurrences [] ↔ x ∈ t.freeOccurrences [] ∧ x ∉ params := by
  induction params with
  | nil => simp [lams]
  | cons y rest ih =>
    change x ∈ (lams rest t).freeOccurrences [y] ↔ _
    rw [mem_freeOccurrences_iff, ih]
    simp [and_assoc, and_comm]

theorem mem_freeOccurrences_apps {x : String} (f : Term) (arguments : List Term) :
    x ∈ (f.apps arguments).freeOccurrences [] ↔
      x ∈ f.freeOccurrences [] ∨ ∃ a ∈ arguments, x ∈ a.freeOccurrences [] := by
  induction arguments generalizing f with
  | nil => simp [apps]
  | cons a rest ih =>
    change x ∈ ((app f a).apps rest).freeOccurrences [] ↔ _
    rw [ih]
    simp [freeOccurrences, or_assoc]

/-- Below abstractions of the given names, only allowed names are free. -/
def FreeAmong (allowed : String → Prop) (bound : List String) (t : Term) : Prop :=
  ∀ x ∈ t.freeOccurrences [], x ∈ bound ∨ allowed x

namespace FreeAmong

variable {allowed : String → Prop} {bound : List String} {t : Term}

theorem of_closed (closed : t.freeOccurrences [] = []) : FreeAmong allowed bound t := by
  intro x free
  rw [closed] at free
  cases free

theorem mono {more : List String} (among : FreeAmong allowed bound t)
    (fewer : ∀ x ∈ bound, x ∈ more) : FreeAmong allowed more t :=
  fun x free => (among x free).imp_left (fewer x)

theorem apps {arguments : List Term} (head : FreeAmong allowed bound t)
    (others : ∀ a ∈ arguments, FreeAmong allowed bound a) :
    FreeAmong allowed bound (t.apps arguments) := by
  intro x free
  rcases (mem_freeOccurrences_apps t arguments).mp free with inHead | ⟨a, member, inArgument⟩
  · exact head x inHead
  · exact others a member x inArgument

theorem lams {params : List String} (body : FreeAmong allowed (params.reverse ++ bound) t) :
    FreeAmong allowed bound (Term.lams params t) := by
  intro x free
  obtain ⟨inside, other⟩ := (mem_freeOccurrences_lams params t).mp free
  refine (body x inside).imp_left fun member => ?_
  rcases List.mem_append.mp member with param | outside
  · exact absurd (List.mem_reverse.mp param) other
  · exact outside

end FreeAmong

end Term

namespace Church

section Relevance

variable {start : String} {table table' : FunctionTable}

/-- Two scripts that declare the same for all that is reached. -/
def reachSimulation (same : FunctionTable.SameFrom start table table') :
    Simulation Code.target Code.target (.ofTable table) (.ofTable table') :=
  equalSimulation Code.target_extensional (fun _ => table.Reaches start) (fun _ => True)
    (fun _ => False) (fun reached => same _ reached)
    (fun reached => by
      rw [Bool.eq_iff_iff, List.contains_iff_mem, List.contains_iff_mem]
      exact same.recursive_iff reached)
    (fun reached found _ refers => reached.refer found refers)
    (fun _ => trivial) fun _ => trivial

theorem entryPoint_of_first {program : Program}
    (first : program.functions.head?.map Prod.fst = some start) :
    entryPoint? program.table = (program.table.find? start).map fun func => (start, func) := by
  obtain ⟨⟨name, func⟩, head, rfl⟩ := Option.map_eq_some_iff.mp first
  have declared : program.table.declarations.head? = some (name, func) := head
  cases found : program.table.find? name <;> simp [entryPoint?, declared, found]

/-- A script that declares the same for all that is reached has the same result. -/
theorem compileWith_eq_of_sameFrom (settings : Settings) {program program' : Program}
    (first : program.functions.head?.map Prod.fst = some start)
    (first' : program'.functions.head?.map Prod.fst = some start)
    (same : FunctionTable.SameFrom start program.table program'.table) :
    compileWith settings program = compileWith settings program' := by
  have entry : entryPoint? program.table = entryPoint? program'.table := by
    rw [entryPoint_of_first first, entryPoint_of_first first', same start .refl]
  have results : (reachSimulation same).Results (compileWith settings program)
      (compileWith settings program') := by
    refine Simulation.compileAt_agree _ _ entry trivial
      (fun f func _ => Simulation.ofDepth_agree settings trivial _ _ _) fun f func found => ?_
    have declared := find_of_entryPoint found
    rw [entryPoint_of_first first] at found
    obtain ⟨_, _, named⟩ := Option.map_eq_some_iff.mp found
    cases named
    exact ⟨fun x refers => .single ⟨func, declared, refers⟩, fun _ _ => trivial, le_rfl⟩
  rcases equal_of_results rfl results with ⟨_, _, impossible⟩ | ⟨same, _⟩
  · exact impossible.elim
  · exact same

end Relevance

/-- Two scripts that start with functions of the same name, and declare the same for this
name and all names reached from it, compile to the same code or fail with the same error. -/
theorem compile_eq_of_same_reached (program program' : Program) (start : String)
    (first : program.functions.head?.map Prod.fst = some start)
    (first' : program'.functions.head?.map Prod.fst = some start)
    (same : ∀ x, program.table.Reaches start x →
      program.table.find? x = program'.table.find? x) :
    compile program = compile program' :=
  compileWith_eq_of_sameFrom {} first first' same

section Sample

/-- The sample among other statements: functions that are not reached, one of them recursive
and one not supported, and an earlier declaration that a later one replaces. -/
def crowdedProgram : Program where
  body := [
    .unsupported "ImportDeclaration"] ++ sampleProgram.body.take 1 ++ [
    .function ⟨some "times", [], .block []⟩,
    .function ⟨some "spin", [.identifier "n"], .block [
      .ret (some (.call (.identifier "spin") [.identifier "n"]))]⟩] ++
    sampleProgram.body.drop 1 ++ [
    .function ⟨some "loop", [], .block [.unsupported "WhileStatement"]⟩]

theorem sampleProgram_refers {f x : String} (refers : sampleProgram.table.Refers f x) :
    f = "main" ∧ x = "times" := by
  obtain ⟨func, found, member⟩ := refers
  have declared := FunctionTable.mem_of_find found
  simp only [Program.table, Program.functions, sampleProgram, List.filterMap_cons,
    List.filterMap_nil, Option.map_some, List.mem_cons, List.not_mem_nil, or_false,
    Prod.mk.injEq] at declared
  rcases declared with ⟨rfl, rfl⟩ | ⟨rfl, rfl⟩
  · have references : x ∈ ["times"] := member
    simpa using references
  · have references : x ∈ ([] : List String) := member
    simp at references

theorem sampleProgram_reaches {x : String} (reached : sampleProgram.table.Reaches "main" x) :
    x = "main" ∨ x = "times" := by
  cases reached with
  | refl => exact .inl rfl
  | tail _ last => exact .inr (sampleProgram_refers last).2

theorem crowdedProgram_compiled :
    sampleProgram.functions.head?.map Prod.fst = some "main" ∧
      crowdedProgram.functions.head?.map Prod.fst = some "main" ∧
      (∀ x, sampleProgram.table.Reaches "main" x →
        sampleProgram.table.find? x = crowdedProgram.table.find? x) ∧
      compile sampleProgram = compile crowdedProgram := by
  have same : ∀ x, sampleProgram.table.Reaches "main" x →
      sampleProgram.table.find? x = crowdedProgram.table.find? x := by
    intro x reached
    rcases sampleProgram_reaches reached with rfl | rfl
    · rfl
    · rfl
  exact ⟨rfl, rfl, same,
    compile_eq_of_same_reached sampleProgram crowdedProgram "main" rfl rfl same⟩

end Sample

section FreeNames

variable {start : String} {table : FunctionTable}

/-- A name that stays as it is: a reference of a reached function that is not declared. -/
def Undeclared (table : FunctionTable) (start x : String) : Prop :=
  table.find? x = none ∧ ∃ g, table.Reaches start g ∧ table.Refers g x

/-- A run beside itself: names that are looked up are references of reached functions, and
those that are free in a term are not declared. -/
def freeNamesSimulation (table : FunctionTable) (start : String) :
    Simulation termTarget termTarget (.ofTable table) (.ofTable table) where
  value bound t u := t = u ∧ t.FreeAmong (Undeclared table start) bound
  names _ x := ∃ g, table.Reaches start g ∧ table.Refers g x
  params _ := True
  shared _ := True
  excused _ := False
  name_value referred missing := by
    refine ⟨rfl, fun x free => .inr ?_⟩
    obtain rfl : x = _ := List.mem_singleton.mp free
    exact ⟨missing, referred⟩
  combinator_value _ c := ⟨rfl, .of_closed (combinator_closed c)⟩
  numeral_value _ n := ⟨rfl, .of_closed (Term.numeral_closed n)⟩
  apply_value {_ _ _ as bs} head others := by
    obtain rfl : as = bs := by
      rw [← List.forall₂_eq_eq_eq]
      exact others.imp fun _ _ value => value.1
    exact ⟨by rw [head.1], head.2.apps fun a member => (List.forall₂_same.mp others a member).2⟩
  function_value _ body := ⟨by rw [body.1], body.2.lams⟩
  closed_value closed _ := ⟨closed.1, closed.2.mono (by simp)⟩
  enter_related {_ ps _ _} _ related := by
    refine Scope.Related.bindParams (related.imp fun t u value => ?_) ps fun x member => ?_
    · exact ⟨value.1, value.2.mono fun x member => List.mem_append_right ps.reverse member⟩
    refine ⟨rfl, fun y free => .inl ?_⟩
    obtain rfl : y = x := List.mem_singleton.mp free
    simp [member]
  enter_contains ps s y := Scope.contains_bindParams s _ ps y
  find_eq _ := rfl
  recursive_eq _ := rfl
  callee_names referred found _ _ refers := by
    obtain ⟨g, reached, last⟩ := referred
    exact ⟨_, reached.tail last, _, found, refers⟩
  callee_params _ _ _ _ := trivial
  shared_unsupported _ := trivial
  shared_noReturn _ := trivial

/-- The names that are free in a compiled term are not declared, and reached functions refer
to them. -/
theorem compileTerm_free {program : Program} {t : Term} {func : Func}
    (entry : entryPoint? program.table = some (start, func))
    (translated : compileTerm program = .ok t) {x : String} (free : x ∈ t.freeVariables) :
    Undeclared program.table start x := by
  have results : (freeNamesSimulation program.table start).Results
      (compileTo termTarget {} program) (compileTo termTarget {} program) := by
    refine Simulation.compileAt_agree _ _ rfl trivial
      (fun f entry _ => Simulation.ofDepth_agree {} trivial _ _ _) fun f found start' => ?_
    rw [entry] at start'
    cases start'
    have declared := find_of_entryPoint entry
    exact ⟨fun y refers => ⟨start, .refl, func, declared, refers⟩, fun _ _ => trivial, le_rfl⟩
  unfold compileTerm compileTermWith at translated
  generalize compileTo termTarget {} program = result at results translated
  cases results with
  | ok _ value =>
    cases translated
    have closed := value.2.lams x (List.mem_eraseDups.mp free)
    exact closed.resolve_left (by simp)
  | error _ => cases translated
  | excused given => exact given.elim

end FreeNames

/-- The free names of a compiled script, read back, are references of functions that the
entry point reaches, and no functions are declared for them. So none are left if reached
functions refer to declared functions only. -/
theorem free_variables_are_references (program : Program) (entry : Entry) (t : Term)
    (wellNamed : program.WellNamed) (compiled : compile program = .ok entry)
    (parsed : Term.parse entry.text = .ok t) :
    ∃ start func, entryPoint? program.table = some (start, func) ∧
      (∀ x ∈ t.freeVariables, program.table.find? x = none ∧
        ∃ g, program.table.Reaches start g ∧ program.table.Refers g x) ∧
      ((∀ g x, program.table.Reaches start g → program.table.Refers g x →
        (program.table.find? x).isSome = true) → t.freeVariables = []) := by
  have translated := compileTerm_of_parse wellNamed compiled parsed
  cases start : entryPoint? program.table with
  | none => simp [compile, compileWith, compileTo, compileAt, start] at compiled
  | some first =>
    obtain ⟨f, func⟩ := first
    have undeclared := fun x => compileTerm_free (x := x) start translated
    refine ⟨f, func, rfl, undeclared, fun wellScoped => ?_⟩
    refine List.eq_nil_iff_forall_not_mem.mpr fun x free => ?_
    obtain ⟨missing, g, reached, refers⟩ := undeclared x free
    have declared := wellScoped g x reached refers
    rw [missing] at declared
    cases declared

theorem sampleTerm_closed :
    sampleProgram.WellNamed ∧ compile sampleProgram = .ok sampleEntry ∧
      Term.parse sampleEntry.text = .ok sampleTerm ∧ sampleTerm.freeVariables = [] := by
  obtain ⟨f, func, _, _, closed⟩ := free_variables_are_references sampleProgram sampleEntry
    sampleTerm sampleProgram_wellNamed sampleProgram_compiled sampleEntry_parsed
  refine ⟨sampleProgram_wellNamed, sampleProgram_compiled, sampleEntry_parsed, closed ?_⟩
  intro g x _ refers
  obtain ⟨-, rfl⟩ := sampleProgram_refers refers
  rfl

end Church
end ChurchScript
