import ChurchScript.Proofs.Church.Reading
import ChurchScript.Proofs.Term.Skeleton

/-!
# Capture

The hygienic translation of a script works on De Bruijn terms: what a scope binds
is shifted whenever it is placed under a further abstraction, so that every variable
stays with the abstraction it comes from. The terms keep the names of the script
beside the indices. The compiled text is the hygienic term written by its names
alone, without any renaming, and this section says when nothing is lost by that.
-/
namespace ChurchScript.Church

open Script

/-- De Bruijn terms that remember the names they were written with. -/
inductive Hygienic where
  | free (x : String)
  | bound (x : String) (index : Nat)
  | abs (x : String) (body : Hygienic)
  | app (function argument : Hygienic)
  deriving DecidableEq, Repr

namespace Hygienic

/-- Makes room for one more abstraction around the outermost `cutoff` ones. -/
def shift (cutoff : Nat) : Hygienic → Hygienic
  | free x => free x
  | bound x index => bound x (if index < cutoff then index else index + 1)
  | abs x body => abs x (body.shift (cutoff + 1))
  | app f a => app (f.shift cutoff) (a.shift cutoff)

/-- A term below abstractions of the given names, innermost first. -/
def ofTerm (names : List String) : Term → Hygienic
  | .var x _ _ => if x ∈ names then bound x (names.idxOf x) else free x
  | .abs x _ body => abs x (ofTerm (x :: names) body)
  | .app f a => app (ofTerm names f) (ofTerm names a)

/-- The scope under an abstraction: what was bound before is shifted. -/
def underBinder (scope : Scope Hygienic) (x : String) : Scope Hygienic :=
  (scope.map (shift 0)).bind x (bound x 0)

def target : Target Hygienic where
  name := free
  combinator c := ofTerm [] c.term
  numeral n := ofTerm [] (Term.numeral n)
  apply f arguments := arguments.foldl app f
  function params body := params.foldr abs body
  enter params scope := params.foldl underBinder scope

/-- The term with the names as they are and the indices left out. -/
def named : Hygienic → Term
  | free x => Term.name x
  | bound x _ => Term.name x
  | abs x body => Term.lam x body.named
  | app f a => .app f.named a.named

/-- The term with the names of abstractions left out. -/
def skeleton : Hygienic → Skeleton
  | free x => .free x
  | bound _ index => .bound index
  | abs _ body => .abs body.skeleton
  | app f a => .app f.skeleton a.skeleton

/-- Below abstractions of the given names, every bound variable has the name of its
abstraction. -/
def Bound (names : List String) : Hygienic → Prop
  | free _ => True
  | bound x index => names[index]? = some x
  | abs x body => body.Bound (x :: names)
  | app f a => f.Bound names ∧ a.Bound names

/-- Below abstractions of the given names, some variable stands inside an abstraction
of its name that is not its own: between a bound variable and its abstraction, or
anywhere around a free variable. -/
def Captured (names : List String) : Hygienic → Prop
  | free x => x ∈ names
  | bound x index => x ∈ names.take index
  | abs x body => body.Captured (x :: names)
  | app f a => f.Captured names ∨ a.Captured names

instance Captured.decidable (names : List String) : ∀ h : Hygienic, Decidable (h.Captured names)
  | free x => inferInstanceAs (Decidable (x ∈ names))
  | bound x index => inferInstanceAs (Decidable (x ∈ names.take index))
  | abs x body => Captured.decidable (x :: names) body
  | app f a =>
    have := Captured.decidable names f
    have := Captured.decidable names a
    inferInstanceAs (Decidable (_ ∨ _))

section Names

@[simp] theorem named_shift (h : Hygienic) (cutoff : Nat) : (h.shift cutoff).named = h.named := by
  induction h generalizing cutoff with
  | free x => rfl
  | bound x index => rfl
  | abs x body ih => simp [shift, named, ih]
  | app f a ihf iha => simp [shift, named, ihf, iha]

theorem named_lams (params : List String) (body : Hygienic) :
    (params.foldr abs body).named = Term.lams params body.named := by
  induction params with
  | nil => rfl
  | cons x rest ih => exact congrArg (Term.lam x) ih

theorem named_combinator (c : Combinator) : (target.combinator c).named = c.term := by
  cases c <;> rfl

theorem named_numeral (n : Nat) : (target.numeral n).named = Term.numeral n := by
  have inner : (ofTerm ["x", "f"] (Term.iterate (Term.name "f") (Term.name "x") n)).named =
      Term.iterate (Term.name "f") (Term.name "x") n := by
    induction n with
    | zero => rfl
    | succ n ih => exact congrArg (Term.app (Term.name "f")) ih
  exact congrArg (fun body => Term.lam "f" (Term.lam "x" body)) inner

end Names

section Binding

theorem shift_bound (h : Hygienic) (inner outer : List String) (x : String)
    (binds : h.Bound (inner ++ outer)) : (h.shift inner.length).Bound (inner ++ x :: outer) := by
  induction h generalizing inner with
  | free y => trivial
  | bound y index =>
    simp only [Bound, Hygienic.shift] at binds ⊢
    by_cases inside : index < inner.length
    · rw [if_pos inside, List.getElem?_append_left inside]
      rwa [List.getElem?_append_left inside] at binds
    · rw [List.getElem?_append_right (by omega)] at binds
      rw [if_neg inside, List.getElem?_append_right (by omega),
        Nat.succ_sub (by omega), List.getElem?_cons_succ]
      exact binds
  | abs y body ih => exact ih (y :: inner) binds
  | app f a ihf iha => exact ⟨ihf inner binds.1, iha inner binds.2⟩

theorem bound_append (h : Hygienic) (names outer : List String) (binds : h.Bound names) :
    h.Bound (names ++ outer) := by
  induction h generalizing names with
  | free x => trivial
  | bound x index =>
    have inside : index < names.length := (List.getElem?_eq_some_iff.mp binds).1
    rwa [Bound, List.getElem?_append_left inside]
  | abs x body ih => exact ih (x :: names) binds
  | app f a ihf iha => exact ⟨ihf names binds.1, iha names binds.2⟩

theorem ofTerm_bound (t : Term) (names : List String) : (ofTerm names t).Bound names := by
  induction t generalizing names with
  | var x index binder =>
    unfold ofTerm
    split
    · exact List.getElem?_idxOf ‹_›
    · trivial
  | abs x binder body ih => exact ih (x :: names)
  | app f a ihf iha => exact ⟨ihf names, iha names⟩

theorem lams_bound (params names : List String) (body : Hygienic)
    (binds : body.Bound (params.reverse ++ names)) : (params.foldr abs body).Bound names := by
  induction params generalizing names with
  | nil => exact binds
  | cons x rest ih =>
    rw [List.reverse_cons, List.append_assoc] at binds
    exact ih (x :: names) binds

end Binding

/-- A variable of the written term belongs to the nearest abstraction of its name,
which is its own exactly when it is not captured. -/
theorem nameless_named_iff {h : Hygienic} {names : List String} (binds : h.Bound names) :
    h.named.nameless names = h.skeleton ↔ ¬ h.Captured names := by
  induction h generalizing names with
  | free x =>
    by_cases inside : x ∈ names
    · simp [named, Term.nameless, skeleton, Captured, inside]
    · simp [named, Term.nameless, skeleton, Captured, inside]
  | bound x index =>
    have nearest : x ∈ names.take (index + 1) := by
      rw [List.take_add_one, binds]
      simp
    have inside : x ∈ names := List.mem_of_mem_take nearest
    rw [List.mem_take_iff_idxOf_lt inside] at nearest
    simp only [named, Term.nameless, if_pos inside, skeleton, Captured, Skeleton.bound.injEq,
      List.mem_take_iff_idxOf_lt inside]
    omega
  | abs x body ih => simpa [named, Term.nameless, skeleton, Captured] using ih binds
  | app f a ihf iha =>
    simp [named, Term.nameless, skeleton, Captured, ihf binds.1, iha binds.2]

end Hygienic

/-- The hygienic translation of a script. -/
def compileHygienicWith (settings : Settings) (program : Program) : Except Error Hygienic :=
  (fun entry => entry.params.foldr .abs entry.body) <$> compileTo Hygienic.target settings program

def compileHygienic (program : Program) : Except Error Hygienic :=
  compileHygienicWith {} program

/-- A term and a hygienic term that is written as it. -/
def Writes (names : List String) (t : Term) (h : Hygienic) : Prop :=
  h.named = t ∧ h.Bound names

theorem Writes.underBinder {names : List String} {s : Scope Term} {s' : Scope Hygienic}
    (related : s.Related (Writes names) s') (x : String) :
    (s.bind x (Term.name x)).Related (Writes (x :: names)) (Hygienic.underBinder s' x) := by
  have shifted : s.Related (Writes (x :: names)) (s'.map (Hygienic.shift 0)) := by
    intro y
    have found := related y
    rw [Scope.lookup_map]
    generalize s.lookup y = here at found ⊢
    generalize s'.lookup y = there at found ⊢
    cases found with
    | none => exact .none
    | some writes =>
      exact .some ⟨(Hygienic.named_shift _ 0).trans writes.1,
        Hygienic.shift_bound _ [] names x writes.2⟩
  exact shifted.bind x ⟨rfl, rfl⟩

theorem Writes.enter {names : List String} {s : Scope Term} {s' : Scope Hygienic}
    (related : s.Related (Writes names) s') (params : List String) :
    (s.bindParams Term.name params).Related (Writes (params.reverse ++ names))
      (params.foldl Hygienic.underBinder s') := by
  induction params generalizing names s s' with
  | nil => exact related
  | cons x rest ih =>
    rw [List.reverse_cons, List.append_assoc]
    exact ih (Writes.underBinder related x)

theorem Writes.apply {names : List String} {t : Term} {h : Hygienic} {terms : List Term}
    {arguments : List Hygienic} (head : Writes names t h)
    (others : List.Forall₂ (Writes names) terms arguments) :
    Writes names (t.apps terms) (arguments.foldl .app h) := by
  induction others generalizing t h with
  | nil => exact head
  | cons first _ ih =>
    exact ih ⟨congrArg₂ Term.app head.1 first.1, head.2, first.2⟩

theorem Writes.function {names params : List String} {t : Term} {h : Hygienic}
    (body : Writes (params.reverse ++ names) t h) :
    Writes names (Term.lams params t) (params.foldr .abs h) :=
  ⟨body.1 ▸ Hygienic.named_lams params h, Hygienic.lams_bound params names h body.2⟩

/-- Terms and hygienic terms side by side. No name is excluded and all errors are the
same. -/
def hygieneSimulation (table : FunctionTable) :
    Simulation termTarget Hygienic.target (.ofTable table) (.ofTable table) where
  value := Writes
  names _ _ := True
  params _ := True
  shared _ := True
  excused _ := False
  name_value _ _ := ⟨rfl, trivial⟩
  combinator_value names c :=
    ⟨Hygienic.named_combinator c, Hygienic.bound_append _ [] names (Hygienic.ofTerm_bound _ [])⟩
  numeral_value names n :=
    ⟨Hygienic.named_numeral n, Hygienic.bound_append _ [] names (Hygienic.ofTerm_bound _ [])⟩
  apply_value := Writes.apply
  function_value _ := Writes.function
  closed_value writes names := ⟨writes.1, Hygienic.bound_append _ [] names writes.2⟩
  enter_related _ related := Writes.enter related _
  enter_contains ps s y := Scope.contains_bindParams s _ ps y
  find_eq _ := rfl
  recursive_eq _ := rfl
  callee_names _ _ _ _ _ := trivial
  callee_params _ _ _ _ := trivial
  shared_unsupported _ := trivial
  shared_noReturn _ := trivial

/-- A script that compiles has a hygienic translation, and the compiled term is that
translation written by its names. -/
theorem compileTermWith_writes {settings : Settings} {program : Program} {t : Term}
    (translated : compileTermWith settings program = .ok t) :
    ∃ h, compileHygienicWith settings program = .ok h ∧ Writes [] t h := by
  have results : (hygieneSimulation program.table).Results (compileTo termTarget settings program)
      (compileTo Hygienic.target settings program) :=
    Simulation.compileAt_agree _ _ rfl trivial
      (fun f entry _ => Simulation.ofDepth_agree settings trivial _ _ _)
      (fun f entry _ => ⟨fun _ _ => trivial, fun _ _ => trivial, le_rfl⟩)
  unfold compileTermWith at translated
  unfold compileHygienicWith
  generalize compileTo termTarget settings program = left at results translated
  generalize compileTo Hygienic.target settings program = right at results ⊢
  cases results with
  | ok _ writes =>
    cases translated
    exact ⟨_, rfl, writes.function⟩
  | error _ => cases translated
  | excused given => exact given.elim

theorem compileTerm_writes {program : Program} {t : Term}
    (translated : compileTerm program = .ok t) :
    ∃ h, compileHygienic program = .ok h ∧ Writes [] t h :=
  compileTermWith_writes translated

/-- The text of a compiled script reads as the hygienic translation written by its
names, and every variable is bound by the abstraction it comes from exactly when none
of them was placed inside another abstraction of its name. -/
theorem resolve_skeleton_iff_not_captured (program : Program) (entry : Entry) (t : Term)
    (wellNamed : program.WellNamed) (compiled : compile program = .ok entry)
    (parsed : Term.parse entry.text = .ok t) :
    ∃ h, compileHygienic program = .ok h ∧ h.named = t ∧ h.Bound [] ∧
      (t.resolve.skeleton = h.skeleton ↔ ¬ h.Captured []) := by
  have translated := compileTerm_of_parse wellNamed compiled parsed
  obtain ⟨h, hygienic, rfl, binds⟩ := compileTerm_writes translated
  refine ⟨h, hygienic, rfl, binds, ?_⟩
  rw [Term.resolve_skeleton]
  exact Hygienic.nameless_named_iff binds

def sampleHygienic : Hygienic :=
  .abs "a" (.abs "b" (.abs "p"
    (sampleBody Hygienic.target (.bound "a" 2) (.bound "b" 1) (.bound "p" 0))))

theorem sampleProgram_hygienic : compileHygienic sampleProgram = .ok sampleHygienic := by
  rw [compileHygienic, compileHygienicWith, compileTo, sampleProgram_declared]
  rfl

/-- Nothing is captured in the sample. -/
theorem resolve_skeleton_sampleProgram :
    sampleProgram.WellNamed ∧ compile sampleProgram = .ok sampleEntry ∧
      Term.parse sampleEntry.text = .ok sampleTerm ∧
      compileHygienic sampleProgram = .ok sampleHygienic ∧
      sampleTerm.resolve.skeleton = sampleHygienic.skeleton := by
  obtain ⟨h, hygienic, _, _, exactly⟩ := resolve_skeleton_iff_not_captured sampleProgram
    sampleEntry sampleTerm sampleProgram_wellNamed sampleProgram_compiled sampleEntry_parsed
  rw [sampleProgram_hygienic] at hygienic
  cases hygienic
  exact ⟨sampleProgram_wellNamed, sampleProgram_compiled, sampleEntry_parsed,
    sampleProgram_hygienic, exactly.mpr (by decide)⟩

/-- A declared value that is its parameter, under a function with a parameter of the
same name. -/
def captureProgram : Program where
  body := [.function ⟨some "f", [.identifier "y"], .block [
    .declare [⟨.identifier "c", some (.identifier "y")⟩],
    .ret (some (.function ⟨none, [.identifier "y"], .expression (.identifier "c")⟩))]⟩]

/-- The outer parameter is captured by the inner one. -/
theorem captureProgram_captures :
    captureProgram.WellNamed ∧
      compile captureProgram = .ok ⟨["y"], .function ["y"] (.name "y")⟩ ∧
      Term.parse (Entry.text ⟨["y"], .function ["y"] (.name "y")⟩) =
        .ok (.lam "y" (.lam "y" (.name "y"))) ∧
      compileHygienic captureProgram = .ok (.abs "y" (.abs "y" (.bound "y" 1))) ∧
      (Term.lam "y" (.lam "y" (.name "y"))).resolve.skeleton ≠
        (Hygienic.abs "y" (.abs "y" (.bound "y" 1))).skeleton := by
  refine ⟨by decide +kernel, rfl, by decide +kernel, rfl, by decide⟩

end ChurchScript.Church
