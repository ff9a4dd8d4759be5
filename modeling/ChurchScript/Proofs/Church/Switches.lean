import ChurchScript.Proofs.Church.CaseChain
import ChurchScript.Proofs.Church.Outcomes

/-!
# Switches over numerals

A switch is compiled to a selection for each case, which asks the encoding of equality
whether the case matches. The answer is a truth value only when a number other than zero
is tested for zero, and then it is the wrong one. Otherwise the result of a case is
applied to what the cases behind it select.
-/
namespace ChurchScript.Church

open Script Skeleton

section Compiling

variable {α : Type} (target : Target α) (below : Level α) (scope : Scope α)

/-- An expression that is compiled to a numeral and keeps no function. -/
def CompilesToNumeral (e : Expr) (n : Nat) : Prop :=
  ∀ kept, (below.expression scope e).run kept = .ok (target.numeral n, kept)

/-- The cases that test for a number and give back a value, with the numbers and the
values. Cases are compiled from the last to the first, each with the functions that the
cases behind it kept. -/
inductive Links : List SwitchCase → Kept α → List (Nat × α) → Kept α → Prop
  | nil {kept : Kept α} : Links [] kept [] kept
  | untested {case : SwitchCase} {cases : List SwitchCase} {kept kept' : Kept α}
    {links : List (Nat × α)} : case.test = none → Links cases kept links kept' →
    Links (case :: cases) kept links kept'
  | valueless {case : SwitchCase} {cases : List SwitchCase} {kept kept' kept'' : Kept α}
    {links : List (Nat × α)} {test : Expr} {n : Nat} : case.test = some test →
    CompilesToNumeral target below scope test n → Links cases kept links kept' →
    (Level.caseValue below scope case).run kept' = .ok (none, kept'') →
    Links (case :: cases) kept links kept''
  | link {case : SwitchCase} {cases : List SwitchCase} {kept kept' kept'' : Kept α}
    {links : List (Nat × α)} {test : Expr} {n : Nat} {result : α} : case.test = some test →
    CompilesToNumeral target below scope test n → Links cases kept links kept' →
    (Level.caseValue below scope case).run kept' = .ok (some result, kept'') →
    Links (case :: cases) kept ((n, result) :: links) kept''

/-- A switch of a number over cases that test for numbers, with the value of its default
case if that gives one back. -/
structure SwitchOver (discriminant : Expr) (cases : List SwitchCase) (kept kept' : Kept α)
    (m : Nat) (links : List (Nat × α)) (default : Option α) : Prop where
  discriminant : CompilesToNumeral target below scope discriminant m
  cases : ∃ middle, (Level.defaultValue below scope cases).run kept = .ok (default, middle) ∧
    Links target below scope cases middle links kept'

/-- The chain over cases that test for numbers. -/
def selections (m : Nat) (links : List (Nat × α)) (default : Option α) : Option α :=
  chain? target (target.numeral m) (links.map fun link => (target.numeral link.1, some link.2))
    default

variable {target below scope} {cases : List SwitchCase} {kept kept' : Kept α} {m : Nat}
  {links : List (Nat × α)} {default : Option α}

theorem run_bind {A B : Type} {x : Compile α A} {f : A → Compile α B} {a : A}
    (first : x.run kept = .ok (a, kept')) : (x >>= f).run kept = (f a).run kept' := by
  rw [StateT.run_bind, first]
  rfl

/-- The cases that give back a value are the ones that are linked. -/
theorem testedCases_run (compiled : Links target below scope cases kept links kept') :
    ∃ outcomes, (testedCases below scope cases).run kept = .ok (outcomes, kept') ∧
      returning outcomes = links.map fun link => (target.numeral link.1, link.2) := by
  induction compiled with
  | nil => exact ⟨[], rfl, rfl⟩
  | untested untested _ ih =>
    obtain ⟨outcomes, tested, values⟩ := ih
    refine ⟨outcomes, ?_, values⟩
    rw [testedCases, run_bind tested, untested]
    rfl
  | @valueless _ _ _ _ _ _ _ n tests numeral _ value ih =>
    obtain ⟨outcomes, tested, values⟩ := ih
    refine ⟨(target.numeral n, none) :: outcomes, ?_, values⟩
    rw [testedCases, run_bind tested, tests]
    simp only
    rw [run_bind (numeral _), run_bind value]
    rfl
  | @link _ _ _ _ _ _ _ n result tests numeral _ value ih =>
    obtain ⟨outcomes, tested, values⟩ := ih
    refine ⟨(target.numeral n, some result) :: outcomes, ?_, congrArg (List.cons _) values⟩
    rw [testedCases, run_bind tested, tests]
    simp only
    rw [run_bind (numeral _), run_bind value]
    rfl

theorem switch_run {discriminant : Expr}
    (parts : SwitchOver target below scope discriminant cases kept kept' m links default) :
    (Level.switch target below discriminant cases scope).run kept =
      .ok (selections target m links default, kept') := by
  obtain ⟨middle, given, compiled⟩ := parts.cases
  obtain ⟨outcomes, tested, values⟩ := testedCases_run compiled
  have linked : returning (links.map fun link => (target.numeral link.1, some link.2)) =
      returning outcomes := by
    rw [values, returning, List.filterMap_map, ← List.filterMap_eq_map]
    rfl
  rw [switch_eq_chain, run_bind (parts.discriminant kept), run_bind given, run_bind tested,
    selections, chain?_congr linked]
  rfl

@[simp] theorem selections_nil : selections target m [] default = default := by
  cases default <;> rfl

theorem selections_cons (link : Nat × α) :
    selections target m (link :: links) default =
      some (target.use .select [target.use .eq [target.numeral m, target.numeral link.1], link.2,
        (selections target m links default).getD target.zero]) :=
  chain?_cons _ _

theorem selections_eq_none_iff :
    selections target m links default = none ↔ links = [] ∧ default = none := by
  cases links with
  | nil => simp
  | cons link links => simp [selections_cons]

/-- A level that is not the last compiles the literals of numbers. -/
theorem literal_compiles (settings : Settings) (declared : Declarations) (depth : Nat)
    {value : Binary64} {n : Nat} (natural : IsNatural value n) (small : n ≤ Term.maxNumeral) :
    CompilesToNumeral target (Level.ofDepth target settings declared (depth + 1)) scope
      (.literal (.number value)) n := by
  have encoded : literal target (.number value) = target.numeral n := by
    simp only [literal, toNatUpTo_of_isNatural natural small]
  intro kept
  change Except.ok (literal target _, kept) = _
  rw [encoded]

end Compiling

section Reading

/-- A case whose result is read as a term. -/
def ReadsLink (link : Nat × Code) (read : Nat × Term) : Prop :=
  link.1 = read.1 ∧ link.2.Reads read.2

theorem selections_reads {codes : List (Nat × Code)} {links : List (Nat × Term)}
    {base : Option Code} {default : Option Term} (each : List.Forall₂ ReadsLink codes links)
    (innermost : Option.Rel Code.Reads base default) (m : Nat) :
    Option.Rel Code.Reads (selections Code.target m codes base)
      (selections termTarget m links default) := by
  induction each with
  | nil => simpa using innermost
  | @cons link read codes links first _ ih =>
    obtain ⟨same, value⟩ := first
    have remainder : ((selections Code.target m codes base).getD Code.target.zero).Reads
        ((selections termTarget m links default).getD termTarget.zero) := by
      generalize selections Code.target m codes base = folded at ih
      generalize selections termTarget m links default = folded' at ih
      cases ih with
      | some reads => exact reads
      | none => exact .numeral 0
    have equal := use_reads .eq (.cons (.numeral m) (.cons (.numeral link.1) .nil))
    rw [same] at equal
    rw [selections_cons, selections_cons, same]
    refine .some ?_
    exact use_reads .select (.cons equal (.cons value (.cons remainder .nil)))

end Reading

/-- A function of three parameters that applies the first to the others. -/
theorem select_apps_reduces (p a b : Skeleton) :
    Reduces (Combinator.select.skeleton.apps [p, a, b]) (app (app p a) b) := by
  rw [select_skeleton]
  have first : Reduces (app (lams 3 (app (app (bound 2) (bound 1)) (bound 0))) p)
      (lams 2 (app (app ((p.shift 0).shift 0) (bound 1)) (bound 0))) := Reduces.beta rfl
  have second : Reduces (app (lams 2 (app (app ((p.shift 0).shift 0) (bound 1)) (bound 0))) a)
      (lams 1 (app (app (p.shift 0) (a.shift 0)) (bound 0))) := by
    apply Reduces.beta
    rw [shift_shift p (Nat.le_refl 0)]
    simp [lams, subst]
  have third : Reduces (app (lams 1 (app (app (p.shift 0) (a.shift 0)) (bound 0))) b)
      (app (app p a) b) := by
    apply Reduces.beta
    simp [lams, subst]
  exact (Reduces.app ((first.app .refl).trans second) .refl).trans third

/-- What a switch of a number reduces to. -/
def switchOutcome (m : Nat) (links : List (Nat × Skeleton)) (base : Skeleton) : Skeleton :=
  links.foldr (fun link rest => if 0 < m ∧ link.1 = 0 then link.2 else app link.2 rest) base

theorem selection_reduces (I : Interpretation) (m n : Nat) (t rest : Term) :
    Reduces (I.denote (termTarget.use .select
        [termTarget.use .eq [termTarget.numeral m, termTarget.numeral n], t, rest]))
      (if 0 < m ∧ n = 0 then I.denote t else app (I.denote t) (I.denote rest)) := by
  have equal := use_numerals_reduces I .eq m n (eq_reduces m n)
  rw [Interpretation.denote_use]
  refine (select_apps_reduces _ _ _).trans (((equal.app .refl).app .refl).trans ?_)
  by_cases passed : 0 < m ∧ n = 0
  · simp only [equalOutcome, if_pos passed]
    exact boolean_apps_reduces true _ _
  · simp only [equalOutcome, if_neg passed]
    exact (identity_reduces _).app .refl

theorem selections_reduces (I : Interpretation) (m : Nat) (links : List (Nat × Term))
    (default : Option Term) :
    Reduces (I.denote ((selections termTarget m links default).getD termTarget.zero))
      (switchOutcome m (links.map fun link => (link.1, I.denote link.2))
        (I.denote (default.getD termTarget.zero))) := by
  induction links with
  | nil =>
    rw [selections_nil]
    exact .refl
  | cons link rest ih =>
    rw [selections_cons, Option.getD_some]
    refine (selection_reduces I m link.1 link.2 _).trans ?_
    by_cases passed : 0 < m ∧ link.1 = 0
    · simp only [switchOutcome, List.map_cons, List.foldr_cons, if_pos passed]
      exact .refl
    · simp only [switchOutcome, List.map_cons, List.foldr_cons, if_neg passed]
      exact Reduces.app .refl ih

section FirstMatch

/-- The result of the first case that tests for the number. -/
def firstMatch (m : Nat) (links : List (Nat × Term)) (default : Term) : Term :=
  links.foldr (fun link rest => if link.1 = m then link.2 else rest) default

/-- Results that are names, no two of them the same. -/
def DistinctNames (links : List (Nat × Term)) (default : Term) : Prop :=
  (∀ t ∈ links.map Prod.snd ++ [default], ∃ x, t = Term.name x) ∧
    (links.map Prod.snd ++ [default]).Nodup

variable {m : Nat} {links : List (Nat × Term)} {default : Term}

theorem firstMatch_mem (m : Nat) (links : List (Nat × Term)) (default : Term) :
    firstMatch m links default ∈ links.map Prod.snd ++ [default] := by
  induction links with
  | nil => simp [firstMatch]
  | cons link rest ih =>
    by_cases here : link.1 = m
    · simp [firstMatch, here]
    · simp only [firstMatch, List.foldr_cons, if_neg here, List.map_cons, List.cons_append]
      exact List.mem_cons_of_mem _ ih

theorem switchOutcome_normal {links : List (Nat × Skeleton)} {base : Skeleton}
    (heads : ∀ link ∈ links, link.2.isAbs = false ∧ link.2.Normal) (innermost : base.Normal) :
    (switchOutcome m links base).Normal := by
  induction links with
  | nil => exact innermost
  | cons link rest ih =>
    obtain ⟨head, normal⟩ := heads link (by simp)
    have behind := ih fun other member => heads other (by simp [member])
    by_cases passed : 0 < m ∧ link.1 = 0
    · simp only [switchOutcome, List.foldr_cons, if_pos passed]
      exact normal
    · simp only [switchOutcome, List.foldr_cons, if_neg passed]
      exact ⟨head, normal, behind⟩

theorem switchOutcome_ne_firstMatch (distinct : DistinctNames links default) (some : links ≠ []) :
    switchOutcome m (links.map fun link => (link.1, link.2.nameless [])) (default.nameless []) ≠
      (firstMatch m links default).nameless [] := by
  obtain ⟨names, nodup⟩ := distinct
  intro same
  obtain ⟨x, matched⟩ := names _ (firstMatch_mem m links default)
  cases links with
  | nil => exact some rfl
  | cons link rest =>
    by_cases passed : 0 < m ∧ link.1 = 0
    · -- The first result comes out, and the match is one of the others.
      have later : firstMatch m (link :: rest) default = firstMatch m rest default := by
        simp only [firstMatch, List.foldr_cons]
        rw [if_neg (by omega)]
      obtain ⟨y, first⟩ := names link.2 (by simp)
      simp only [switchOutcome, List.map_cons, List.foldr_cons, if_pos passed] at same
      have equal : link.2 = firstMatch m rest default := by
        rw [← later, matched, first]
        rw [matched, first] at same
        exact congrArg Term.name (by simpa [Term.nameless] using same)
      exact (List.nodup_cons.mp nodup).1 (equal ▸ firstMatch_mem m rest default)
    · simp only [switchOutcome, List.map_cons, List.foldr_cons, if_neg passed] at same
      rw [matched] at same
      simp [Term.nameless] at same

/-- With distinct names as results, only a switch without cases comes to its first match. -/
theorem firstMatch_reduces_iff {start : Skeleton} (distinct : DistinctNames links default)
    (reduces : Reduces start (switchOutcome m
      (links.map fun link => (link.1, link.2.resolve.skeleton)) default.resolve.skeleton)) :
    Reduces start (firstMatch m links default).resolve.skeleton ↔ links = [] := by
  have free (t : Term) (member : t ∈ links.map Prod.snd ++ [default]) :
      (t.nameless []).isAbs = false ∧ (t.nameless []).Normal := by
    obtain ⟨x, rfl⟩ := distinct.1 t member
    exact ⟨rfl, trivial⟩
  constructor
  · simp only [Term.resolve_skeleton] at reduces ⊢
    intro matched
    by_contra some
    refine switchOutcome_ne_firstMatch distinct some
      (Skeleton.Normal.unique ?_ ?_ reduces matched)
    · refine switchOutcome_normal ?_ (free default (by simp)).2
      intro link member
      obtain ⟨other, inside, rfl⟩ := List.mem_map.mp member
      exact free other.2 (List.mem_append_left _ (List.mem_map_of_mem inside))
    · exact (free _ (firstMatch_mem m links default)).2
  · rintro rfl
    exact reduces

end FirstMatch

/-- The text of a switch, read back. -/
theorem switch_text {m : Nat} {codes : List (Nat × Code)} {links : List (Nat × Term)}
    {base : Option Code} {default : Option Term} {code : Code}
    (each : List.Forall₂ ReadsLink codes links) (innermost : Option.Rel Code.Reads base default)
    (given : selections Code.target m codes base = some code) :
    ∃ t, ReadBack code t ∧ Reduces t.resolve.skeleton
      (switchOutcome m (links.map fun link => (link.1, link.2.resolve.skeleton))
        (default.getD termTarget.zero).resolve.skeleton) := by
  have reads := selections_reads each innermost m
  have reduces := selections_reduces (.ofArguments [] []) m links default
  rw [given] at reads
  generalize selections termTarget m links default = selected at reads reduces
  cases reads with
  | @some _ t read =>
    refine ⟨t, readBack_of_reads read, ?_⟩
    simp only [Term.resolve_skeleton]
    exact reduces

section Sample

def numberExpr (n : Nat) : Expr := .literal (.number (.finite false (n * Binary64.one)))

/-- Gives back the name `x`. -/
def nameCase (test : Option Expr) (x : String) : SwitchCase := ⟨test, [.ret (some (.identifier x))]⟩

def sampleCases : List SwitchCase :=
  [nameCase (some (numberExpr 1)) "one", nameCase (some (numberExpr 2)) "two",
    nameCase none "other"]

def sampleLevel : Level Code := Level.ofDepth Code.target {} ⟨⟨[]⟩, []⟩ 2

theorem sampleLevel_number {n : Nat} (small : n ≤ Term.maxNumeral) :
    CompilesToNumeral Code.target sampleLevel {} (numberExpr n) n :=
  literal_compiles {} _ 1 ⟨rfl, .inl rfl⟩ small

theorem sampleLevel_value (test : Option Expr) (x : String) :
    (Level.caseValue sampleLevel {} (nameCase test x)).run {} = .ok (some (.name x), {}) := rfl

/-- Two cases and a default. -/
theorem sampleSwitch {m : Nat} (small : m ≤ Term.maxNumeral) :
    SwitchOver Code.target sampleLevel {} (numberExpr m) sampleCases {} {} m
      [(1, .name "one"), (2, .name "two")] (some (.name "other")) where
  discriminant := sampleLevel_number small
  cases := by
    refine ⟨_, sampleLevel_value none "other", ?_⟩
    refine .link rfl (sampleLevel_number (by decide)) ?_ (sampleLevel_value _ "one")
    refine .link rfl (sampleLevel_number (by decide)) ?_ (sampleLevel_value _ "two")
    exact .untested rfl .nil

def sampleLinks : List (Nat × Term) := [(1, .name "one"), (2, .name "two")]

theorem sampleLinks_read :
    List.Forall₂ ReadsLink [(1, .name "one"), (2, .name "two")] sampleLinks :=
  .cons ⟨rfl, .name (by decide)⟩ (.cons ⟨rfl, .name (by decide)⟩ .nil)

theorem sampleLinks_distinct : DistinctNames sampleLinks (.name "other") := by
  refine ⟨?_, by decide⟩
  intro t member
  simp only [sampleLinks, List.map_cons, List.map_nil, List.cons_append, List.nil_append,
    List.mem_cons, List.not_mem_nil, or_false] at member
  rcases member with rfl | rfl | rfl <;> exact ⟨_, rfl⟩

theorem sampleCombinators_short :
    ∀ c ∈ [Combinator.sub, .eq, .lt, .select], c.text.length ≤ 64 := by
  decide +kernel

theorem samplePair_short {c : Combinator} (short : c.text.length ≤ 64) (m n : Nat)
    (small : m ≤ Term.maxNumeral ∧ n ≤ Term.maxNumeral) :
    (Code.target.use c [.numeral m, .numeral n]).text.length ≤ Term.maxDepth := by
  have limits : Term.maxNumeral = 100 ∧ Term.maxDepth = 2048 := ⟨rfl, rfl⟩
  simp only [use_length, argumentsLength, Code.text, numeralText_length]
  omega

theorem sampleSelections_short {m : Nat} (small : m ≤ Term.maxNumeral) {code : Code}
    (given : selections Code.target m [(1, .name "one"), (2, .name "two")]
      (some (.name "other")) = some code) : code.text.length ≤ Term.maxDepth := by
  have equal := sampleCombinators_short .eq (by simp)
  have select := sampleCombinators_short .select (by simp)
  have names : "one".length = 3 ∧ "two".length = 3 ∧ "other".length = 5 := by decide
  have limits : Term.maxNumeral = 100 ∧ Term.maxDepth = 2048 := ⟨rfl, rfl⟩
  have numeral : Code.target.numeral = Code.numeral := rfl
  rw [selections_cons, selections_cons, selections_nil] at given
  cases given
  simp only [use_length, argumentsLength, numeral, Code.text, numeralText_length,
    Option.getD_some]
  omega

end Sample

/-- What the encodings of operators and switches reduce to, and when that is their value.
Sums and products are computed, quotients where they are zero, and comparisons where both
numbers are; differences and equations never. A switch whose results are names comes to
the result of its first match only if it has no cases. -/
theorem operators_and_switches_reduce (m : Nat) :
    (∀ op n s, outcome? op m n = some s →
      ∃ code t, binary Code.target op (.numeral m) (.numeral n) = .ok code ∧ ReadBack code t ∧
        Reduces t.resolve.skeleton s ∧ ∀ v, op.value? m n = some v →
          (Reduces t.resolve.skeleton v.term.resolve.skeleton ↔ op.Computed m n)) ∧
    ∀ below scope discriminant cases kept kept' codes base links default,
      SwitchOver Code.target below scope discriminant cases kept kept' m codes base →
      List.Forall₂ ReadsLink codes links → Option.Rel Code.Reads base default →
      ∃ folded, (Level.switch Code.target below discriminant cases scope).run kept =
          .ok (folded, kept') ∧
        (folded = none ↔ codes = [] ∧ base = none) ∧
        ∀ code, folded = some code → ∃ t, ReadBack code t ∧
          Reduces t.resolve.skeleton
            (switchOutcome m (links.map fun link => (link.1, link.2.resolve.skeleton))
              (default.getD termTarget.zero).resolve.skeleton) ∧
          (DistinctNames links (default.getD termTarget.zero) →
            (Reduces t.resolve.skeleton
              (firstMatch m links (default.getD termTarget.zero)).resolve.skeleton ↔
                links = [])) := by
  constructor
  · intro op n s outcome
    obtain ⟨code, t, compiled, read, reduces⟩ := binary_text outcome
    exact ⟨code, t, compiled, read, reduces, fun v => outcome_reduces_iff outcome reduces⟩
  · intro below scope discriminant cases kept kept' codes base links default parts each innermost
    refine ⟨_, switch_run parts, selections_eq_none_iff, fun code given => ?_⟩
    obtain ⟨t, read, reduces⟩ := switch_text each innermost given
    exact ⟨t, read, reduces, fun distinct => firstMatch_reduces_iff distinct reduces⟩

theorem operators_and_switches_sample :
    (∃ code t, binary Code.target .lt (.numeral 0) (.numeral 0) = .ok code ∧
      Term.parse code.text = .ok t ∧
      Reduces t.resolve.skeleton (Value.boolean false).term.resolve.skeleton) ∧
    ∃ code t, (Level.switch Code.target sampleLevel (numberExpr 2) sampleCases {}).run {} =
        .ok (some code, {}) ∧
      Term.parse code.text = .ok t ∧
      ¬ Reduces t.resolve.skeleton (Term.name "two").resolve.skeleton := by
  constructor
  · obtain ⟨code, t, compiled, read, _, computed⟩ :=
      (operators_and_switches_reduce 0).1 .lt 0 _ rfl
    cases compiled
    have short := samplePair_short (sampleCombinators_short .lt (by simp)) 0 0 (by decide)
    exact ⟨_, t, rfl, read.2 short, (computed _ rfl).mpr ⟨rfl, rfl⟩⟩
  · obtain ⟨_, run, _, reads⟩ := (operators_and_switches_reduce 2).2 _ _ _ _ _ _ _ _
      sampleLinks (some (.name "other")) (sampleSwitch (by decide)) sampleLinks_read
      (.some (.name (by decide)))
    cases run.symm.trans (switch_run (sampleSwitch (by decide)))
    obtain ⟨t, read, _, missed⟩ := reads _ rfl
    exact ⟨_, t, run, read.2 (sampleSelections_short (by decide) rfl),
      (missed sampleLinks_distinct).not.mpr (by decide)⟩

/-- Three take away one is not two, and a switch of three over one and two does not come
to its default. -/
theorem difference_and_default_missed :
    (∃ code t, binary Code.target .sub (.numeral 3) (.numeral 1) = .ok code ∧
      Term.parse code.text = .ok t ∧
      ¬ Reduces t.resolve.skeleton (Value.number 2).term.resolve.skeleton) ∧
    ∃ code t, (Level.switch Code.target sampleLevel (numberExpr 3) sampleCases {}).run {} =
        .ok (some code, {}) ∧
      Term.parse code.text = .ok t ∧
      Reduces t.resolve.skeleton (app (free "one") (app (free "two") (free "other"))) ∧
      ¬ Reduces t.resolve.skeleton (Term.name "other").resolve.skeleton := by
  constructor
  · obtain ⟨s, outcome⟩ : ∃ s, outcome? .sub 3 1 = some s := ⟨_, rfl⟩
    have value : BinaryOperator.sub.value? 3 1 = some (.number 2) := rfl
    obtain ⟨code, t, compiled, read, reduces⟩ := binary_text outcome
    cases compiled
    have short := samplePair_short (sampleCombinators_short .sub (by simp)) 3 1 (by decide)
    exact ⟨_, t, rfl, read.2 short, (outcome_reduces_iff outcome reduces value).not.mpr not_false⟩
  · have other : Option.Rel Code.Reads (some (.name "other")) (some (.name "other")) :=
      .some (.name (by decide))
    obtain ⟨t, read, reduces⟩ := switch_text sampleLinks_read other
      (rfl : selections Code.target 3 _ _ = some _)
    exact ⟨_, t, switch_run (sampleSwitch (by decide)),
      read.2 (sampleSelections_short (by decide) rfl), reduces,
      (firstMatch_reduces_iff sampleLinks_distinct reduces).not.mpr (by decide)⟩

end ChurchScript.Church
