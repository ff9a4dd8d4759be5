import ChurchScript.Proofs.Church.Runs
import ChurchScript.Proofs.Church.TermTarget

/-!
# Compiled text is read as the compiled term

The invariant of the translation to text: every piece of code is written as one
operand of lambda text, a name or a text in parentheses. What stands around an
operand cannot take a part of it, so code keeps its structure wherever it is put.
-/
namespace ChurchScript.Church

open Script
open Term (Phrase Operand)

/-- Code whose text is spelled by one operand, which stands for the term. -/
def Code.Reads (code : Code) (t : Term) : Prop :=
  ∃ operand : Operand, Lexeme.all code.text.toList = operand.lexemes ∧ operand.term = t

namespace Code.Reads

theorem name {x : String} (named : Lexeme.IsName x) : Reads (.name x) (Term.name x) :=
  ⟨.name x, Lexeme.all_name x named, rfl⟩

theorem combinator (c : Combinator) : Reads (.combinator c) c.term :=
  ⟨.group c.phrase, c.text_spelled, rfl⟩

/-- The phrase of `f(f(…f(x)…))`. -/
def iteratePhrase : Nat → Phrase
  | 0 => .call "x" []
  | n + 1 => .call "f" [.group (iteratePhrase n)]

theorem iterateText_spelled (n : Nat) (after : List Char) :
    Lexeme.all ((iterateText n).toList ++ ')' :: after) =
      (iteratePhrase n).lexemes ++ .closeParen :: Lexeme.all after := by
  induction n generalizing after with
  | zero =>
    rw [iterateText, Lexeme.all_closeParen, Lexeme.all_name "x" (by decide)]
    simp [iteratePhrase, Phrase.call, Phrase.lexemes, Operand.lexemes, Term.operandLexemes]
  | succ n ih =>
    have split : (iterateText (n + 1)).toList ++ ')' :: after =
        "f".toList ++ '(' :: ((iterateText n).toList ++ ')' :: ')' :: after) := by
      simp [iterateText]
    rw [split, Lexeme.all_openParen, Lexeme.all_name "f" (by decide), ih,
      ← List.nil_append (')' :: after), Lexeme.all_closeParen]
    simp [iteratePhrase, Phrase.call, Phrase.lexemes, Operand.lexemes, Term.operandLexemes]

theorem iteratePhrase_term (n : Nat) :
    (iteratePhrase n).term = Term.iterate (Term.name "f") (Term.name "x") n := by
  induction n with
  | zero => rfl
  | succ n ih => exact congrArg (Term.app (Term.name "f")) ih

theorem numeral (n : Nat) : Reads (.numeral n) (Term.numeral n) := by
  refine ⟨.group (.lambdas ["f", "x"] (iteratePhrase n)), ?_, ?_⟩
  · have split : (Code.numeral n).text.toList =
        [] ++ '(' :: ([] ++ 'λ' :: ("f".toList ++ '.' :: ([] ++ 'λ' :: ("x".toList ++
          '.' :: ((iterateText n).toList ++ ')' :: []))))) := by
      simp [Code.text, numeralText]
    rw [split, Lexeme.all_openParen, Lexeme.all_lambda, Lexeme.all_dot, Lexeme.all_lambda,
      Lexeme.all_dot, iterateText_spelled, Lexeme.all_name "f" (by decide),
      Lexeme.all_name "x" (by decide)]
    simp [Operand.lexemes, Phrase.lambdas_lexemes]
  · exact congrArg (fun t => Term.lam "f" (Term.lam "x" t)) (iteratePhrase_term n)

/-- Operands that spell the texts of arguments. -/
theorem arguments {codes : List Code} {terms : List Term} (reads : List.Forall₂ Reads codes terms) :
    ∃ operands : List Operand, operands.map Operand.term = terms ∧ ∀ before after,
      Lexeme.all (before ++ (((Code.texts codes).map (" " ++ ·)).flatMap String.toList ++
        ')' :: after)) = Lexeme.all before ++ (Term.operandLexemes operands ++
          .closeParen :: Lexeme.all after) := by
  induction reads with
  | nil => exact ⟨[], rfl, fun before after => by simp [Code.texts, Term.operandLexemes]⟩
  | @cons code t codes terms first _ ih =>
    obtain ⟨operand, spelled, rfl⟩ := first
    obtain ⟨operands, rfl, others⟩ := ih
    refine ⟨operand :: operands, rfl, fun before after => ?_⟩
    have split : before ++ (((Code.texts (code :: codes)).map (" " ++ ·)).flatMap String.toList ++
        ')' :: after) = before ++ ' ' :: (code.text.toList ++
          (((Code.texts codes).map (" " ++ ·)).flatMap String.toList ++ ')' :: after)) := by
      simp [Code.texts]
    rw [split, Lexeme.all_blank, others, spelled, Term.operandLexemes, List.append_assoc]

theorem apply {head : Code} {f : Term} {codes : List Code} {terms : List Term}
    (reads : Reads head f) (others : List.Forall₂ Reads codes terms) :
    Reads (.apply head codes) (f.apps terms) := by
  obtain ⟨operand, spelled, rfl⟩ := reads
  obtain ⟨operands, rfl, argumentsSpelled⟩ := arguments others
  refine ⟨.group (.application operand operands), ?_, Term.applyOperands_eq _ _⟩
  have split : (Code.apply head codes).text.toList = [] ++ '(' :: (head.text.toList ++
      (((Code.texts codes).map (" " ++ ·)).flatMap String.toList ++ ')' :: [])) := by
    simp [Code.text, applyText]
  rw [split, Lexeme.all_openParen, argumentsSpelled, spelled]
  simp [Operand.lexemes, Phrase.lexemes]

theorem binders_spelled (params : List String) (named : ∀ x ∈ params, Lexeme.IsName x)
    (after : List Char) :
    Lexeme.all ((bindersText params).toList ++ after) =
      params.flatMap (fun x => [.lambda, .name x, .dot]) ++ Lexeme.all after := by
  rw [bindersText, String.toList_join]
  induction params with
  | nil => rfl
  | cons x rest ih =>
    have split : ((x :: rest).map fun x => "λ" ++ x ++ ".").flatMap String.toList ++ after =
        [] ++ 'λ' :: (x.toList ++ '.' ::
          ((rest.map fun x => "λ" ++ x ++ ".").flatMap String.toList ++ after)) := by
      simp
    rw [split, Lexeme.all_lambda, Lexeme.all_dot, Lexeme.all_name x (named x (by simp)),
      ih fun y member => named y (by simp [member])]
    simp

theorem function {params : List String} {body : Code} {t : Term}
    (named : ∀ x ∈ params, Lexeme.IsName x) (reads : Reads body t) :
    Reads (.function params body) (Term.lams params t) := by
  obtain ⟨operand, spelled, rfl⟩ := reads
  refine ⟨.group (.lambdas params (.single operand)), ?_, Phrase.lambdas_term _ _⟩
  have split : (Code.function params body).text.toList =
      [] ++ '(' :: ((bindersText params).toList ++ (body.text.toList ++ ')' :: [])) := by
    simp [Code.text]
  rw [split, Lexeme.all_openParen, binders_spelled params named, Lexeme.all_closeParen, spelled]
  simp [Operand.lexemes, Phrase.lambdas_lexemes]

end Code.Reads

/-- Text and terms side by side: every name that is looked up or bound is a name of
lambda text, and all errors are the same. -/
def readingSimulation (program : Program) (named : program.WellNamed) :
    Simulation Code.target termTarget (.ofTable program.table) (.ofTable program.table) where
  value _ := Code.Reads
  names _ := Lexeme.IsName
  params := Lexeme.IsName
  shared _ := True
  excused _ := False
  name_value named _ := .name named
  combinator_value _ := .combinator
  numeral_value _ := .numeral
  apply_value := .apply
  function_value := .function
  closed_value reads _ := reads
  enter_related params related := related.bindParams _ fun x member => .name (params x member)
  enter_contains ps s y := Scope.contains_bindParams s _ ps y
  find_eq _ := rfl
  recursive_eq _ := rfl
  callee_names _ found _ _ refers :=
    named _ (Program.occurs_of_find found (Func.references_occur _ [] refers))
  callee_params _ found _ occurs := named _ (Program.occurs_of_find found occurs)
  shared_unsupported _ := trivial
  shared_noReturn _ := trivial

/-- The text of a compiled script is spelled by a phrase of the compiled term. -/
theorem compileWith_spelled {settings : Settings} {program : Program} {entry : Entry}
    (named : program.WellNamed) (compiled : compileWith settings program = .ok entry) :
    ∃ t, compileTermWith settings program = .ok t ∧
      ∃ phrase : Phrase, Lexeme.all entry.text.toList = phrase.lexemes ∧ phrase.term = t := by
  have results : (readingSimulation program named).Results (compileWith settings program)
      (compileTo termTarget settings program) := by
    refine Simulation.compileAt_agree _ _ rfl trivial
      (fun f entry _ => Simulation.ofDepth_agree settings trivial _ _ _) (fun f entry found => ?_)
    have declared := find_of_entryPoint found
    exact ⟨fun x refers => named _
        (Program.occurs_of_find declared (Func.references_occur _ [] refers)),
      fun x occurs => named _ (Program.occurs_of_find declared occurs), le_rfl⟩
  unfold compileTermWith
  rw [compiled] at results
  generalize compileTo termTarget settings program = other at results ⊢
  cases results with
  | @ok params body t paramsNamed reads =>
    obtain ⟨operand, spelled, rfl⟩ := reads
    refine ⟨_, rfl, .lambdas params (.single operand), ?_, Phrase.lambdas_term _ _⟩
    rw [Entry.text, String.toList_append, Code.Reads.binders_spelled params paramsNamed, spelled]
    simp [Phrase.lambdas_lexemes]

theorem compile_spelled {program : Program} {entry : Entry} (named : program.WellNamed)
    (compiled : compile program = .ok entry) : ∃ t, compileTerm program = .ok t ∧
      ∃ phrase : Phrase, Lexeme.all entry.text.toList = phrase.lexemes ∧ phrase.term = t :=
  compileWith_spelled named compiled

/-- What the text of a compiled script is read as is the compiled term. -/
theorem compileTermWith_of_parse {settings : Settings} {program : Program} {entry : Entry}
    {t : Term} (named : program.WellNamed) (compiled : compileWith settings program = .ok entry)
    (parsed : Term.parse entry.text = .ok t) : compileTermWith settings program = .ok t := by
  obtain ⟨_, translated, phrase, spelled, rfl⟩ := compileWith_spelled named compiled
  rw [Term.parse_spelled phrase entry.text spelled] at parsed
  split at parsed
  · cases parsed
  · split at parsed
    · cases parsed
      exact translated
    · cases parsed

theorem compileTerm_of_parse {program : Program} {entry : Entry} {t : Term}
    (named : program.WellNamed) (compiled : compile program = .ok entry)
    (parsed : Term.parse entry.text = .ok t) : compileTerm program = .ok t :=
  compileTermWith_of_parse named compiled parsed

/-- Compiling to text and reading the text gives the term that the same translation
gives on terms, unless the text is longer or nested deeper than what is read. -/
theorem parse_compile_eq_compileTerm (program : Program) (entry : Entry)
    (named : program.WellNamed) (compiled : compile program = .ok entry) :
    ∃ t, compileTerm program = .ok t ∧
      (Term.parse entry.text = .ok t ∨
        Token.maxLength < entry.text.length ∧
          Term.parse entry.text = .error (.sourceTooLong entry.text.length Token.maxLength) ∨
        Term.maxDepth < entry.text.length ∧
          Term.parse entry.text = .error (.nestingTooDeep Term.maxDepth)) := by
  obtain ⟨t, translated, phrase, spelled, rfl⟩ := compile_spelled named compiled
  refine ⟨phrase.term, translated, ?_⟩
  have levels : phrase.levels ≤ entry.text.length :=
    phrase.levels_le.trans (spelled ▸ Lexeme.length_all_le _)
  rw [Term.parse_spelled phrase entry.text spelled]
  split
  · exact .inr (.inl ⟨‹_›, rfl⟩)
  · split
    · exact .inl rfl
    · exact .inr (.inr ⟨by omega, rfl⟩)

/-- `main` declares a value and passes it to `times`, which is inlined. -/
def sampleProgram : Program where
  body := [
    .function ⟨some "main", [.identifier "a", .identifier "b", .identifier "p"], .block [
      .declare [⟨.identifier "c", some (.binary .add (.identifier "a") (.identifier "b"))⟩],
      .ret (some (.conditional (.identifier "p")
        (.call (.identifier "times") [.identifier "c", .identifier "b"]) (.identifier "c")))]⟩,
    .function ⟨some "times", [.identifier "x", .identifier "y"], .block [
      .ret (some (.binary .mul (.identifier "x") (.identifier "y")))]⟩]

theorem sampleProgram_graph :
    sampleProgram.table.callGraph = ⟨[("main", ["times"]), ("times", [])]⟩ := by decide +kernel

theorem sampleProgram_declared :
    Declarations.ofTable sampleProgram.table = ⟨sampleProgram.table, []⟩ := by
  simp [Declarations.ofTable, sampleProgram_graph, CallGraph.recursive, CallGraph.reachable,
    CallGraph.nodes, CallGraph.successors, List.lookup_cons]

/-- The body of the sample for any target, given what its parameters stand for. -/
def sampleBody {α : Type} (target : Target α) (a b p : α) : α :=
  let sum := target.use .add [a, b]
  target.use .select [p, target.use .mul [sum, b], sum]

def sampleEntry : Entry :=
  ⟨["a", "b", "p"], sampleBody Code.target (.name "a") (.name "b") (.name "p")⟩

def sampleTerm : Term :=
  .lams ["a", "b", "p"] (sampleBody termTarget (.name "a") (.name "b") (.name "p"))

theorem sampleEntry_parsed : Term.parse sampleEntry.text = .ok sampleTerm := by decide +kernel

theorem sampleProgram_compiled : compile sampleProgram = .ok sampleEntry := by
  rw [compile, compileWith, compileTo, sampleProgram_declared]
  rfl

theorem sampleProgram_wellNamed : sampleProgram.WellNamed := by decide +kernel

theorem parse_compile_sampleProgram :
    sampleProgram.WellNamed ∧ compile sampleProgram = .ok sampleEntry ∧
      ∃ t, compileTerm sampleProgram = .ok t ∧
        (Term.parse sampleEntry.text = .ok t ∨
          Token.maxLength < sampleEntry.text.length ∧ Term.parse sampleEntry.text =
            .error (.sourceTooLong sampleEntry.text.length Token.maxLength) ∨
          Term.maxDepth < sampleEntry.text.length ∧
            Term.parse sampleEntry.text = .error (.nestingTooDeep Term.maxDepth)) :=
  ⟨sampleProgram_wellNamed, sampleProgram_compiled,
    parse_compile_eq_compileTerm sampleProgram sampleEntry sampleProgram_wellNamed
      sampleProgram_compiled⟩

end ChurchScript.Church
