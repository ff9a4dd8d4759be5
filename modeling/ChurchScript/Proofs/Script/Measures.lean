import ChurchScript.Proofs.Term.Lexemes
import ChurchScript.Script.CallGraph

/-!
# Identifiers and nesting of scripts

Every identifier of a script with the role it has there, and the levels of
nesting that a piece of syntax takes. Every expression and every list of
statements is one level.
-/
namespace ChurchScript.Script

/-- What an identifier does where it stands. -/
inductive Role where
  | parameter | declaration | functionName | use
  deriving DecidableEq, Repr

def Pattern.occurrences (role : Role) : Pattern → List (Role × String)
  | .identifier name => [(role, name)]
  | .unsupported _ => []

mutual

def Func.occurrences : Func → List (Role × String)
  | ⟨name, params, body⟩ =>
    name.toList.map (Role.functionName, ·) ++
      (params.flatMap (Pattern.occurrences .parameter) ++ body.occurrences)

def Body.occurrences : Body → List (Role × String)
  | .block statements => statementOccurrences statements
  | .expression result => result.occurrences

def statementOccurrences : List Stmt → List (Role × String)
  | [] => []
  | .function func :: rest => func.occurrences ++ statementOccurrences rest
  | .declare declarators :: rest => declaratorOccurrences declarators ++ statementOccurrences rest
  | .ret none :: rest => statementOccurrences rest
  | .ret (some value) :: rest => value.occurrences ++ statementOccurrences rest
  | .switch discriminant cases :: rest =>
    discriminant.occurrences ++ (caseOccurrences cases ++ statementOccurrences rest)
  | .block body :: rest => statementOccurrences body ++ statementOccurrences rest
  | .empty :: rest => statementOccurrences rest
  | .unsupported _ :: rest => statementOccurrences rest

def declaratorOccurrences : List Declarator → List (Role × String)
  | [] => []
  | ⟨target, none⟩ :: rest => target.occurrences .declaration ++ declaratorOccurrences rest
  | ⟨target, some init⟩ :: rest =>
    target.occurrences .declaration ++ (init.occurrences ++ declaratorOccurrences rest)

def caseOccurrences : List SwitchCase → List (Role × String)
  | [] => []
  | ⟨none, consequent⟩ :: rest => statementOccurrences consequent ++ caseOccurrences rest
  | ⟨some test, consequent⟩ :: rest =>
    test.occurrences ++ (statementOccurrences consequent ++ caseOccurrences rest)

def Expr.occurrences : Expr → List (Role × String)
  | .literal _ => []
  | .identifier name => [(.use, name)]
  | .binary _ left right => left.occurrences ++ right.occurrences
  | .logical _ left right => left.occurrences ++ right.occurrences
  | .unary _ argument => argument.occurrences
  | .call callee arguments => callee.occurrences ++ expressionOccurrences arguments
  | .conditional test consequent alternate =>
    test.occurrences ++ (consequent.occurrences ++ alternate.occurrences)
  | .function func => func.occurrences
  | .member object property _ => object.occurrences ++ property.occurrences
  | .unsupported _ => []

def expressionOccurrences : List Expr → List (Role × String)
  | [] => []
  | e :: rest => e.occurrences ++ expressionOccurrences rest

end

/-- Every identifier of a script is a name of lambda text. -/
def Program.WellNamed (program : Program) : Prop :=
  ∀ o ∈ statementOccurrences program.body, Lexeme.IsName o.2

instance (program : Program) : Decidable program.WellNamed :=
  inferInstanceAs (Decidable (∀ o ∈ statementOccurrences program.body, Lexeme.IsName o.2))

mutual

def Func.nesting : Func → Nat
  | ⟨_, _, body⟩ => body.nesting

def Body.nesting : Body → Nat
  | .block statements => statementNesting statements + 1
  | .expression result => result.nesting

/-- The levels inside a list of statements, which is a level itself. -/
def statementNesting : List Stmt → Nat
  | [] => 0
  | .function func :: rest => max func.nesting (statementNesting rest)
  | .declare declarators :: rest => max (declaratorNesting declarators) (statementNesting rest)
  | .ret none :: rest => statementNesting rest
  | .ret (some value) :: rest => max value.nesting (statementNesting rest)
  | .switch discriminant cases :: rest =>
    max discriminant.nesting (max (caseNesting cases) (statementNesting rest))
  | .block body :: rest => max (statementNesting body + 1) (statementNesting rest)
  | .empty :: rest => statementNesting rest
  | .unsupported _ :: rest => statementNesting rest

def declaratorNesting : List Declarator → Nat
  | [] => 0
  | ⟨_, none⟩ :: rest => declaratorNesting rest
  | ⟨_, some init⟩ :: rest => max init.nesting (declaratorNesting rest)

def caseNesting : List SwitchCase → Nat
  | [] => 0
  | ⟨none, consequent⟩ :: rest => max (statementNesting consequent + 1) (caseNesting rest)
  | ⟨some test, consequent⟩ :: rest =>
    max test.nesting (max (statementNesting consequent + 1) (caseNesting rest))

def Expr.nesting : Expr → Nat
  | .literal _ => 1
  | .identifier _ => 1
  | .binary _ left right => max left.nesting right.nesting + 1
  | .logical _ left right => max left.nesting right.nesting + 1
  | .unary _ argument => argument.nesting + 1
  | .call callee arguments => max callee.nesting (expressionNesting arguments) + 1
  | .conditional test consequent alternate =>
    max test.nesting (max consequent.nesting alternate.nesting) + 1
  | .function func => func.nesting + 1
  | .member object property _ => max object.nesting property.nesting + 1
  | .unsupported _ => 1

def expressionNesting : List Expr → Nat
  | [] => 0
  | e :: rest => max e.nesting (expressionNesting rest)

end

/-- Every expression takes a level. -/
theorem Expr.nesting_pos (e : Expr) : 0 < e.nesting := by
  cases e <;> simp [Expr.nesting]

mutual

/-- What a function refers to is an identifier that it uses. -/
theorem Func.references_occur (func : Func) (locals : List String) {x : String}
    (refers : x ∈ func.references locals) : (.use, x) ∈ func.occurrences := by
  obtain ⟨_, params, body⟩ := func
  have inside := body.references_occur _ (by simpa [Func.references] using refers)
  simp [Func.occurrences, inside]

theorem Body.references_occur (body : Body) (locals : List String) {x : String}
    (refers : x ∈ body.references locals) : (.use, x) ∈ body.occurrences := by
  cases body with
  | block statements =>
    exact statementReferences_occur statements locals (by simpa [Body.references] using refers)
  | expression result =>
    exact result.references_occur locals (by simpa [Body.references] using refers)

theorem statementReferences_occur (statements : List Stmt) (locals : List String) {x : String}
    (refers : x ∈ statementReferences locals statements) :
    (.use, x) ∈ statementOccurrences statements := by
  cases statements with
  | nil => simp [statementReferences] at refers
  | cons first rest =>
    have behind (locals : List String) (refers : x ∈ statementReferences locals rest) :=
      statementReferences_occur rest locals refers
    cases first with
    | function func =>
      have inside := func.references_occur locals (x := x)
      simp only [statementReferences, statementOccurrences, List.mem_append] at refers ⊢
      exact refers.imp inside (behind _)
    | declare declarators =>
      have inside := declaratorReferences_occur declarators locals (x := x)
      simp only [statementReferences, statementOccurrences, List.mem_append] at refers ⊢
      exact refers.imp inside (behind _)
    | ret value =>
      cases value with
      | none => exact behind locals (by simpa [statementReferences] using refers)
      | some value =>
        have inside := value.references_occur locals (by simpa [statementReferences] using refers)
        simp [statementOccurrences, inside]
    | switch discriminant cases =>
      have inside := discriminant.references_occur locals (x := x)
      have insideCases := caseReferences_occur cases locals (x := x)
      simp only [statementReferences, statementOccurrences, List.mem_append, or_assoc] at refers ⊢
      exact refers.imp inside (Or.imp insideCases (behind _))
    | block body =>
      have inside := statementReferences_occur body locals (x := x)
      simp only [statementReferences, statementOccurrences, List.mem_append] at refers ⊢
      exact refers.imp inside (behind _)
    | empty => exact behind locals (by simpa [statementReferences] using refers)
    | unsupported kind => exact behind locals (by simpa [statementReferences] using refers)

theorem declaratorReferences_occur (declarators : List Declarator) (locals : List String)
    {x : String} (refers : x ∈ declaratorReferences locals declarators) :
    (.use, x) ∈ declaratorOccurrences declarators := by
  cases declarators with
  | nil => simp [declaratorReferences] at refers
  | cons first rest =>
    obtain ⟨target, init⟩ := first
    have behind (locals : List String) (refers : x ∈ declaratorReferences locals rest) :=
      declaratorReferences_occur rest locals refers
    cases init with
    | none =>
      have inside := behind locals (by simpa [declaratorReferences] using refers)
      simp [declaratorOccurrences, inside]
    | some init =>
      have inside := init.references_occur locals (x := x)
      simp only [declaratorReferences, declaratorOccurrences, List.mem_append] at refers ⊢
      exact .inr (refers.imp inside (behind _))

theorem caseReferences_occur (cases : List SwitchCase) (locals : List String) {x : String}
    (refers : x ∈ caseReferences locals cases) : (.use, x) ∈ caseOccurrences cases := by
  cases cases with
  | nil => simp [caseReferences] at refers
  | cons first rest =>
    obtain ⟨test, consequent⟩ := first
    have inside := statementReferences_occur consequent locals (x := x)
    have behind := caseReferences_occur rest locals (x := x)
    cases test with
    | none =>
      simp only [caseReferences, caseOccurrences, List.mem_append] at refers ⊢
      exact refers.imp inside behind
    | some test =>
      have insideTest := test.references_occur locals (x := x)
      simp only [caseReferences, caseOccurrences, List.mem_append, or_assoc] at refers ⊢
      exact refers.imp insideTest (Or.imp inside behind)

theorem Expr.references_occur (e : Expr) (locals : List String) {x : String}
    (refers : x ∈ e.references locals) : (.use, x) ∈ e.occurrences := by
  cases e with
  | literal value => simp [Expr.references] at refers
  | identifier name =>
    simp only [Expr.references] at refers
    split at refers
    · simp at refers
    · simpa [Expr.occurrences] using refers
  | binary operator left right =>
    have inLeft := left.references_occur locals (x := x)
    have inRight := right.references_occur locals (x := x)
    simp only [Expr.references, Expr.occurrences, List.mem_append] at refers ⊢
    exact refers.imp inLeft inRight
  | logical operator left right =>
    have inLeft := left.references_occur locals (x := x)
    have inRight := right.references_occur locals (x := x)
    simp only [Expr.references, Expr.occurrences, List.mem_append] at refers ⊢
    exact refers.imp inLeft inRight
  | unary operator argument =>
    exact argument.references_occur locals (by simpa [Expr.references] using refers)
  | call callee arguments =>
    have inCallee := callee.references_occur locals (x := x)
    have inArguments := expressionReferences_occur arguments locals (x := x)
    simp only [Expr.references, Expr.occurrences, List.mem_append] at refers ⊢
    exact refers.imp inCallee inArguments
  | conditional test consequent alternate =>
    have inTest := test.references_occur locals (x := x)
    have inConsequent := consequent.references_occur locals (x := x)
    have inAlternate := alternate.references_occur locals (x := x)
    simp only [Expr.references, Expr.occurrences, List.mem_append, or_assoc] at refers ⊢
    exact refers.imp inTest (Or.imp inConsequent inAlternate)
  | function func => exact func.references_occur locals (by simpa [Expr.references] using refers)
  | member object property computed =>
    have inObject := object.references_occur locals (x := x)
    have inProperty := property.references_occur locals (x := x)
    simp only [Expr.references, Expr.occurrences, List.mem_append] at refers ⊢
    refine refers.imp inObject fun refers => inProperty ?_
    cases computed
    · simp at refers
    · simpa using refers
  | unsupported kind => simp [Expr.references] at refers

theorem expressionReferences_occur (es : List Expr) (locals : List String) {x : String}
    (refers : x ∈ expressionReferences locals es) : (.use, x) ∈ expressionOccurrences es := by
  cases es with
  | nil => simp [expressionReferences] at refers
  | cons first rest =>
    have inFirst := first.references_occur locals (x := x)
    have inRest := expressionReferences_occur rest locals (x := x)
    simp only [expressionReferences, expressionOccurrences, List.mem_append] at refers ⊢
    exact refers.imp inFirst inRest

end

theorem FunctionTable.mem_of_find {table : FunctionTable} {f : String} {func : Func}
    (found : table.find? f = some func) : (f, func) ∈ table.declarations := by
  obtain ⟨before, after, split, _⟩ := List.lookup_eq_some_iff.mp found
  rw [← List.mem_reverse, split]
  simp

theorem occurs_of_function {statements : List Stmt} {func : Func}
    (member : .function func ∈ statements) {o : Role × String} (occurs : o ∈ func.occurrences) :
    o ∈ statementOccurrences statements := by
  induction statements with
  | nil => simp at member
  | cons first rest ih =>
    rcases List.mem_cons.mp member with rfl | later
    · simp [statementOccurrences, occurs]
    · have behind := ih later
      cases first with
      | ret value => cases value <;> simp [statementOccurrences, behind]
      | _ => simp [statementOccurrences, behind]

/-- The identifiers of a declared function are identifiers of the script. -/
theorem Program.occurs_of_find {program : Program} {f : String} {func : Func}
    (found : program.table.find? f = some func) {o : Role × String}
    (occurs : o ∈ func.occurrences) : o ∈ statementOccurrences program.body := by
  have member : (f, func) ∈ program.functions := FunctionTable.mem_of_find found
  obtain ⟨statement, inside, named⟩ := List.mem_filterMap.mp member
  cases statement with
  | function other =>
    obtain ⟨name, _, same⟩ := Option.map_eq_some_iff.mp named
    cases same
    exact occurs_of_function inside occurs
  | _ => simp at named

end ChurchScript.Script
