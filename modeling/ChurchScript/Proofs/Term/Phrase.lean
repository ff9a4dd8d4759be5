import ChurchScript.Proofs.Term.Lexemes
import ChurchScript.Term.Parser

/-!
# Phrases of lambda text

A phrase is a derivation in the grammar of lambda text: an abstraction, or an
application of an operand to operands, where an operand is a name or a phrase in
parentheses. The reader of lambda text, given the lexemes of a phrase, answers
with the term of the phrase, or refuses it for its nesting and nothing else.
-/
namespace ChurchScript.Term

mutual

inductive Phrase where
  | abstraction (x : String) (body : Phrase)
  | application (head : Operand) (arguments : List Operand)

inductive Operand where
  | name (x : String)
  | group (inner : Phrase)

end

mutual

def Phrase.lexemes : Phrase → List Lexeme
  | .abstraction x body => .lambda :: .name x :: .dot :: body.lexemes
  | .application head arguments => head.lexemes ++ operandLexemes arguments

def Operand.lexemes : Operand → List Lexeme
  | .name x => [.name x]
  | .group inner => .openParen :: (inner.lexemes ++ [.closeParen])

def operandLexemes : List Operand → List Lexeme
  | [] => []
  | operand :: rest => operand.lexemes ++ operandLexemes rest

end

mutual

def Phrase.term : Phrase → Term
  | .abstraction x body => lam x body.term
  | .application head arguments => applyOperands head.term arguments

def Operand.term : Operand → Term
  | .name x => Term.name x
  | .group inner => inner.term

/-- Application associates to the left. -/
def applyOperands (f : Term) : List Operand → Term
  | [] => f
  | operand :: rest => applyOperands (.app f operand.term) rest

end

mutual

/-- The levels of nesting that reading a phrase takes. -/
def Phrase.levels : Phrase → Nat
  | .abstraction _ body => body.levels + 1
  | .application head arguments => max head.levels (operandLevels arguments) + 1

def Operand.levels : Operand → Nat
  | .name _ => 0
  | .group inner => inner.levels

/-- Every further argument of an application lies one level deeper. -/
def operandLevels : List Operand → Nat
  | [] => 0
  | operand :: rest => max operand.levels (operandLevels rest) + 1

end

/-- Tokens that spell the given lexemes. -/
def Spells (tokens : List Token) (lexemes : List Lexeme) : Prop :=
  tokens.map Token.lexeme? = lexemes.map some

theorem Spells.append_inv {tokens : List Token} {left right : List Lexeme}
    (spells : Spells tokens (left ++ right)) :
    ∃ before after, tokens = before ++ after ∧ Spells before left ∧ Spells after right := by
  rw [Spells, List.map_append] at spells
  exact List.map_eq_append_iff.mp spells

theorem Spells.cons_inv {tokens : List Token} {lexeme : Lexeme} {lexemes : List Lexeme}
    (spells : Spells tokens (lexeme :: lexemes)) :
    ∃ token rest, tokens = token :: rest ∧ token.lexeme? = some lexeme ∧ Spells rest lexemes := by
  rw [Spells, List.map_cons] at spells
  exact List.map_eq_cons_iff.mp spells

theorem Spells.nil_inv {tokens : List Token} (spells : Spells tokens []) : tokens = [] := by
  simpa [Spells] using spells

/-- The kind of token that spells a lexeme. -/
@[simp] def kindOf : Lexeme → Token.Kind
  | .lambda => .lambda
  | .dot => .dot
  | .openParen => .openParen
  | .closeParen => .closeParen
  | .name _ => .name

theorem token_of_lexeme {token : Token} {lexeme : Lexeme} (read : token.lexeme? = some lexeme) :
    ∃ text position, token = ⟨kindOf lexeme, text, position⟩ := by
  obtain ⟨kind, text, position⟩ := token
  cases kind <;> cases read <;> exact ⟨text, position, rfl⟩

theorem token_of_name {token : Token} {x : String} (read : token.lexeme? = some (.name x)) :
    ∃ position, token = ⟨.name, x, position⟩ := by
  obtain ⟨text, position, rfl⟩ := token_of_lexeme read
  cases read
  exact ⟨position, rfl⟩

/-- What the reader answers to a phrase that takes a number of levels, where so many
are left. -/
def readAs (t : Term) (needed levels : Nat) (rest : List Token) :
    Except Error (Term × List Token) :=
  if needed ≤ levels then .ok (t, rest) else .error (.nestingTooDeep maxDepth)

/-- An application goes on before an operand. -/
theorem operand_continues {operand : Operand} {tokens : List Token}
    (spells : Spells tokens operand.lexemes) (rest : List Token) :
    endsApplication (tokens ++ rest) = false := by
  cases operand with
  | name x =>
    obtain ⟨token, others, rfl, read, -⟩ := spells.cons_inv
    obtain ⟨position, rfl⟩ := token_of_name read
    rfl
  | group inner =>
    obtain ⟨token, others, rfl, read, -⟩ := spells.cons_inv
    obtain ⟨text, position, rfl⟩ := token_of_lexeme read
    rfl

/-- An operand starts no abstraction. -/
theorem expression_of_operand {operand : Operand} {tokens : List Token}
    (spells : Spells tokens operand.lexemes) (levels : Nat) (rest : List Token) :
    expression (levels + 1) (tokens ++ rest) = (do
      let (f, rest) ← Term.operand (expression levels) (tokens ++ rest)
      arguments levels f rest) := by
  cases operand with
  | name x =>
    obtain ⟨token, others, rfl, read, -⟩ := spells.cons_inv
    obtain ⟨position, rfl⟩ := token_of_name read
    rfl
  | group inner =>
    obtain ⟨token, others, rfl, read, -⟩ := spells.cons_inv
    obtain ⟨text, position, rfl⟩ := token_of_lexeme read
    rfl

mutual

/-- Reading the tokens of a phrase, before tokens that end an application. -/
theorem expression_spelled (phrase : Phrase) {tokens : List Token}
    (spells : Spells tokens phrase.lexemes) (rest : List Token)
    (ends : endsApplication rest = true) (levels : Nat) :
    expression levels (tokens ++ rest) = readAs phrase.term phrase.levels levels rest := by
  cases levels with
  | zero => cases phrase <;> simp [expression, readAs, Phrase.levels]
  | succ levels =>
    cases phrase with
    | abstraction x body =>
      obtain ⟨_, _, rfl, lambda, afterLambda⟩ := spells.cons_inv
      obtain ⟨_, _, rfl, named, afterName⟩ := afterLambda.cons_inv
      obtain ⟨_, _, rfl, dot, bodySpells⟩ := afterName.cons_inv
      obtain ⟨_, _, rfl⟩ := token_of_lexeme lambda
      obtain ⟨_, rfl⟩ := token_of_name named
      obtain ⟨_, _, rfl⟩ := token_of_lexeme dot
      have body_read := expression_spelled body bodySpells rest ends levels
      simp only [List.cons_append, kindOf, expression, boundName, bind, Except.bind, body_read]
      by_cases fits : body.levels ≤ levels
      · simp [readAs, Phrase.levels, Phrase.term, fits, pure, Except.pure]
      · simp [readAs, Phrase.levels, fits]
    | application head args =>
      obtain ⟨first, others, rfl, firstSpells, othersSpell⟩ := spells.append_inv
      have head_read := operand_spelled head firstSpells (others ++ rest) levels
      rw [List.append_assoc, expression_of_operand firstSpells, head_read]
      have deeper : (Phrase.application head args).levels ≤ levels + 1 ↔
          head.levels ≤ levels ∧ operandLevels args ≤ levels := by
        rw [Phrase.levels]
        omega
      by_cases fits : head.levels ≤ levels
      · have args_read := arguments_spelled args head.term othersSpell rest ends levels
        simp only [readAs, deeper, fits, true_and, if_true, bind, Except.bind, args_read, Phrase.term]
      · simp only [readAs, deeper, fits, false_and, if_false, bind, Except.bind]

/-- Reading the tokens of an operand, before any tokens. -/
theorem operand_spelled (operand : Operand) {tokens : List Token}
    (spells : Spells tokens operand.lexemes) (rest : List Token) (levels : Nat) :
    Term.operand (expression levels) (tokens ++ rest) =
      readAs operand.term operand.levels levels rest := by
  cases operand with
  | name x =>
    obtain ⟨_, others, rfl, read, nothing⟩ := spells.cons_inv
    obtain ⟨_, rfl⟩ := token_of_name read
    cases nothing.nil_inv
    simp [Term.operand, readAs, Operand.levels, Operand.term]
  | group inner =>
    obtain ⟨_, others, rfl, opening, afterOpening⟩ := spells.cons_inv
    obtain ⟨inside, closing, rfl, insideSpells, closingSpells⟩ := afterOpening.append_inv
    obtain ⟨_, others, rfl, closed, nothing⟩ := closingSpells.cons_inv
    obtain ⟨_, _, rfl⟩ := token_of_lexeme opening
    obtain ⟨text, position, rfl⟩ := token_of_lexeme closed
    cases nothing.nil_inv
    have inner_read := expression_spelled inner insideSpells
      (⟨.closeParen, text, position⟩ :: rest) rfl levels
    simp only [List.cons_append, List.append_assoc, kindOf, Term.operand, List.nil_append,
      inner_read]
    by_cases fits : inner.levels ≤ levels
    · simp [readAs, fits, Operand.levels, Operand.term, bind, Except.bind]
    · simp [readAs, fits, Operand.levels, bind, Except.bind]

/-- Reading the tokens of the arguments that follow `f`. -/
theorem arguments_spelled (args : List Operand) (f : Term) {tokens : List Token}
    (spells : Spells tokens (operandLexemes args)) (rest : List Token)
    (ends : endsApplication rest = true) (levels : Nat) :
    arguments levels f (tokens ++ rest) =
      readAs (applyOperands f args) (operandLevels args) levels rest := by
  cases args with
  | nil =>
    cases spells.nil_inv
    cases levels <;> simp [arguments, ends, readAs, operandLevels, applyOperands]
  | cons operand others =>
    obtain ⟨first, remaining, rfl, firstSpells, othersSpell⟩ := spells.append_inv
    have continues := operand_continues firstSpells (remaining ++ rest)
    rw [List.append_assoc]
    cases levels with
    | zero => simp [arguments, continues, readAs, operandLevels]
    | succ levels =>
      have first_read := operand_spelled operand firstSpells (remaining ++ rest) levels
      simp only [arguments, continues, first_read, Bool.false_eq_true, if_false]
      have deeper : operandLevels (operand :: others) ≤ levels + 1 ↔
          operand.levels ≤ levels ∧ operandLevels others ≤ levels := by
        rw [operandLevels]
        omega
      by_cases fits : operand.levels ≤ levels
      · have others_read :=
          arguments_spelled others (.app f operand.term) othersSpell rest ends levels
        simp only [readAs, deeper, fits, true_and, if_true, bind, Except.bind, others_read,
          applyOperands]
      · simp only [readAs, deeper, fits, false_and, if_false, bind, Except.bind]

end

mutual

/-- Every level of nesting is opened by a lexeme of its own. -/
theorem Phrase.levels_le (phrase : Phrase) : phrase.levels ≤ phrase.lexemes.length := by
  cases phrase with
  | abstraction x body =>
    have inner := body.levels_le
    simp only [Phrase.levels, Phrase.lexemes, List.length_cons]
    omega
  | application head others =>
    have first := head.levels_lt
    have behind := operandLevels_le others
    simp only [Phrase.levels, Phrase.lexemes, List.length_append]
    omega

theorem Operand.levels_lt (operand : Operand) : operand.levels < operand.lexemes.length := by
  cases operand with
  | name x => simp [Operand.levels, Operand.lexemes]
  | group inner =>
    have inside := inner.levels_le
    simp only [Operand.levels, Operand.lexemes, List.length_cons, List.length_append]
    omega

theorem operandLevels_le (operands : List Operand) :
    operandLevels operands ≤ (operandLexemes operands).length := by
  cases operands with
  | nil => simp [operandLevels]
  | cons operand others =>
    have first := operand.levels_lt
    have behind := operandLevels_le others
    simp only [operandLevels, operandLexemes, List.length_append]
    omega

end

/-- A text that a phrase spells is too long, or nested too deeply, or read as the
term of the phrase. -/
theorem parse_spelled (phrase : Phrase) (source : String)
    (spelled : Lexeme.all source.toList = phrase.lexemes) :
    parse source =
      if source.length > Token.maxLength then
        .error (.sourceTooLong source.length Token.maxLength)
      else if phrase.levels ≤ maxDepth then .ok phrase.term
      else .error (.nestingTooDeep maxDepth) := by
  by_cases long : source.length > Token.maxLength
  · simp [parse, Token.scan, long, bind, Except.bind]
  · obtain ⟨tokens, scanned, spells⟩ := Token.ofChars_lexemes source.toList
    rw [spelled] at spells
    have read := expression_spelled phrase spells [⟨.endOfInput, "", source.toList.length⟩] rfl
      maxDepth
    simp only [parse, Token.scan, if_neg long, bind, Except.bind, scanned, ofTokens, read, readAs]
    by_cases fits : phrase.levels ≤ maxDepth
    · simp [fits, nextKind, pure, Except.pure]
    · simp [fits]

end ChurchScript.Term
