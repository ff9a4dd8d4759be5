import ChurchScript.Proofs.Term.Grammar
import ChurchScript.Proofs.Term.Tokens

/-!
# Where lambda text is refused

The reader of lambda text refuses a text at the first token that no sentence of the grammar
goes on with (`parse_refuses_first_impossible`). One lemma per reading function says where
it stopped: what it took begins something that the function reads, and its answer is the
same whatever follows the token that it stopped at (`Refused`). The second half also shows
that the token was impossible, since the reader refuses no sentence for its grammar.
-/
namespace ChurchScript

/-- If a computation in two parts fails, so does its first part, or the second on the result
of the first. -/
theorem error_of_bind {α β : Type} {first : Except Error α} {next : α → Except Error β}
    {error : Error} (failure : (first >>= next) = .error error) :
    first = .error error ∨ ∃ value, first = .ok value ∧ next value = .error error := by
  cases first with
  | error e =>
    cases failure
    exact .inl rfl
  | ok value => exact .inr ⟨value, rfl, failure⟩

namespace Term

/-- Tokens that spell a phrase, closed by the end of input. -/
def Sentence (tokens : List Token) : Prop :=
  ∃ inside last, ∃ phrase : Phrase, tokens = inside ++ [last] ∧ Spells inside phrase.lexemes ∧
    last.kind = .endOfInput

/-- Tokens that a sentence begins with. -/
def Viable (tokens : List Token) : Prop :=
  ∃ more, Sentence (tokens ++ more)

/-- The end of input is still ahead. -/
def Ended (tokens : List Token) : Prop :=
  ∃ token ∈ tokens, token.kind = .endOfInput

/-- Lexemes at the front of a phrase. -/
def BeginsPhrase (lexemes : List Lexeme) : Prop :=
  ∃ phrase : Phrase, lexemes <+: phrase.lexemes

def BeginsOperand (lexemes : List Lexeme) : Prop :=
  ∃ operand : Operand, lexemes <+: operand.lexemes

def BeginsOperands (lexemes : List Lexeme) : Prop :=
  ∃ operands : List Operand, lexemes <+: operandLexemes operands

def BeginsBinding (lexemes : List Lexeme) : Prop :=
  ∃ x : String, lexemes <+: [.name x, .dot]

/-- A reader refuses one of the tokens. The tokens before it begin something that the reader
reads, and the tokens behind it have no influence. -/
def Refused {α : Type} (read : List Token → Except Error α) (Begins : List Lexeme → Prop)
    (tokens : List Token) (position : Nat) (expected : Expected) : Prop :=
  ∃ before token after lexemes, tokens = before ++ token :: after ∧ token.position = position ∧
    Spells before lexemes ∧ Begins lexemes ∧
    ∀ other, read (before ++ token :: other) = .error (.parse position expected)

theorem nextKind_before (before : List Token) (token : Token) (after other : List Token) :
    nextKind (before ++ token :: other) = nextKind (before ++ token :: after) := by
  cases before <;> rfl

theorem endsApplication_congr {tokens tokens' : List Token}
    (same : nextKind tokens = nextKind tokens') :
    endsApplication tokens = endsApplication tokens' := by
  rw [endsApplication, endsApplication, same]

theorem exists_spells (lexemes : List Lexeme) : ∃ tokens, Spells tokens lexemes := by
  induction lexemes with
  | nil => exact ⟨[], rfl⟩
  | cons lexeme rest ih =>
    obtain ⟨tokens, spells⟩ := ih
    have token : ∃ token : Token, token.lexeme? = some lexeme := by
      cases lexeme with
      | name x => exact ⟨⟨.name, x, 0⟩, rfl⟩
      | lambda => exact ⟨⟨.lambda, "", 0⟩, rfl⟩
      | dot => exact ⟨⟨.dot, "", 0⟩, rfl⟩
      | openParen => exact ⟨⟨.openParen, "", 0⟩, rfl⟩
      | closeParen => exact ⟨⟨.closeParen, "", 0⟩, rfl⟩
    obtain ⟨token, read⟩ := token
    exact ⟨token :: tokens, by simpa [Spells, read] using spells⟩

namespace Ended

variable {tokens rest : List Token} {lexemes : List Lexeme}

theorem ne_nil (ended : Ended tokens) : tokens ≠ [] := by
  rintro rfl
  obtain ⟨token, member, -⟩ := ended
  cases member

/-- What a reader takes spells lexemes, so the end of input is not among it. -/
theorem behind (ended : Ended tokens) (takes : Takes tokens rest lexemes) : Ended rest := by
  obtain ⟨taken, rfl, spells⟩ := takes
  obtain ⟨token, member, kind⟩ := ended
  rcases List.mem_append.mp member with inside | behind
  · exact absurd kind (spells.kind_ne inside)
  · exact ⟨token, behind, kind⟩

end Ended

namespace Refused

variable {α β : Type} {read : List Token → Except Error α} {read' : List Token → Except Error β}
  {Begins Begins' : List Lexeme → Prop} {tokens rest : List Token} {position : Nat}
  {expected : Expected}

/-- The next token is refused, and nothing taken before it. -/
theorem next {wanted : Expected} (ended : Ended tokens)
    (refused : refuse wanted tokens = (.error (.parse position expected) : Except Error α)) :
    Refused (refuse (α := α) wanted) (· = []) tokens position expected := by
  obtain ⟨token, after, rfl⟩ := List.exists_cons_of_ne_nil ended.ne_nil
  cases refused
  exact ⟨[], token, after, [], rfl, rfl, rfl, rfl, fun other => rfl⟩

/-- A reader that takes some tokens, and then fails where another reader fails. -/
theorem behind {taken : List Token} {lexemes : List Lexeme}
    (refused : Refused read Begins rest position expected) (spells : Spells taken lexemes)
    (fails : ∀ tokens, nextKind tokens = nextKind rest →
      read tokens = .error (.parse position expected) →
      read' (taken ++ tokens) = .error (.parse position expected))
    (begins : ∀ more, Begins more → Begins' (lexemes ++ more)) :
    Refused read' Begins' (taken ++ rest) position expected := by
  obtain ⟨before, token, after, more, rfl, position_eq, spelled, started, same⟩ := refused
  refine ⟨taken ++ before, token, after, lexemes ++ more, by simp, position_eq, ?_,
    begins more started, fun other => ?_⟩
  · rw [Spells, List.map_append, List.map_append, spells, spelled]
  · rw [List.append_assoc]
    exact fails _ (nextKind_before before token after other) (same other)

/-- A reader that fails where another reader fails. -/
theorem also (refused : Refused read Begins tokens position expected)
    (fails : ∀ tokens', nextKind tokens' = nextKind tokens →
      read tokens' = .error (.parse position expected) →
      read' tokens' = .error (.parse position expected))
    (begins : ∀ more, Begins more → Begins' more) :
    Refused read' Begins' tokens position expected := by
  have nothing : Spells [] [] := rfl
  exact refused.behind nothing fails begins

end Refused

section Kinds

variable {tokens : List Token}

theorem boundName_of_kind (other : nextKind tokens ≠ .name) :
    boundName tokens = refuse .boundName tokens := by
  cases tokens with
  | nil => rfl
  | cons token rest =>
    obtain ⟨kind, text, position⟩ := token
    cases kind with
    | name => exact absurd rfl other
    | _ => rfl

theorem boundName_of_dot_kind (x : String) (position : Nat) (other : nextKind tokens ≠ .dot) :
    boundName (⟨.name, x, position⟩ :: tokens) = refuse .dot tokens := by
  cases tokens with
  | nil => rfl
  | cons token rest =>
    obtain ⟨kind, text, position⟩ := token
    cases kind with
    | dot => exact absurd rfl other
    | _ => rfl

theorem operand_of_kind (inner : List Token → Except Error (Term × List Token))
    (name : nextKind tokens ≠ .name) (group : nextKind tokens ≠ .openParen) :
    operand inner tokens = refuse .operand tokens := by
  cases tokens with
  | nil => rfl
  | cons token rest =>
    obtain ⟨kind, text, position⟩ := token
    cases kind with
    | name => exact absurd rfl name
    | openParen => exact absurd rfl group
    | _ => rfl

theorem expression_of_kind (levels : Nat) (other : nextKind tokens ≠ .lambda) :
    expression (levels + 1) tokens = (do
      let (f, rest) ← operand (expression levels) tokens
      arguments levels f rest) := by
  cases tokens with
  | nil => rfl
  | cons token rest =>
    obtain ⟨kind, text, position⟩ := token
    cases kind with
    | lambda => exact absurd rfl other
    | _ => rfl

theorem exists_of_nextKind {kind : Token.Kind} (next : nextKind tokens = kind)
    (inside : kind ≠ .endOfInput) :
    ∃ text position rest, tokens = ⟨kind, text, position⟩ :: rest := by
  cases tokens with
  | nil => exact absurd next.symm inside
  | cons token rest =>
    obtain ⟨kind', text, position⟩ := token
    cases next
    exact ⟨text, position, rest, rfl⟩

end Kinds

section Functions

variable {levels : Nat} {tokens rest : List Token} {position : Nat} {expected : Expected} {f : Term}

/-- A phrase, or what follows the head of one, was read up to a token that ends it. -/
theorem arguments_ends {t : Term} (read : arguments levels f tokens = .ok (t, rest)) :
    endsApplication rest = true := by
  induction levels generalizing f tokens with
  | zero =>
    unfold arguments at read
    split at read
    · cases read
      assumption
    · cases read
  | succ levels ih =>
    unfold arguments at read
    split at read
    · cases read
      assumption
    · obtain ⟨⟨a, behind⟩, -, read⟩ := ok_of_bind read
      exact ih read

theorem expression_ends {t : Term} (read : expression levels tokens = .ok (t, rest)) :
    endsApplication rest = true := by
  induction levels generalizing tokens t with
  | zero =>
    unfold expression at read
    cases read
  | succ levels ih =>
    by_cases lambda : nextKind tokens = .lambda
    · obtain ⟨text, position, behind, rfl⟩ := exists_of_nextKind lambda (by decide)
      unfold expression at read
      obtain ⟨⟨x, afterDot⟩, -, read⟩ := ok_of_bind read
      obtain ⟨⟨body, behind⟩, bodyRead, result⟩ := ok_of_bind read
      cases result
      exact ih bodyRead
    · rw [expression_of_kind levels lambda] at read
      obtain ⟨⟨head, behind⟩, -, read⟩ := ok_of_bind read
      exact arguments_ends read

theorem boundName_refused (ended : Ended tokens)
    (refused : boundName tokens = .error (.parse position expected)) :
    Refused boundName BeginsBinding tokens position expected := by
  by_cases named : nextKind tokens = .name
  · obtain ⟨x, place, rest, rfl⟩ := exists_of_nextKind named (by decide)
    have spells : Spells [⟨.name, x, place⟩] [.name x] := rfl
    have remaining : Ended rest := ended.behind ⟨_, rfl, spells⟩
    by_cases dotted : nextKind rest = .dot
    · obtain ⟨text, dotPlace, behind, rfl⟩ := exists_of_nextKind dotted (by decide)
      cases refused
    · rw [boundName_of_dot_kind x place dotted] at refused
      refine (Refused.next remaining refused).behind spells (fun tokens same failed => ?_) ?_
      · exact (boundName_of_dot_kind x place (same ▸ dotted)).trans failed
      · rintro _ rfl
        exact ⟨x, by simp⟩
  · rw [boundName_of_kind named] at refused
    refine (Refused.next ended refused).also (fun tokens same failed => ?_) ?_
    · exact (boundName_of_kind (same ▸ named)).trans failed
    · rintro _ rfl
      exact ⟨"", List.nil_prefix⟩

theorem boundName_spelled {x : String} {taken : List Token}
    (spells : Spells taken [.name x, .dot]) (rest : List Token) :
    boundName (taken ++ rest) = .ok (x, rest) := by
  obtain ⟨_, _, rfl, named, afterName⟩ := spells.cons_inv
  obtain ⟨_, _, rfl, dot, nothing⟩ := afterName.cons_inv
  obtain ⟨_, rfl⟩ := token_of_name named
  obtain ⟨_, _, rfl⟩ := token_of_lexeme dot
  cases nothing.nil_inv
  rfl

/-- Where the reader of expressions refuses a token, given so many levels. -/
def RefusesPhrases (levels : Nat) : Prop :=
  ∀ {tokens : List Token} {position : Nat} {expected : Expected}, Ended tokens →
    expression levels tokens = .error (.parse position expected) →
    Refused (expression levels) BeginsPhrase tokens position expected

def RefusesOperands (levels : Nat) : Prop :=
  ∀ {f : Term} {tokens : List Token} {position : Nat} {expected : Expected}, Ended tokens →
    arguments levels f tokens = .error (.parse position expected) →
    Refused (arguments levels f) BeginsOperands tokens position expected

theorem BeginsPhrase.group {lexemes : List Lexeme} (begins : BeginsPhrase lexemes) :
    BeginsOperand (.openParen :: lexemes) := by
  obtain ⟨phrase, front⟩ := begins
  exact ⟨.group phrase, (List.prefix_cons_inj _).mpr (front.trans (List.prefix_append _ _))⟩

/-- A phrase in an opening parenthesis that something else than a closing one follows. -/
theorem operand_of_unclosed {phrase : Phrase} {taken : List Token} (text : String) (place : Nat)
    (spells : Spells taken phrase.lexemes) (fits : phrase.levels ≤ levels)
    (ends : endsApplication rest = true) (unclosed : nextKind rest ≠ .closeParen) :
    operand (expression levels) (⟨.openParen, text, place⟩ :: taken ++ rest) =
      refuse .closeParen rest := by
  have inside := expression_spelled phrase spells rest ends levels
  rw [readAs, if_pos fits] at inside
  simp only [List.cons_append, operand, inside, bind, Except.bind]
  cases rest with
  | nil => rfl
  | cons token behind =>
    obtain ⟨kind, text, position⟩ := token
    cases kind with
    | closeParen => exact absurd rfl unclosed
    | _ => rfl

theorem operand_refused (phrases : RefusesPhrases levels) (ended : Ended tokens)
    (refused : operand (expression levels) tokens = .error (.parse position expected)) :
    Refused (operand (expression levels)) BeginsOperand tokens position expected := by
  by_cases named : nextKind tokens = .name
  · obtain ⟨x, place, rest, rfl⟩ := exists_of_nextKind named (by decide)
    cases refused
  by_cases grouped : nextKind tokens = .openParen
  · obtain ⟨text, place, rest, rfl⟩ := exists_of_nextKind grouped (by decide)
    have opening : Spells [⟨.openParen, text, place⟩] [.openParen] := rfl
    have remaining : Ended rest := ended.behind ⟨_, rfl, opening⟩
    rcases error_of_bind refused with inside | ⟨⟨t, behind⟩, inside, unclosed⟩
    · refine (phrases remaining inside).behind opening (fun tokens _ failed => ?_) ?_
      · simp [operand, failed, bind, Except.bind]
      · exact fun more begins => begins.group
    · -- the phrase was read, but no parenthesis closes it
      obtain ⟨phrase, takes, -, fits⟩ := expression_takes inside
      have ends := expression_ends inside
      have last := remaining.behind takes
      obtain ⟨taken, rfl, spells⟩ := takes
      have notClosed : nextKind behind ≠ .closeParen := by
        intro closed
        obtain ⟨_, _, _, rfl⟩ := exists_of_nextKind closed (by decide)
        cases unclosed
      have spellsAll : Spells (⟨.openParen, text, place⟩ :: taken) (.openParen :: phrase.lexemes) :=
        congrArg (_ :: ·) spells
      rw [← List.cons_append, operand_of_unclosed text place spells fits ends notClosed] at refused
      refine (Refused.next last refused).behind spellsAll (fun tokens same failed => ?_) ?_
      · rw [← failed]
        exact operand_of_unclosed text place spells fits
          ((endsApplication_congr same).trans ends) (same ▸ notClosed)
      · rintro _ rfl
        rw [List.append_nil]
        exact BeginsPhrase.group ⟨phrase, List.prefix_rfl⟩
  · rw [operand_of_kind _ named grouped] at refused
    refine (Refused.next ended refused).also (fun tokens same failed => ?_) ?_
    · exact (operand_of_kind _ (same ▸ named) (same ▸ grouped)).trans failed
    · rintro _ rfl
      exact ⟨.name "", List.nil_prefix⟩

theorem refusesOperands_zero : RefusesOperands 0 := by
  intro f tokens position expected _ refused
  unfold arguments at refused
  split at refused <;> cases refused

theorem refusesOperands_succ (phrases : RefusesPhrases levels)
    (operands : RefusesOperands levels) : RefusesOperands (levels + 1) := by
  intro f tokens position expected ended refused
  by_cases ends : endsApplication tokens = true
  · simp [arguments, ends] at refused
  have unfolded {tokens' : List Token} (same : nextKind tokens' = nextKind tokens) :
      arguments (levels + 1) f tokens' = (do
        let (a, rest) ← operand (expression levels) tokens'
        arguments levels (.app f a) rest) := by
    rw [arguments, if_neg (endsApplication_congr same ▸ ends)]
  rw [unfolded rfl] at refused
  rcases error_of_bind refused with first | ⟨⟨a, behind⟩, first, others⟩
  · refine (operand_refused phrases ended first).also (fun tokens same failed => ?_) ?_
    · rw [unfolded same, failed]
      rfl
    · rintro more ⟨operand, front⟩
      exact ⟨[operand], by simpa [operandLexemes] using front⟩
  · obtain ⟨operand, takes, rfl, fits⟩ := operand_takes (reads levels).1 first
    have last := ended.behind takes
    obtain ⟨taken, rfl, spells⟩ := takes
    refine (operands last others).behind spells (fun tokens same failed => ?_) ?_
    · rw [arguments, operand_continues spells, operand_spelled operand spells, readAs, if_pos fits]
      exact failed
    · rintro more ⟨behind, front⟩
      exact ⟨operand :: behind, (List.prefix_append_right_inj _).mpr front⟩

theorem refusesPhrases_succ (phrases : RefusesPhrases levels)
    (operands : RefusesOperands levels) : RefusesPhrases (levels + 1) := by
  intro tokens position expected ended refused
  by_cases lambda : nextKind tokens = .lambda
  · obtain ⟨text, place, rest, rfl⟩ := exists_of_nextKind lambda (by decide)
    have opening : Spells [⟨.lambda, text, place⟩] [.lambda] := rfl
    have remaining : Ended rest := ended.behind ⟨_, rfl, opening⟩
    unfold expression at refused
    rcases error_of_bind refused with binding | ⟨⟨x, afterDot⟩, binding, refused⟩
    · refine (boundName_refused remaining binding).behind opening (fun tokens _ failed => ?_) ?_
      · simp [expression, failed, bind, Except.bind]
      · rintro more ⟨x, front⟩
        refine ⟨.abstraction x (.application (.name x) []), ?_⟩
        exact (List.prefix_cons_inj _).mpr (front.trans (List.prefix_append _ _))
    · rcases error_of_bind refused with body | ⟨_, _, result⟩
      · have takes := boundName_takes binding
        have last := remaining.behind takes
        obtain ⟨taken, rfl, spells⟩ := takes
        have spellsAll : Spells (⟨.lambda, text, place⟩ :: taken) [.lambda, .name x, .dot] :=
          congrArg (_ :: ·) spells
        refine (phrases last body).behind spellsAll (fun tokens _ failed => ?_) ?_
        · simp [expression, boundName_spelled spells, failed, bind, Except.bind]
        · rintro more ⟨phrase, front⟩
          exact ⟨.abstraction x phrase, (List.prefix_append_right_inj _).mpr front⟩
      · cases result
  · rw [expression_of_kind levels lambda] at refused
    rcases error_of_bind refused with head | ⟨⟨f, behind⟩, head, others⟩
    · refine (operand_refused phrases ended head).also (fun tokens same failed => ?_) ?_
      · rw [expression_of_kind levels (same ▸ lambda), failed]
        rfl
      · rintro more ⟨operand, front⟩
        exact ⟨.application operand [], by simpa [Phrase.lexemes, operandLexemes] using front⟩
    · obtain ⟨operand, takes, rfl, fits⟩ := operand_takes (reads levels).1 head
      have last := ended.behind takes
      obtain ⟨taken, rfl, spells⟩ := takes
      refine (operands last others).behind spells (fun tokens same failed => ?_) ?_
      · rw [expression_of_operand spells, operand_spelled operand spells, readAs, if_pos fits]
        exact failed
      · rintro more ⟨behind, front⟩
        exact ⟨.application operand behind, (List.prefix_append_right_inj _).mpr front⟩

/-- The levels are what the reader goes down along, as for what it reads. -/
theorem refuses (levels : Nat) : RefusesPhrases levels ∧ RefusesOperands levels := by
  induction levels with
  | zero =>
    refine ⟨fun _ refused => ?_, refusesOperands_zero⟩
    unfold expression at refused
    cases refused
  | succ levels ih => exact ⟨refusesPhrases_succ ih.1 ih.2, refusesOperands_succ ih.1 ih.2⟩

/-- What is answered to a phrase and what follows it. -/
theorem ofTokens_spelled {phrase : Phrase} {taken : List Token}
    (spells : Spells taken phrase.lexemes) (ends : endsApplication rest = true) :
    ofTokens (taken ++ rest) =
      if phrase.levels ≤ maxDepth then
        if nextKind rest = .endOfInput then .ok phrase.term else refuse .endOfInput rest
      else .error (.nestingTooDeep maxDepth) := by
  simp only [ofTokens, expression_spelled phrase spells rest ends, readAs]
  by_cases fits : phrase.levels ≤ maxDepth
  · simp only [fits, if_true, bind, Except.bind]
    cases nextKind rest <;> rfl
  · simp [fits, bind, Except.bind]

theorem ofTokens_refused (ended : Ended tokens)
    (refused : ofTokens tokens = .error (.parse position expected)) :
    Refused ofTokens BeginsPhrase tokens position expected := by
  rcases error_of_bind refused with read | ⟨⟨t, rest⟩, read, trailing⟩
  · refine ((refuses maxDepth).1 ended read).also (fun tokens _ failed => ?_) fun _ begins => begins
    simp [ofTokens, failed, bind, Except.bind]
  · -- a phrase was read, and it is not all there is
    obtain ⟨phrase, takes, -, fits⟩ := expression_takes read
    have ends := expression_ends read
    have last := ended.behind takes
    obtain ⟨taken, rfl, spells⟩ := takes
    have more : nextKind rest ≠ .endOfInput := by
      intro final
      simp [final, pure, Except.pure] at trailing
    rw [ofTokens_spelled spells ends, if_pos fits, if_neg more] at refused
    refine (Refused.next last refused).behind spells (fun tokens same failed => ?_) ?_
    · rw [ofTokens_spelled spells ((endsApplication_congr same).trans ends), if_pos fits,
        if_neg (same ▸ more), failed]
    · rintro _ rfl
      exact ⟨phrase, (List.append_nil _).symm ▸ List.prefix_rfl⟩

end Functions

/-- Every sentence is read or nested too deeply. -/
theorem Sentence.not_refused {tokens : List Token} (sentence : Sentence tokens) (position : Nat)
    (expected : Expected) : ofTokens tokens ≠ .error (.parse position expected) := by
  obtain ⟨inside, last, phrase, rfl, spells, final⟩ := sentence
  have next : nextKind [last] = .endOfInput := final
  have ends : endsApplication [last] = true := by rw [endsApplication, next]
  rw [ofTokens_spelled spells ends, if_pos next]
  split_ifs <;> simp

theorem BeginsPhrase.viable {tokens : List Token} {lexemes : List Lexeme}
    (begins : BeginsPhrase lexemes) (spells : Spells tokens lexemes) : Viable tokens := by
  obtain ⟨phrase, behind, whole⟩ := begins
  obtain ⟨others, othersSpell⟩ := exists_spells behind
  refine ⟨others ++ [⟨.endOfInput, "", 0⟩], tokens ++ others, ⟨.endOfInput, "", 0⟩, phrase,
    by simp, ?_, rfl⟩
  rw [Spells, List.map_append, spells, othersSpell, ← List.map_append, whole]

theorem tokens_of_scan {source : String} {tokens : List Token}
    (scanned : Token.scan source = .ok tokens) : tokens = Token.ofChars source.toList := by
  unfold Token.scan at scanned
  split at scanned
  · cases scanned
  · exact (Except.ok.inj scanned).symm

theorem ended_ofChars (cs : List Char) : Ended (Token.ofChars cs) :=
  ⟨_, List.mem_append_right _ (List.mem_singleton_self _), rfl⟩

/-- The end of input lies behind all other tokens of a text. -/
theorem position_le_of_mem {cs : List Char} {token : Token} (member : token ∈ Token.ofChars cs) :
    token.position ≤ cs.length := by
  rw [Token.ofChars_eq] at member
  rcases List.mem_append.mp member with inside | last
  · have bounds := Token.position_of_mem inside
    omega
  · rw [List.mem_singleton.mp last]

/-- Where a text is refused for its grammar, there is a token at that position with which no
sentence goes on, the end of input being the end of a sentence, while a sentence begins with
all the tokens before it. What follows that token is not looked at. -/
theorem parse_refuses_first_impossible {source : String} {position : Nat} {expected : Expected}
    (refused : parse source = .error (.parse position expected)) :
    ∃ before token after, Token.scan source = .ok (before ++ token :: after) ∧
      token.position = position ∧ position ≤ source.length ∧
      Viable before ∧ ¬ Viable (before ++ [token]) ∧
      ∀ other, ofTokens (before ++ token :: other) = .error (.parse position expected) := by
  rcases error_of_bind refused with long | ⟨tokens, scanned, refused⟩
  · unfold Token.scan at long
    split at long <;> cases long
  · have all := tokens_of_scan scanned
    obtain ⟨before, token, after, lexemes, rfl, rfl, spells, begins, alike⟩ :=
      ofTokens_refused (all ▸ ended_ofChars source.toList) refused
    have inside : token.position ≤ source.toList.length :=
      position_le_of_mem (all ▸ by simp)
    refine ⟨before, token, after, scanned, rfl, by rwa [String.length_toList] at inside,
      begins.viable spells, ?_, alike⟩
    rintro ⟨more, sentence⟩
    rw [List.append_assoc, List.singleton_append] at sentence
    exact sentence.not_refused _ _ (alike more)

theorem dotInGroup_refused :
    parse "λx.(x y . z)" = .error (.parse 8 .closeParen) ∧
      ∃ before token after, Token.scan "λx.(x y . z)" = .ok (before ++ token :: after) ∧
        token.position = 8 ∧ 8 ≤ "λx.(x y . z)".length ∧
        Viable before ∧ ¬ Viable (before ++ [token]) ∧
        ∀ other, ofTokens (before ++ token :: other) = .error (.parse 8 .closeParen) := by
  have refused : parse "λx.(x y . z)" = .error (.parse 8 .closeParen) := by decide +kernel
  exact ⟨refused, parse_refuses_first_impossible refused⟩

end Term
end ChurchScript
