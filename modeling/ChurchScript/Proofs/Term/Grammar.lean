import ChurchScript.Proofs.Term.Phrase

/-!
# The grammar of lambda text

The reader of lambda text against its grammar, in both directions. What the reader
takes from the tokens spells a phrase with the term and within the levels that it
reads with (`expression_takes`), and no tokens spell two phrases
(`Phrase.lexemes_cancel`). Levels are counted from the outside here: the whole
phrase stands at level one, the body of an abstraction one level below it, the
`i`-th argument of an application `i` levels below it, and what stands in
parentheses one level below the operand that it is.
-/
namespace ChurchScript.Term

mutual

/-- The deepest level inside a phrase that stands at the given level. -/
def Phrase.deepestFrom (level : Nat) : Phrase → Nat
  | .abstraction _ body => body.deepestFrom (level + 1)
  | .application head arguments =>
    max (head.deepestFrom level) (deepestArgument level arguments)

def Operand.deepestFrom (level : Nat) : Operand → Nat
  | .name _ => level
  | .group inner => inner.deepestFrom (level + 1)

/-- The deepest level inside the arguments that follow what stands at the given
level, each one level below the one before it. -/
def deepestArgument (level : Nat) : List Operand → Nat
  | [] => level
  | operand :: rest => max (operand.deepestFrom (level + 1)) (deepestArgument (level + 1) rest)

end

mutual

/-- The levels that reading takes, counted from the outside. -/
theorem Phrase.deepestFrom_eq (phrase : Phrase) (level : Nat) :
    phrase.deepestFrom (level + 1) = level + phrase.levels := by
  cases phrase with
  | abstraction x body =>
    have inner := body.deepestFrom_eq (level + 1)
    simp only [Phrase.deepestFrom, Phrase.levels]
    omega
  | application head others =>
    have first := head.deepestFrom_eq (level + 1)
    have behind := deepestArgument_eq others (level + 1)
    simp only [Phrase.deepestFrom, Phrase.levels]
    omega

theorem Operand.deepestFrom_eq (operand : Operand) (level : Nat) :
    operand.deepestFrom level = level + operand.levels := by
  cases operand with
  | name x => rfl
  | group inner => exact inner.deepestFrom_eq level

theorem deepestArgument_eq (operands : List Operand) (level : Nat) :
    deepestArgument level operands = level + operandLevels operands := by
  cases operands with
  | nil => rfl
  | cons operand others =>
    have first := operand.deepestFrom_eq (level + 1)
    have behind := deepestArgument_eq others (level + 1)
    simp only [deepestArgument, operandLevels]
    omega

end

/-- The tokens in front of the rest spell the lexemes. -/
def Takes (tokens rest : List Token) (lexemes : List Lexeme) : Prop :=
  ∃ taken, tokens = taken ++ rest ∧ Spells taken lexemes

namespace Takes

theorem none (tokens : List Token) : Takes tokens tokens [] :=
  ⟨[], rfl, rfl⟩

theorem token {token : Token} {lexeme : Lexeme} (read : token.lexeme? = some lexeme)
    (rest : List Token) : Takes (token :: rest) rest [lexeme] :=
  ⟨[token], rfl, by simp [Spells, read]⟩

theorem append {tokens middle rest : List Token} {first second : List Lexeme}
    (before : Takes tokens middle first) (after : Takes middle rest second) :
    Takes tokens rest (first ++ second) := by
  obtain ⟨left, rfl, leftSpells⟩ := before
  obtain ⟨right, rfl, rightSpells⟩ := after
  refine ⟨left ++ right, by rw [List.append_assoc], ?_⟩
  rw [Spells, List.map_append, List.map_append, leftSpells, rightSpells]

end Takes

section Reading

variable {levels : Nat} {tokens rest : List Token} {t : Term}

theorem boundName_takes {x : String} (read : boundName tokens = .ok (x, rest)) :
    Takes tokens rest [.name x, .dot] := by
  unfold boundName at read
  split at read
  · split at read
    · cases read
      exact (Takes.token rfl _).append (Takes.token rfl _)
    · cases read
  · cases read

/-- What the reader of expressions took with the given levels is a phrase. -/
def ReadsPhrases (levels : Nat) : Prop :=
  ∀ {tokens rest : List Token} {t : Term}, expression levels tokens = .ok (t, rest) →
    ∃ phrase : Phrase, Takes tokens rest phrase.lexemes ∧ phrase.term = t ∧ phrase.levels ≤ levels

theorem operand_takes (inner : ReadsPhrases levels)
    (read : operand (expression levels) tokens = .ok (t, rest)) :
    ∃ o : Operand, Takes tokens rest o.lexemes ∧ o.term = t ∧ o.levels ≤ levels := by
  unfold operand at read
  split at read
  · cases read
    exact ⟨.name _, Takes.token rfl _, rfl, Nat.zero_le levels⟩
  · obtain ⟨⟨u, behind⟩, insideRead, closed⟩ := ok_of_bind read
    obtain ⟨phrase, taken, rfl, fits⟩ := inner insideRead
    dsimp only at closed
    split at closed
    · cases closed
      refine ⟨.group phrase, ?_, rfl, fits⟩
      exact (Takes.token rfl _).append (taken.append (Takes.token rfl _))
    · cases closed
  · cases read

/-- What the reader of arguments took is a list of operands. -/
def ReadsOperands (levels : Nat) : Prop :=
  ∀ {f : Term} {tokens rest : List Token} {t : Term}, arguments levels f tokens = .ok (t, rest) →
    ∃ operands : List Operand, Takes tokens rest (operandLexemes operands) ∧
      applyOperands f operands = t ∧ operandLevels operands ≤ levels

theorem arguments_take_none {f : Term} (ended : (f, tokens) = (t, rest)) :
    ∃ operands : List Operand, Takes tokens rest (operandLexemes operands) ∧
      applyOperands f operands = t ∧ operandLevels operands ≤ levels := by
  cases ended
  exact ⟨[], Takes.none _, rfl, Nat.zero_le levels⟩

theorem readsOperands_zero : ReadsOperands 0 := by
  intro f tokens rest t read
  unfold arguments at read
  split at read
  · exact arguments_take_none (Except.ok.inj read)
  · cases read

theorem readsOperands_succ (phrases : ReadsPhrases levels) (operands : ReadsOperands levels) :
    ReadsOperands (levels + 1) := by
  intro f tokens rest t read
  unfold arguments at read
  split at read
  · exact arguments_take_none (Except.ok.inj read)
  · obtain ⟨⟨a, behind⟩, firstRead, othersRead⟩ := ok_of_bind read
    obtain ⟨first, firstTaken, rfl, firstFits⟩ := operand_takes phrases firstRead
    obtain ⟨others, othersTaken, applied, othersFit⟩ := operands othersRead
    refine ⟨first :: others, firstTaken.append othersTaken, applied, ?_⟩
    exact Nat.succ_le_succ (Nat.max_le.mpr ⟨firstFits, othersFit⟩)

theorem readsPhrases_succ (phrases : ReadsPhrases levels) (operands : ReadsOperands levels) :
    ReadsPhrases (levels + 1) := by
  intro tokens rest t read
  unfold expression at read
  split at read
  · cases ‹levels + 1 = 0›
  · cases ‹levels + 1 = _›
    obtain ⟨⟨x, afterDot⟩, nameRead, read⟩ := ok_of_bind read
    obtain ⟨⟨body, behind⟩, bodyRead, result⟩ := ok_of_bind read
    cases result
    obtain ⟨phrase, bodyTaken, rfl, fits⟩ := phrases bodyRead
    refine ⟨.abstraction x phrase, ?_, rfl, Nat.succ_le_succ fits⟩
    exact (Takes.token rfl _).append ((boundName_takes nameRead).append bodyTaken)
  · cases ‹levels + 1 = _›
    obtain ⟨⟨f, behind⟩, headRead, othersRead⟩ := ok_of_bind read
    obtain ⟨head, headTaken, rfl, headFits⟩ := operand_takes phrases headRead
    obtain ⟨others, othersTaken, applied, othersFit⟩ := operands othersRead
    refine ⟨.application head others, headTaken.append othersTaken, applied, ?_⟩
    exact Nat.succ_le_succ (Nat.max_le.mpr ⟨headFits, othersFit⟩)

end Reading

/-- The levels are what the reader goes down along, in expressions and arguments alike. -/
theorem reads (levels : Nat) : ReadsPhrases levels ∧ ReadsOperands levels := by
  induction levels with
  | zero =>
    refine ⟨fun read => ?_, readsOperands_zero⟩
    unfold expression at read
    cases read
  | succ levels ih => exact ⟨readsPhrases_succ ih.1 ih.2, readsOperands_succ ih.1 ih.2⟩

/-- What the reader took from the front of the tokens is a phrase with the term that it
answers, within the levels that it was given. -/
theorem expression_takes {levels : Nat} {tokens rest : List Token} {t : Term}
    (read : expression levels tokens = .ok (t, rest)) :
    ∃ phrase : Phrase, Takes tokens rest phrase.lexemes ∧ phrase.term = t ∧
      phrase.levels ≤ levels :=
  (reads levels).1 read

/-- No token that spells a lexeme is the end of input. -/
theorem Spells.kind_ne {tokens : List Token} {lexemes : List Lexeme}
    (spells : Spells tokens lexemes) {token : Token} (member : token ∈ tokens) :
    token.kind ≠ .endOfInput := by
  have known : token.lexeme? ∈ lexemes.map some :=
    spells ▸ List.mem_map_of_mem member
  obtain ⟨lexeme, -, same⟩ := List.mem_map.mp known
  obtain ⟨text, position, rfl⟩ := token_of_lexeme same.symm
  cases lexeme <;> simp

/-- Where the end of input follows what was taken, all the tokens before the end of
input were taken. -/
theorem Takes.all {tokens rest : List Token} {last : Token} {lexemes known : List Lexeme}
    (takes : Takes (tokens ++ [last]) rest lexemes) (ends : nextKind rest = .endOfInput)
    (spells : Spells tokens known) (final : last.kind = .endOfInput) : Spells tokens lexemes := by
  obtain ⟨taken, same, takenSpells⟩ := takes
  rcases List.append_eq_append_iff.mp same with ⟨more, rfl, lastEq⟩ | ⟨more, rfl, rfl⟩
  · cases more with
    | nil => simpa using takenSpells
    | cons token others =>
      have inside := takenSpells.kind_ne (List.mem_append_right _ (List.mem_cons_self (a := token)))
      have same : last = token := by simpa using congrArg List.head? lastEq
      exact absurd (same ▸ final) inside
  · cases more with
    | nil => simpa using takenSpells
    | cons token others => exact absurd ends (spells.kind_ne (by simp))

/-- The text after a phrase: nothing, or a closing parenthesis. -/
def Closes : List Lexeme → Prop
  | [] => True
  | lexeme :: _ => lexeme = .closeParen

mutual

/-- Where a phrase ends, and which phrase it is, can be told from its lexemes. -/
theorem Phrase.lexemes_cancel (phrase other : Phrase) {rest rest' : List Lexeme}
    (closes : Closes rest) (closes' : Closes rest')
    (same : phrase.lexemes ++ rest = other.lexemes ++ rest') : phrase = other ∧ rest = rest' := by
  cases phrase with
  | abstraction x body =>
    cases other with
    | abstraction y body' =>
      simp only [Phrase.lexemes, List.cons_append, List.cons.injEq, Lexeme.name.injEq,
        true_and] at same
      obtain ⟨rfl, bodies⟩ := same
      obtain ⟨rfl, rfl⟩ := body.lexemes_cancel body' closes closes' bodies
      exact ⟨rfl, rfl⟩
    | application head' others' =>
      cases head' <;> simp [Phrase.lexemes, Operand.lexemes] at same
  | application head others =>
    cases other with
    | abstraction y body' => cases head <;> simp [Phrase.lexemes, Operand.lexemes] at same
    | application head' others' =>
      simp only [Phrase.lexemes, List.append_assoc] at same
      obtain ⟨rfl, behind⟩ := head.lexemes_cancel head' same
      obtain ⟨rfl, rfl⟩ := operandLexemes_cancel others others' closes closes' behind
      exact ⟨rfl, rfl⟩

theorem Operand.lexemes_cancel (operand other : Operand) {rest rest' : List Lexeme}
    (same : operand.lexemes ++ rest = other.lexemes ++ rest') :
    operand = other ∧ rest = rest' := by
  cases operand with
  | name x =>
    cases other with
    | name y => simpa [Operand.lexemes] using same
    | group inner' => simp [Operand.lexemes] at same
  | group inner =>
    cases other with
    | name y => simp [Operand.lexemes] at same
    | group inner' =>
      simp only [Operand.lexemes, List.cons_append, List.append_assoc, List.cons.injEq, true_and,
        List.nil_append] at same
      have closed (after : List Lexeme) : Closes (.closeParen :: after) := rfl
      obtain ⟨rfl, behind⟩ := inner.lexemes_cancel inner' (closed rest) (closed rest') same
      exact ⟨rfl, List.tail_eq_of_cons_eq behind⟩

theorem operandLexemes_cancel (operands others : List Operand) {rest rest' : List Lexeme}
    (closes : Closes rest) (closes' : Closes rest')
    (same : operandLexemes operands ++ rest = operandLexemes others ++ rest') :
    operands = others ∧ rest = rest' := by
  cases operands with
  | nil =>
    cases others with
    | nil => exact ⟨rfl, same⟩
    | cons operand' others' =>
      subst same
      cases operand' <;> cases closes
  | cons operand behind =>
    cases others with
    | nil =>
      subst same
      cases operand <;> cases closes'
    | cons operand' behind' =>
      simp only [operandLexemes, List.append_assoc] at same
      obtain ⟨rfl, following⟩ := operand.lexemes_cancel operand' same
      obtain ⟨rfl, rfl⟩ := operandLexemes_cancel behind behind' closes closes' following
      exact ⟨rfl, rfl⟩

end

theorem Phrase.lexemes_injective : Function.Injective Phrase.lexemes := by
  intro phrase other same
  have ends : Closes [] := trivial
  exact (phrase.lexemes_cancel other ends ends (congrArg (· ++ []) same)).1

theorem Spells.lexemes_eq {tokens : List Token} {lexemes lexemes' : List Lexeme}
    (spells : Spells tokens lexemes) (spells' : Spells tokens lexemes') : lexemes = lexemes' :=
  List.map_injective_iff.mpr (fun _ _ => Option.some.inj) (spells.symm.trans spells')

/-- The tokens of a text that is not too long, and the end of input behind them. -/
theorem scan_spells {source : String} (short : source.length ≤ Token.maxLength) :
    ∃ tokens, Token.scan source = .ok (tokens ++ [⟨.endOfInput, "", source.length⟩]) ∧
      Spells tokens (Lexeme.all source.toList) := by
  obtain ⟨tokens, scanned, spells⟩ := Token.ofChars_lexemes source.toList
  refine ⟨tokens, ?_, spells⟩
  rw [Token.scan, if_neg (Nat.not_lt.mpr short), scanned, String.length_toList]

theorem length_le_of_parse {source : String} {t : Term} (parsed : parse source = .ok t) :
    source.length ≤ Token.maxLength := by
  obtain ⟨scanned, scan, -⟩ := ok_of_bind parsed
  by_contra long
  rw [Token.scan, if_pos (Nat.not_le.mp long)] at scan
  cases scan

/-- A text is read as a term only if its lexemes are those of a phrase of that term. -/
theorem phrase_of_parse {source : String} {t : Term} (parsed : parse source = .ok t) :
    ∃ phrase : Phrase, Lexeme.all source.toList = phrase.lexemes ∧ phrase.term = t ∧
      phrase.levels ≤ maxDepth := by
  obtain ⟨scanned, scan, read⟩ := ok_of_bind parsed
  obtain ⟨⟨u, rest⟩, read, result⟩ := ok_of_bind read
  obtain ⟨tokens, scan', spells⟩ := scan_spells (length_le_of_parse parsed)
  cases scan'.symm.trans scan
  obtain ⟨phrase, taken, rfl, fits⟩ := expression_takes read
  dsimp only at result
  split at result
  · cases result
    exact ⟨phrase, spells.lexemes_eq (taken.all ‹_› spells rfl), rfl, fits⟩
  · cases result

/-- Within the length that is read, the reader answers with a term exactly if the tokens
spell a phrase of that term that is nested no deeper than what is read; and no tokens
spell two phrases, so none are read in two ways. -/
theorem parse_eq_ok_iff_phrase :
    (∀ source : String, source.length ≤ Token.maxLength →
      ∃ tokens, Token.scan source = .ok (tokens ++ [⟨.endOfInput, "", source.length⟩]) ∧
        ∀ t, parse source = .ok t ↔ ∃ phrase : Phrase, Spells tokens phrase.lexemes ∧
          phrase.term = t ∧ phrase.deepestFrom 1 ≤ maxDepth) ∧
    ∀ (tokens : List Token) (phrase other : Phrase), Spells tokens phrase.lexemes →
      Spells tokens other.lexemes → phrase = other := by
  refine ⟨fun source short => ?_, fun tokens phrase other spells spells' =>
    Phrase.lexemes_injective (spells.lexemes_eq spells')⟩
  obtain ⟨tokens, scanned, spells⟩ := scan_spells short
  refine ⟨tokens, scanned, fun t => ⟨fun parsed => ?_, ?_⟩⟩
  · obtain ⟨phrase, spelled, term, fits⟩ := phrase_of_parse parsed
    refine ⟨phrase, spelled ▸ spells, term, ?_⟩
    rwa [phrase.deepestFrom_eq, Nat.zero_add]
  · rintro ⟨phrase, phraseSpells, rfl, fits⟩
    rw [phrase.deepestFrom_eq, Nat.zero_add] at fits
    rw [parse_spelled phrase source (spells.lexemes_eq phraseSpells),
      if_neg (Nat.not_lt.mpr short), if_pos fits]

/-- The phrase of `λf.f (λx.x f) y`. -/
def groupedArgument : Phrase :=
  .abstraction "f" (.application (.name "f")
    [.group (.abstraction "x" (.application (.name "x") [.name "f"])), .name "y"])

theorem groupedArgument_read :
    "λf.f (λx.x f) y".length ≤ Token.maxLength ∧ ∃ tokens,
      Token.scan "λf.f (λx.x f) y" = .ok (tokens ++ [⟨.endOfInput, "", 15⟩]) ∧
        Spells tokens groupedArgument.lexemes ∧
        parse "λf.f (λx.x f) y" = .ok groupedArgument.term ∧
        ∀ other : Phrase, Spells tokens other.lexemes → groupedArgument = other := by
  have short : "λf.f (λx.x f) y".length ≤ Token.maxLength := by decide
  obtain ⟨tokens, scanned, reads⟩ := parse_eq_ok_iff_phrase.1 _ short
  have spells : Spells tokens groupedArgument.lexemes := by
    obtain ⟨tokens', scanned', spells'⟩ := scan_spells short
    have same : tokens' = tokens := by simpa [scanned] using scanned'.symm
    have spelled : Lexeme.all "λf.f (λx.x f) y".toList = groupedArgument.lexemes := by
      decide +kernel
    rwa [same, spelled] at spells'
  exact ⟨short, tokens, scanned, spells,
    (reads _).mpr ⟨groupedArgument, spells, rfl, by decide⟩,
    fun other => parse_eq_ok_iff_phrase.2 tokens groupedArgument other spells⟩

end ChurchScript.Term
