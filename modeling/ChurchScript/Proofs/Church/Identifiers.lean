import ChurchScript.Proofs.Church.Reading
import ChurchScript.Proofs.Term.Tokens

/-!
# Identifiers in compiled text

The text of a compiled script is made of identifiers of the script, written as they are, and
of fixed pieces between them that begin and end with no name character. So what is read
where an identifier is written depends on that identifier alone: it is read back as itself
exactly if it is a name of lambda text. Other identifiers, such as `$x`, are legal in a
script; their other characters are passed over or taken for symbols.
-/
namespace ChurchScript.Church

open Script

section Pieces

/-- A text that no name goes over the ends of. -/
structure Bordered (cs : List Char) : Prop where
  first : ∃ c, cs.head? = some c ∧ Token.isNameChar c = false
  last : ∃ c, cs.getLast? = some c ∧ Token.isNameChar c = false

/-- A piece of compiled text: an identifier of the script, or a fixed text. -/
inductive Piece where
  | identifier (x : String)
  | fixed (text : String)
  deriving DecidableEq, Repr

def Piece.text : Piece → String
  | identifier x => x
  | fixed text => text

/-- The characters of pieces one after the other. -/
def spell (pieces : List Piece) : List Char :=
  pieces.flatMap fun piece => piece.text.toList

def binderPieces (params : List String) : List Piece :=
  params.flatMap fun x => [.fixed "λ", .identifier x, .fixed "."]

mutual

def Code.pieces : Code → List Piece
  | .name x => [.identifier x]
  | .combinator c => [.fixed c.text]
  | .numeral n => [.fixed (numeralText n)]
  | .apply head arguments =>
    .fixed "(" :: (head.pieces ++ argumentPieces arguments ++ [.fixed ")"])
  | .function params body => .fixed "(" :: (binderPieces params ++ body.pieces ++ [.fixed ")"])

def argumentPieces : List Code → List Piece
  | [] => []
  | code :: rest => .fixed " " :: (code.pieces ++ argumentPieces rest)

end

def Entry.pieces (entry : Entry) : List Piece :=
  binderPieces entry.params ++ entry.body.pieces

/-- An identifier is written into compiled text at a position. -/
def Entry.Writes (entry : Entry) (position : Nat) (x : String) : Prop :=
  ∃ before after, entry.pieces = before ++ .identifier x :: after ∧
    position = (spell before).length

theorem spell_append (pieces pieces' : List Piece) :
    spell (pieces ++ pieces') = spell pieces ++ spell pieces' :=
  List.flatMap_append

theorem spell_cons (piece : Piece) (pieces : List Piece) :
    spell (piece :: pieces) = piece.text.toList ++ spell pieces :=
  List.flatMap_cons

theorem spell_binders (params : List String) :
    spell (binderPieces params) = (bindersText params).toList := by
  rw [bindersText, String.toList_join]
  induction params with
  | nil => rfl
  | cons x rest ih =>
    have split : binderPieces (x :: rest) =
        [.fixed "λ", .identifier x, .fixed "."] ++ binderPieces rest := rfl
    rw [split, spell_append, ih]
    simp [spell, Piece.text]

mutual

theorem Code.spell_pieces : (code : Code) → spell code.pieces = code.text.toList
  | .name x => by simp [Code.pieces, Code.text, spell, Piece.text]
  | .combinator c => by simp [Code.pieces, Code.text, spell, Piece.text]
  | .numeral n => by simp [Code.pieces, Code.text, spell, Piece.text]
  | .apply head arguments => by
    rw [Code.pieces, spell_cons, spell_append, spell_append, head.spell_pieces,
      spell_arguments arguments]
    simp [Code.text, applyText, spell, Piece.text]
  | .function params body => by
    rw [Code.pieces, spell_cons, spell_append, spell_append, body.spell_pieces, spell_binders]
    simp [Code.text, spell, Piece.text]

theorem spell_arguments : (arguments : List Code) → spell (argumentPieces arguments) =
    ((Code.texts arguments).map (" " ++ ·)).flatMap String.toList
  | [] => rfl
  | code :: rest => by
    rw [argumentPieces, spell_cons, spell_append, code.spell_pieces, spell_arguments rest]
    simp [Code.texts, Piece.text]

end

theorem Entry.spell_pieces (entry : Entry) : spell entry.pieces = entry.text.toList := by
  rw [Entry.pieces, spell_append, spell_binders, Code.spell_pieces, Entry.text,
    String.toList_append]

end Pieces

section Spacing

/-- Two identifiers do not stand side by side. -/
def Piece.Beside : Piece → Piece → Prop
  | identifier _, identifier _ => False
  | _, _ => True

/-- Between any two identifiers there is a fixed text that no name goes over the ends of. -/
structure Spaced (pieces : List Piece) : Prop where
  chain : pieces.IsChain Piece.Beside
  bordered : ∀ text, .fixed text ∈ pieces → Bordered text.toList

theorem Spaced.nil : Spaced [] := ⟨.nil, by simp⟩

theorem Spaced.identifier (x : String) : Spaced [.identifier x] := ⟨.singleton _, by simp⟩

/-- A fixed text between pieces keeps them apart. -/
theorem Spaced.between {pieces pieces' : List Piece} {text : String}
    (bordered : Bordered text.toList) (left : Spaced pieces) (right : Spaced pieces') :
    Spaced (pieces ++ .fixed text :: pieces') where
  chain := by
    refine List.isChain_append.mpr ⟨left.chain, List.isChain_cons.mpr ⟨?_, right.chain⟩, ?_⟩
    · intro piece _
      cases piece <;> trivial
    · intro piece _ fixed first
      cases first
      cases piece <;> trivial
  bordered text' member := by
    rcases List.mem_append.mp member with before | behind
    · exact left.bordered text' before
    · rcases List.mem_cons.mp behind with same | behind
      · cases same
        exact bordered
      · exact right.bordered text' behind

theorem Spaced.fixed {text : String} (bordered : Bordered text.toList) : Spaced [.fixed text] :=
  .between bordered .nil .nil

theorem bordered_of_symbol {text : String} (c : Char) (symbol : text.toList = [c])
    (cut : Token.isNameChar c = false) : Bordered text.toList :=
  ⟨⟨c, by rw [symbol]; rfl, cut⟩, ⟨c, by rw [symbol]; rfl, cut⟩⟩

theorem Combinator.text_bordered (c : Combinator) : Bordered c.text.toList := by
  -- both ends at once: the characters of a text are costly to compute
  have ends : c.text.toList.head? = some '(' ∧ c.text.toList.getLast? = some ')' := by
    cases c <;> decide +kernel
  exact ⟨⟨'(', ends.1, rfl⟩, ⟨')', ends.2, rfl⟩⟩

theorem numeralText_bordered (n : Nat) : Bordered (numeralText n).toList := by
  refine ⟨⟨'(', by simp [numeralText], rfl⟩, ⟨')', ?_, rfl⟩⟩
  rw [numeralText, String.toList_append, List.getLast?_append]
  rfl

theorem Spaced.group {pieces : List Piece} (inner : Spaced pieces) :
    Spaced (.fixed "(" :: (pieces ++ [.fixed ")"])) :=
  .between (bordered_of_symbol '(' rfl rfl) .nil
    (.between (bordered_of_symbol ')' rfl rfl) inner .nil)

theorem Spaced.binders {pieces : List Piece} (params : List String) (body : Spaced pieces) :
    Spaced (binderPieces params ++ pieces) := by
  induction params with
  | nil => exact body
  | cons x rest ih =>
    exact .between (bordered_of_symbol 'λ' rfl rfl) .nil
      (.between (bordered_of_symbol '.' rfl rfl) (.identifier x) ih)

mutual

theorem Code.spaced : (code : Code) → Spaced code.pieces
  | .name x => .identifier x
  | .combinator c => .fixed c.text_bordered
  | .numeral n => .fixed (numeralText_bordered n)
  | .apply head arguments => (arguments_spaced arguments head.spaced).group
  | .function params body => (body.spaced.binders params).group

theorem arguments_spaced : (arguments : List Code) → {pieces : List Piece} → Spaced pieces →
    Spaced (pieces ++ argumentPieces arguments)
  | [], pieces, front => by rwa [argumentPieces, List.append_nil]
  | code :: rest, pieces, front =>
    .between (bordered_of_symbol ' ' rfl rfl) front (arguments_spaced rest code.spaced)

end

theorem Entry.spaced (entry : Entry) : Spaced entry.pieces :=
  entry.body.spaced.binders entry.params

variable {before after : List Piece} {x : String}

/-- No name goes over into an identifier from what is written before it. -/
theorem Spaced.apart_before (spaced : Spaced (before ++ .identifier x :: after))
    (cs : List Char) : Token.Apart (spell before) cs := by
  intro a last b _
  obtain ⟨_, _, beside⟩ := List.isChain_append.mp spaced.chain
  rcases List.eq_nil_or_concat before with rfl | ⟨front, piece, rfl⟩
  · cases last
  · cases piece with
    | identifier y =>
      have together : Piece.Beside (.identifier y) (.identifier x) := beside _ (by simp) _ rfl
      exact together.elim
    | fixed text =>
      -- the last character before the identifier ends every name
      obtain ⟨c, ends, cut⟩ := (spaced.bordered text (by simp)).last
      have same : (spell (front ++ [.fixed text])).getLast? = some c := by
        simp [spell, Piece.text, List.getLast?_append, ends]
      rw [List.concat_eq_append, same] at last
      cases last
      simp [Lexeme.joined, cut]

/-- No name goes over from an identifier into what is written behind it. -/
theorem Spaced.apart_behind (spaced : Spaced (before ++ .identifier x :: after))
    (cs : List Char) : Token.Apart cs (spell after) := by
  intro a _ b first
  obtain ⟨_, behind, _⟩ := List.isChain_append.mp spaced.chain
  cases after with
  | nil => cases first
  | cons piece rest =>
    cases piece with
    | identifier y => exact (List.isChain_cons_cons.mp behind).1.elim
    | fixed text =>
      obtain ⟨c, begins, cut⟩ := (spaced.bordered text (by simp)).first
      have same : (spell (.fixed text :: rest)).head? = some c := by
        simp [spell, Piece.text, List.head?_append, begins]
      rw [same] at first
      cases first
      simp [Lexeme.joined, cut]

end Spacing

/-- What is read where an identifier is written are the tokens of that identifier. -/
theorem Entry.Writes.read {entry : Entry} {position : Nat} {x : String}
    (writes : entry.Writes position x) :
    Token.within position x.length (Token.ofChars entry.text.toList) =
      Token.tokensFrom position x.toList := by
  obtain ⟨before, after, split, rfl⟩ := writes
  have spaced := entry.spaced
  rw [split] at spaced
  have text : entry.text.toList = spell before ++ (x.toList ++ spell after) := by
    rw [← entry.spell_pieces, split, spell_append, spell_cons, Piece.text]
  rw [text, ← String.length_toList]
  exact Token.within_part (spaced.apart_before _) (spaced.apart_behind _)

section Names

theorem identifier_mem_binders {params : List String} {x : String} :
    .identifier x ∈ binderPieces params ↔ x ∈ params := by
  simp [binderPieces]

theorem Entry.mem_pieces_of_writes {entry : Entry} {position : Nat} {x : String}
    (writes : entry.Writes position x) : .identifier x ∈ entry.pieces := by
  obtain ⟨before, after, split, _⟩ := writes
  simp [split]

theorem Entry.writes_of_mem_pieces {entry : Entry} {x : String}
    (member : .identifier x ∈ entry.pieces) : ∃ position, entry.Writes position x := by
  obtain ⟨before, after, split⟩ := List.append_of_mem member
  exact ⟨_, before, after, split, rfl⟩

mutual

/-- Code in which only names are written is read as an operand. -/
theorem Code.reads_of_names : (code : Code) →
    (∀ x, .identifier x ∈ code.pieces → Lexeme.IsName x) → ∃ t, code.Reads t
  | .name x, names => ⟨_, .name (names x (by simp [Code.pieces]))⟩
  | .combinator c, _ => ⟨_, .combinator c⟩
  | .numeral n, _ => ⟨_, .numeral n⟩
  | .apply head arguments, names => by
    obtain ⟨f, reads⟩ := head.reads_of_names fun x member => names x (by simp [Code.pieces, member])
    obtain ⟨terms, others⟩ := arguments_read arguments fun x member =>
      names x (by simp [Code.pieces, member])
    exact ⟨_, .apply reads others⟩
  | .function params body, names => by
    obtain ⟨t, reads⟩ := body.reads_of_names fun x member => names x (by simp [Code.pieces, member])
    refine ⟨_, .function (fun x member => names x ?_) reads⟩
    simp [Code.pieces, identifier_mem_binders.mpr member]

theorem arguments_read : (arguments : List Code) →
    (∀ x, .identifier x ∈ argumentPieces arguments → Lexeme.IsName x) →
    ∃ terms, List.Forall₂ Code.Reads arguments terms
  | [], _ => ⟨[], .nil⟩
  | code :: rest, names => by
    obtain ⟨t, reads⟩ := code.reads_of_names fun x member =>
      names x (by simp [argumentPieces, member])
    obtain ⟨terms, others⟩ := arguments_read rest fun x member =>
      names x (by simp [argumentPieces, member])
    exact ⟨t :: terms, .cons reads others⟩

end

/-- A text into which only names are written is not refused for what it is made of. -/
theorem Entry.parse_ne_error {entry : Entry}
    (names : ∀ position x, entry.Writes position x → Lexeme.IsName x) (position : Nat)
    (expected : Expected) : Term.parse entry.text ≠ .error (.parse position expected) := by
  have named : ∀ x, .identifier x ∈ entry.pieces → Lexeme.IsName x := by
    intro x member
    obtain ⟨position, writes⟩ := Entry.writes_of_mem_pieces member
    exact names position x writes
  obtain ⟨_, operand, spelled, _⟩ := entry.body.reads_of_names fun x member =>
    named x (List.mem_append_right _ member)
  have params : ∀ x ∈ entry.params, Lexeme.IsName x := fun x member =>
    named x (List.mem_append_left _ (identifier_mem_binders.mpr member))
  have whole : Lexeme.all entry.text.toList =
      (Term.Phrase.lambdas entry.params (.single operand)).lexemes := by
    rw [Entry.text, String.toList_append, Code.Reads.binders_spelled entry.params params, spelled]
    simp [Term.Phrase.lambdas_lexemes]
  rw [Term.parse_spelled _ entry.text whole]
  split
  · simp
  · split <;> simp

end Names

section Origin

/-- An identifier that a script has as a parameter or uses. -/
def Mentions (program : Program) (x : String) : Prop :=
  (.parameter, x) ∈ statementOccurrences program.body ∨
    (.use, x) ∈ statementOccurrences program.body

/-- Code with no identifiers but those that a script mentions. -/
def Code.From (program : Program) (code : Code) : Prop :=
  ∀ x, .identifier x ∈ code.pieces → Mentions program x

theorem arguments_from {program : Program} {codes codes' : List Code}
    (each : List.Forall₂ (fun code _ => code.From program) codes codes') {x : String}
    (member : .identifier x ∈ argumentPieces codes) : Mentions program x := by
  induction each with
  | nil => cases member
  | cons first _ ih =>
    simp only [argumentPieces, List.mem_cons, List.mem_append, reduceCtorEq, false_or] at member
    rcases member with inside | behind
    · exact first x inside
    · exact ih behind

/-- All identifiers in code are mentioned by the script. -/
def mentionSimulation (program : Program) :
    Simulation Code.target Code.target (.ofTable program.table) (.ofTable program.table) where
  value _ code _ := code.From program
  names _ x := (.use, x) ∈ statementOccurrences program.body
  params x := (.parameter, x) ∈ statementOccurrences program.body
  shared _ := True
  excused _ := False
  name_value used _ x member := by
    cases List.mem_singleton.mp member
    exact .inr used
  combinator_value _ _ x member := by cases List.mem_singleton.mp member
  numeral_value _ _ x member := by cases List.mem_singleton.mp member
  apply_value head others x member := by
    simp only [Code.target, Code.pieces, List.mem_cons, List.mem_append, List.not_mem_nil,
      reduceCtorEq, false_or, or_false] at member
    rcases member with inHead | inArgument
    · exact head x inHead
    · exact arguments_from others inArgument
  function_value params body x member := by
    simp only [Code.target, Code.pieces, List.mem_cons, List.mem_append, List.not_mem_nil,
      reduceCtorEq, false_or, or_false, identifier_mem_binders] at member
    rcases member with param | inBody
    · exact .inl (params x param)
    · exact body x inBody
  closed_value mentions _ := mentions
  enter_related params related := related.bindParams _ fun x member y written => by
    cases List.mem_singleton.mp written
    exact .inl (params x member)
  enter_contains ps s y := Scope.contains_bindParams s _ ps y
  find_eq _ := rfl
  recursive_eq _ := rfl
  callee_names _ found _ _ refers :=
    Program.occurs_of_find found (Func.references_occur _ [] refers)
  callee_params _ found _ occurs := Program.occurs_of_find found occurs
  shared_unsupported _ := trivial
  shared_noReturn _ := trivial

/-- Every identifier that is written into compiled text is one of the script. -/
theorem mentions_of_writes {settings : Settings} {program : Program} {entry : Entry}
    (compiled : compileWith settings program = .ok entry) {position : Nat} {x : String}
    (writes : entry.Writes position x) : Mentions program x := by
  have results : (mentionSimulation program).Results (compileWith settings program)
      (compileWith settings program) := by
    refine Simulation.compileAt_agree _ _ rfl trivial
      (fun f entry _ => Simulation.ofDepth_agree settings trivial _ _ _) (fun f entry found => ?_)
    have declared := find_of_entryPoint found
    exact ⟨fun x refers => Program.occurs_of_find declared (Func.references_occur _ [] refers),
      fun x occurs => Program.occurs_of_find declared occurs, le_rfl⟩
  have member := Entry.mem_pieces_of_writes writes
  rw [compiled] at results
  cases results with
  | ok params body =>
    rcases List.mem_append.mp member with param | inBody
    · exact .inl (params x (identifier_mem_binders.mp param))
    · exact body x inBody

end Origin

/-- Compiled text of a length that is read has the tokens of every identifier where it is
written, and these identifiers are the script's. An identifier is read back as itself exactly
if it is a name of lambda text, and two of them are read alike exactly if they have the same
lexemes. So if all of them are names, they are told apart as in the script, and the text is
not refused for what it is made of. -/
theorem identifiers_read_back (program : Program) (entry : Entry)
    (compiled : compile program = .ok entry) (short : entry.text.length ≤ Token.maxLength) :
    ∃ tokens, Token.scan entry.text = .ok tokens ∧
      (∀ position x, entry.Writes position x → Mentions program x ∧
        Token.within position x.length tokens = Token.tokensFrom position x.toList ∧
        (Token.within position x.length tokens = [⟨.name, x, position⟩] ↔ Lexeme.IsName x)) ∧
      (∀ position x position' x', entry.Writes position x → entry.Writes position' x' →
        ((Token.within position x.length tokens).map Token.lexeme? =
            (Token.within position' x'.length tokens).map Token.lexeme? ↔
          Lexeme.all x.toList = Lexeme.all x'.toList)) ∧
      ((∀ position x, entry.Writes position x → Lexeme.IsName x) →
        (∀ position x position' x', entry.Writes position x → entry.Writes position' x' →
          ((Token.within position x.length tokens).map Token.lexeme? =
              (Token.within position' x'.length tokens).map Token.lexeme? ↔ x = x')) ∧
        ∀ position expected, Term.parse entry.text ≠ .error (.parse position expected)) := by
  have scanned : Token.scan entry.text = .ok (Token.ofChars entry.text.toList) :=
    if_neg (Nat.not_lt.mpr short)
  have alike {position position' : Nat} {x x' : String} (writes : entry.Writes position x)
      (writes' : entry.Writes position' x') :
      (Token.within position x.length (Token.ofChars entry.text.toList)).map Token.lexeme? =
          (Token.within position' x'.length (Token.ofChars entry.text.toList)).map Token.lexeme? ↔
        Lexeme.all x.toList = Lexeme.all x'.toList := by
    rw [writes.read, writes'.read, Token.tokensFrom_lexemes, Token.tokensFrom_lexemes]
    exact (List.map_injective_iff.mpr fun _ _ => Option.some.inj).eq_iff
  refine ⟨_, scanned, fun position x writes => ?_, fun _ _ _ _ => alike, fun names => ⟨?_, ?_⟩⟩
  · refine ⟨mentions_of_writes compiled writes, writes.read, ?_⟩
    rw [writes.read]
    exact Token.tokensFrom_eq_name_iff x position
  · intro position x position' x' writes writes'
    rw [alike writes writes', Lexeme.all_name x (names position x writes),
      Lexeme.all_name x' (names position' x' writes')]
    simp
  · exact Entry.parse_ne_error names

section Samples

theorem sampleEntry_read_back :
    compile sampleProgram = .ok sampleEntry ∧ sampleEntry.Writes 1 "a" ∧
      (∃ tokens, Token.scan sampleEntry.text = .ok tokens ∧
        Token.within 1 1 tokens = [⟨.name, "a", 1⟩]) ∧
      ∀ position expected, Term.parse sampleEntry.text ≠ .error (.parse position expected) := by
  have short : sampleEntry.text.length ≤ Token.maxLength := by decide +kernel
  have writes : sampleEntry.Writes 1 "a" := ⟨[.fixed "λ"], _, rfl, rfl⟩
  obtain ⟨tokens, scanned, each, _, told⟩ :=
    identifiers_read_back sampleProgram sampleEntry sampleProgram_compiled short
  -- what is written is mentioned by the script, and there all identifiers are names
  have names : ∀ position x, sampleEntry.Writes position x → Lexeme.IsName x := by
    intro position x writes
    rcases (each position x writes).1 with param | used
    · exact sampleProgram_wellNamed _ param
    · exact sampleProgram_wellNamed _ used
  exact ⟨sampleProgram_compiled, writes,
    ⟨tokens, scanned, (each 1 "a" writes).2.2.mpr (by decide)⟩, (told names).2⟩

/-- A function of the given parameters that gives back one of them. -/
def returnsParam (params : List String) (x : String) : Program where
  body := [.function ⟨some "f", params.map .identifier, .block [.ret (some (.identifier x))]⟩]

theorem returnsParam_declared {params : List String} {x : String}
    (graph : (returnsParam params x).table.callGraph = ⟨[("f", [])]⟩) :
    Declarations.ofTable (returnsParam params x).table = ⟨(returnsParam params x).table, []⟩ := by
  simp [Declarations.ofTable, graph, CallGraph.recursive, CallGraph.reachable, CallGraph.nodes,
    CallGraph.successors, List.lookup_cons]

/-- `$x` and `x` are read as one variable, and a text with `é` for a name is refused. -/
theorem other_identifiers_not_read_back :
    (compile (returnsParam ["$x", "x"] "$x") = .ok ⟨["$x", "x"], .name "$x"⟩ ∧
      Entry.Writes ⟨["$x", "x"], .name "$x"⟩ 1 "$x" ∧
      Token.scan (Entry.text ⟨["$x", "x"], .name "$x"⟩) = .ok
        [⟨.lambda, "λ", 0⟩, ⟨.name, "x", 2⟩, ⟨.dot, ".", 3⟩, ⟨.lambda, "λ", 4⟩, ⟨.name, "x", 5⟩,
          ⟨.dot, ".", 6⟩, ⟨.name, "x", 8⟩, ⟨.endOfInput, "", 9⟩] ∧
      Term.parse (Entry.text ⟨["$x", "x"], .name "$x"⟩) =
        .ok (.lam "x" (.lam "x" (.name "x")))) ∧
    compile (returnsParam ["é"] "é") = .ok ⟨["é"], .name "é"⟩ ∧
      Term.parse (Entry.text ⟨["é"], .name "é"⟩) = .error (.parse 2 .boundName) := by
  refine ⟨⟨?_, ⟨[.fixed "λ"], _, rfl, rfl⟩, by decide +kernel, by decide +kernel⟩, ?_,
    by decide +kernel⟩
  · rw [compile, compileWith, compileTo, returnsParam_declared (by decide +kernel)]
    rfl
  · rw [compile, compileWith, compileTo, returnsParam_declared (by decide +kernel)]
    rfl

end Samples

end ChurchScript.Church
