import ChurchScript.Proofs.Term.Grammar
import ChurchScript.Proofs.Term.Tokens

/-!
# What is kept of a text when it is cut into tokens

The tokens of a text are found by going through it from the left: a symbol is a token, a run
of name characters is one as far as it reaches, and any other character is passed over
(`Cuts`). So the tokens hold the whole text but for the characters passed over, each where it
stands (`scan_keeps_text`), and such a character can be put in or taken out wherever that
joins or splits no name.
-/
namespace ChurchScript.Token

/-- The symbols as tokens. -/
def symbols : List (Kind × String) :=
  [(.lambda, "λ"), (.dot, "."), (.openParen, "("), (.closeParen, ")")]

/-- Whether a character is part of a token. -/
def isRead (c : Char) : Bool :=
  isNameChar c || ['λ', '.', '(', ')'].contains c

/-- A token without its position. -/
def content (token : Token) : Kind × String := (token.kind, token.text)

def moved (distance : Nat) (token : Token) : Token :=
  { token with position := token.position + distance }

/-- Going through a text that stands from a position on, and the tokens found on the way. -/
inductive Cuts : Nat → List Char → List Token → Prop
  | done (start : Nat) : Cuts start [] []
  | skip {start : Nat} {c : Char} {rest : List Char} {tokens : List Token} :
      isRead c = false → Cuts (start + 1) rest tokens → Cuts start (c :: rest) tokens
  | symbol {start : Nat} {kind : Kind} {c : Char} {rest : List Char} {tokens : List Token} :
      Kind.ofSymbol? c = some kind → Cuts (start + 1) rest tokens →
      Cuts start (c :: rest) (⟨kind, String.singleton c, start⟩ :: tokens)
  | name {start : Nat} {x : String} {rest : List Char} {tokens : List Token} :
      Lexeme.IsName x → (∀ c ∈ rest.head?, isNameChar c = false) →
      Cuts (start + x.length) rest tokens →
      Cuts start (x.toList ++ rest) (⟨.name, x, start⟩ :: tokens)

/-- How a token stands in a text: a name between characters that would not go on with it, or
a symbol. -/
inductive Placed (before : List Char) : Token → List Char → Prop
  | name {x : String} {position : Nat} {after : List Char} : Lexeme.IsName x →
      (∀ c ∈ before.getLast?, isNameChar c = false) →
      (∀ c ∈ after.head?, isNameChar c = false) → Placed before ⟨.name, x, position⟩ after
  | symbol {token : Token} {after : List Char} : token.content ∈ symbols →
      Placed before token after

/-- The text of a token is the part of the whole text that begins at its position. -/
def StandsIn (start : Nat) (cs : List Char) (token : Token) : Prop :=
  ∃ before after, cs = before ++ token.text.toList ++ after ∧
    token.position = start + before.length ∧ Placed before token after

section Equations

variable {start : Nat} {c : Char} {kind : Kind} {x : String} {rest : List Char}

theorem isRead_eq (c : Char) : isRead c = (isNameChar c || (Kind.ofSymbol? c).isSome) := by
  unfold isRead Kind.ofSymbol?
  split_ifs <;> simp_all

theorem symbol_mem (symbol : Kind.ofSymbol? c = some kind) :
    (kind, String.singleton c) ∈ symbols := by
  unfold Kind.ofSymbol? at symbol
  split_ifs at symbol <;> cases symbol <;> simp_all <;> decide

theorem other_of_symbol (symbol : Kind.ofSymbol? c = some kind) : isNameChar c = false := by
  by_contra named
  rw [Lexeme.symbol_of_nameChar (by simpa using named)] at symbol
  cases symbol

theorem other_of_unread (unread : isRead c = false) : isNameChar c = false := by
  rw [isRead_eq, Bool.or_eq_false_iff] at unread
  exact unread.1

theorem apart_of_other (other : isNameChar c = false) (rest : List Char) : Apart [c] rest := by
  intro a last b _
  cases last
  simp [Lexeme.joined, other]

theorem apart_of_next {before : List Char} (next : ∀ c ∈ rest.head?, isNameChar c = false) :
    Apart before rest := by
  intro a _ b first
  simp [Lexeme.joined, next b first]

theorem tokensFrom_cons (other : isNameChar c = false) :
    tokensFrom start (c :: rest) =
      (ofRun? [(c, start)]).toList ++ tokensFrom (start + 1) rest := by
  have cut := tokensFrom_append (apart_of_other other rest) start
  have one : runs ([c].zipIdx start) = [[(c, start)]] :=
    List.splitBy_of_isChain (by simp) (by simp)
  have alone : tokensFrom start [c] = (ofRun? [(c, start)]).toList := by
    rw [tokensFrom, one, List.filterMap_cons]
    cases ofRun? [(c, start)] <;> rfl
  rw [List.singleton_append, alone] at cut
  exact cut

theorem tokensFrom_skip (unread : isRead c = false) :
    tokensFrom start (c :: rest) = tokensFrom (start + 1) rest := by
  rw [tokensFrom_cons (other_of_unread unread)]
  rw [isRead_eq, Bool.or_eq_false_iff, Option.isSome_eq_false_iff, Option.isNone_iff_eq_none]
    at unread
  simp [ofRun?, unread]

theorem tokensFrom_symbol (symbol : Kind.ofSymbol? c = some kind) :
    tokensFrom start (c :: rest) =
      ⟨kind, String.singleton c, start⟩ :: tokensFrom (start + 1) rest := by
  rw [tokensFrom_cons (other_of_symbol symbol)]
  simp [ofRun?, symbol]

theorem tokensFrom_name_append (name : Lexeme.IsName x)
    (next : ∀ c ∈ rest.head?, isNameChar c = false) :
    tokensFrom start (x.toList ++ rest) =
      ⟨.name, x, start⟩ :: tokensFrom (start + x.length) rest := by
  rw [tokensFrom_append (apart_of_next next), tokensFrom_name name, String.length_toList]
  rfl

end Equations

/-- A text that begins with a name character begins with a name, as far as it reaches. -/
theorem exists_name {c : Char} (named : isNameChar c = true) (rest : List Char) :
    ∃ (x : String) (behind : List Char), c :: rest = x.toList ++ behind ∧ Lexeme.IsName x ∧
      ∀ d ∈ behind.head?, isNameChar d = false := by
  refine ⟨String.ofList ((c :: rest).takeWhile isNameChar), (c :: rest).dropWhile isNameChar,
    ?_, ⟨?_, ?_⟩, ?_⟩
  · rw [String.toList_ofList, List.takeWhile_append_dropWhile]
  · rw [String.toList_ofList, List.takeWhile_cons_of_pos named]
    simp
  · rw [String.toList_ofList]
    exact List.all_eq_true.mp List.all_takeWhile
  · intro d first
    have stops := List.head?_dropWhile_not isNameChar (c :: rest)
    rw [first] at stops
    simpa using stops

/-- The tokens of a text are those that are found by going through it. The induction is on
what is left of the text. -/
theorem tokensFrom_cuts (start : Nat) (cs : List Char) : Cuts start cs (tokensFrom start cs) := by
  induction size : cs.length using Nat.strong_induction_on generalizing start cs with
  | _ size ih =>
    subst size
    cases cs with
    | nil => exact .done start
    | cons c rest =>
      have behind := ih rest.length (by simp) (start + 1) rest rfl
      cases symbol : Kind.ofSymbol? c with
      | some kind =>
        rw [tokensFrom_symbol symbol]
        exact .symbol symbol behind
      | none =>
        by_cases named : isNameChar c = true
        · obtain ⟨x, after, whole, name, next⟩ := exists_name named rest
          have shorter : after.length < (c :: rest).length := by
            have nonempty := List.length_pos_of_ne_nil name.1
            rw [whole, List.length_append]
            omega
          rw [whole, tokensFrom_name_append name next]
          exact .name name next (ih after.length shorter (start + x.length) after rfl)
        · have unread : isRead c = false := by simp [isRead_eq, symbol, named]
          rw [tokensFrom_skip unread]
          exact .skip unread behind

/-- Positions strictly increase, from a first one on. -/
def IncreasingFrom (start : Nat) (tokens : List Token) : Prop :=
  (∀ token ∈ tokens, start ≤ token.position) ∧ (tokens.map Token.position).Pairwise (· < ·)

namespace IncreasingFrom

variable {start next : Nat} {tokens : List Token}

theorem earlier (increasing : IncreasingFrom next tokens) (before : start ≤ next) :
    IncreasingFrom start tokens :=
  ⟨fun token member => before.trans (increasing.1 token member), increasing.2⟩

theorem cons {token : Token} (increasing : IncreasingFrom next tokens)
    (here : token.position = start) (before : start < next) :
    IncreasingFrom start (token :: tokens) := by
  constructor
  · exact List.forall_mem_cons.mpr ⟨here.ge, (increasing.earlier before.le).1⟩
  · refine List.pairwise_cons.mpr ⟨List.forall_mem_map.mpr fun other member => ?_, increasing.2⟩
    have later := increasing.1 other member
    omega

end IncreasingFrom

namespace Cuts

variable {start : Nat} {cs : List Char} {tokens : List Token}

/-- The same text elsewhere has the same tokens. -/
theorem tokensFrom_eq (cuts : Cuts start cs tokens) (distance : Nat) :
    tokensFrom (start + distance) cs = tokens.map (moved distance) := by
  induction cuts with
  | done start => rfl
  | skip unread _ ih =>
    rw [tokensFrom_skip unread, ← ih]
    congr 1
    omega
  | symbol symbol _ ih =>
    rw [tokensFrom_symbol symbol, List.map_cons, ← ih]
    congr 2
    omega
  | name name next _ ih =>
    rw [tokensFrom_name_append name next, List.map_cons, ← ih]
    congr 2
    omega

/-- The tokens hold every character that is part of a token. -/
theorem texts (cuts : Cuts start cs tokens) :
    tokens.flatMap (fun token => token.text.toList) = cs.filter isRead := by
  induction cuts with
  | done start => rfl
  | skip unread _ ih => simpa [unread] using ih
  | @symbol _ _ c _ _ symbol _ ih =>
    have read : isRead c = true := by simp [isRead_eq, symbol]
    simpa [read] using ih
  | @name _ x _ _ name next _ ih =>
    have read : x.toList.filter isRead = x.toList :=
      List.filter_eq_self.mpr fun c member => by simp [isRead_eq, name.2 c member]
    simp [read, ih]

theorem increasing (cuts : Cuts start cs tokens) : IncreasingFrom start tokens := by
  induction cuts with
  | done start => simp [IncreasingFrom]
  | skip unread _ ih => exact ih.earlier (Nat.le_succ _)
  | symbol symbol _ ih => exact ih.cons rfl (Nat.lt_succ_self _)
  | @name _ x _ _ name next _ ih =>
    have nonempty : 0 < x.length := by
      rw [← String.length_toList]
      exact List.length_pos_of_ne_nil name.1
    exact ih.cons rfl (by omega)

end Cuts

/-- What stands in the text behind a part that no name goes over the end of, stands in the
whole text. -/
theorem standsIn_behind {start : Nat} {front cs : List Char} {token : Token}
    (apart : Apart front cs) (stands : StandsIn (start + front.length) cs token) :
    StandsIn start (front ++ cs) token := by
  obtain ⟨before, after, rfl, position, placed⟩ := stands
  refine ⟨front ++ before, after, by simp, by simp [position, Nat.add_assoc], ?_⟩
  cases placed with
  | symbol symbol => exact .symbol symbol
  | @name x _ _ name previous next =>
    refine .name name (fun c last => ?_) next
    cases before with
    | nil =>
      -- the name begins where the part ends
      obtain ⟨d, others, split⟩ := List.exists_cons_of_ne_nil name.1
      have named : isNameChar d = true := name.2 d (by simp [split])
      have ends := apart c (by simpa using last) d (by simp [split])
      simpa [Lexeme.joined, named] using ends
    | cons first others =>
      refine previous c ?_
      rwa [List.getLast?_append_of_ne_nil _ (List.cons_ne_nil first others)] at last

/-- Every token of a text stands in it. -/
theorem Cuts.standsIn {start : Nat} {cs : List Char} {tokens : List Token}
    (cuts : Cuts start cs tokens) : ∀ token ∈ tokens, StandsIn start cs token := by
  induction cuts with
  | done start => simp
  | @skip _ c rest _ unread _ ih =>
    have apart := apart_of_other (other_of_unread unread) rest
    exact fun token member => standsIn_behind apart (ih token member)
  | @symbol _ _ c rest _ symbol _ ih =>
    refine List.forall_mem_cons.mpr ⟨?_, fun token member => ?_⟩
    · exact ⟨[], rest, by simp, rfl, .symbol (symbol_mem symbol)⟩
    · exact standsIn_behind (apart_of_other (other_of_symbol symbol) rest) (ih token member)
  | @name _ x rest _ name next _ ih =>
    refine List.forall_mem_cons.mpr ⟨?_, fun token member => ?_⟩
    · exact ⟨[], rest, by simp, rfl, .name name (by simp) next⟩
    · have inside := ih token member
      rw [← String.length_toList] at inside
      exact standsIn_behind (apart_of_next next) inside

section Ignored

variable {c : Char} {before after : List Char}

/-- The tokens of a text with a character more that is passed over. -/
theorem tokensFrom_insert (unread : isRead c = false) (before after : List Char) (start : Nat) :
    tokensFrom start (before ++ c :: after) =
      tokensFrom start before ++ tokensFrom (start + before.length + 1) after := by
  have next : ∀ d ∈ (c :: after).head?, isNameChar d = false := by
    simpa using other_of_unread unread
  rw [tokensFrom_append (apart_of_next next), tokensFrom_skip unread]

/-- A character that is passed over is put in or taken out without a change, where it keeps
no two names apart. -/
theorem content_insert (unread : isRead c = false) (apart : Apart before after) :
    (ofChars (before ++ c :: after)).map content = (ofChars (before ++ after)).map content := by
  have elsewhere := (tokensFrom_cuts before.length after).tokensFrom_eq 1
  rw [ofChars_eq, ofChars_eq, tokensFrom_insert unread, tokensFrom_append apart, Nat.zero_add,
    elsewhere]
  simp [content, moved, Function.comp_def]

/-- What is read of a token is its kind and its text. -/
theorem lexemes_of_content {tokens tokens' : List Token}
    (same : tokens.map content = tokens'.map content) :
    tokens.map lexeme? = tokens'.map lexeme? := by
  have factors : lexeme? = (fun pair : Kind × String => lexeme? ⟨pair.1, pair.2, 0⟩) ∘ content := by
    funext token
    obtain ⟨kind, text, position⟩ := token
    cases kind <;> rfl
  rw [factors, ← List.map_map, same, List.map_map]

end Ignored

end ChurchScript.Token

namespace ChurchScript.Term

section Reading

open Token

theorem scan_of_short {source : String} (short : source.length ≤ maxLength) :
    scan source = .ok (ofChars source.toList) := by
  rw [scan, if_neg (Nat.not_lt.mpr short)]

theorem lexemes_insert {c : Char} {before after : List Char} (unread : isRead c = false)
    (apart : Apart before after) :
    Lexeme.all (before ++ c :: after) = Lexeme.all (before ++ after) := by
  have same := lexemes_of_content (content_insert unread apart)
  rw [ofChars_eq, ofChars_eq, List.map_append, List.map_append, tokensFrom_lexemes,
    tokensFrom_lexemes] at same
  exact List.map_injective_iff.mpr (fun _ _ => Option.some.inj) (List.append_cancel_right same)

/-- Texts with the same lexemes are read as the same term. -/
theorem parse_of_lexemes {source other : String} {t : Term} (short : other.length ≤ maxLength)
    (same : Lexeme.all source.toList = Lexeme.all other.toList)
    (parsed : parse source = .ok t) : parse other = .ok t := by
  obtain ⟨phrase, spelled, rfl, fits⟩ := phrase_of_parse parsed
  rw [parse_spelled phrase other (same.symm.trans spelled), if_neg (Nat.not_lt.mpr short),
    if_pos fits]

/-- A text that is not too long is cut into tokens without a loss. The end of input stands
behind all of it, once; positions strictly increase; every other token stands in the text at
its position, a symbol or a name as far as it reaches; and the texts of the tokens make up the
text without the characters that are part of no token. Such a character can be put in or taken
out anywhere but between two name characters: the kinds and texts of the tokens stay the same,
and so does the term that is read. -/
theorem scan_keeps_text :
    (∀ source : String, source.length ≤ maxLength →
      ∃ tokens, scan source = .ok (tokens ++ [⟨.endOfInput, "", source.length⟩]) ∧
        (∀ token ∈ tokens, token.kind ≠ .endOfInput ∧ StandsIn 0 source.toList token) ∧
        ((tokens ++ [⟨.endOfInput, "", source.length⟩]).map Token.position).Pairwise (· < ·) ∧
        tokens.flatMap (fun token => token.text.toList) = source.toList.filter isRead) ∧
    ∀ (before after : List Char) (c : Char), isRead c = false → Apart before after →
      (before ++ c :: after).length ≤ maxLength →
      ∃ tokens tokens', scan (String.ofList (before ++ c :: after)) = .ok tokens ∧
        scan (String.ofList (before ++ after)) = .ok tokens' ∧
        tokens.map content = tokens'.map content ∧
        ∀ t, parse (String.ofList (before ++ c :: after)) = .ok t ↔
          parse (String.ofList (before ++ after)) = .ok t := by
  constructor
  · intro source short
    have cuts := tokensFrom_cuts 0 source.toList
    refine ⟨tokensFrom 0 source.toList, ?_, fun token member => ⟨?_, cuts.standsIn token member⟩,
      ?_, cuts.texts⟩
    · rw [scan_of_short short, ofChars_eq, String.length_toList]
    · obtain ⟨run, -, read⟩ := List.mem_filterMap.mp member
      exact kind_of_run read
    · rw [List.map_append, List.pairwise_append]
      refine ⟨cuts.increasing.2, by simp, List.forall_mem_map.mpr fun token member => ?_⟩
      have bounds := position_of_mem member
      rw [Nat.zero_add, String.length_toList] at bounds
      simpa using bounds.2
  · intro before after c unread apart short
    have longer : (String.ofList (before ++ c :: after)).length ≤ maxLength := by
      rwa [String.length_ofList]
    have shorter : (String.ofList (before ++ after)).length ≤ maxLength := by
      simp only [String.length_ofList, List.length_append, List.length_cons] at short ⊢
      omega
    have lexemes := lexemes_insert unread apart
    refine ⟨_, _, scan_of_short longer, scan_of_short shorter, ?_, fun t => ⟨?_, ?_⟩⟩
    · rw [String.toList_ofList, String.toList_ofList]
      exact content_insert unread apart
    · exact parse_of_lexemes shorter (by simpa using lexemes)
    · exact parse_of_lexemes longer (by simpa using lexemes.symm)

/-- A text with a blank that separates no names, with and without it. -/
theorem scan_keeps_spacedBody :
    "λx. x_1".length ≤ maxLength ∧
      (∃ tokens, scan "λx. x_1" = .ok (tokens ++ [⟨.endOfInput, "", 7⟩]) ∧
        ∀ token ∈ tokens, token.kind ≠ .endOfInput ∧ StandsIn 0 "λx. x_1".toList token) ∧
      isRead ' ' = false ∧ Apart "λx.".toList "x_1".toList ∧
      ∀ t, parse "λx. x_1" = .ok t ↔ parse "λx.x_1" = .ok t := by
  have short : "λx. x_1".length ≤ maxLength := by decide
  have apart : Apart "λx.".toList "x_1".toList := by
    intro a last b _
    cases last
    rfl
  obtain ⟨tokens, scanned, inside, -, -⟩ := scan_keeps_text.1 _ short
  obtain ⟨_, _, -, -, -, alike⟩ := scan_keeps_text.2 _ _ ' ' (by decide) apart short
  exact ⟨short, ⟨tokens, scanned, inside⟩, by decide, apart, alike⟩

end Reading

end ChurchScript.Term
