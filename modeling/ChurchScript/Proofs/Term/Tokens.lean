import ChurchScript.Proofs.Term.Lexemes

/-!
# Tokens of a part of a text

A part of a text that no name goes over the ends of is read as it would be alone: the tokens
that begin in it are its own, at the positions where it stands. Only a non-empty run of name
characters is read as one name.
-/
namespace ChurchScript.Token

/-- The tokens of characters that stand from a position on. -/
def tokensFrom (start : Nat) (cs : List Char) : List Token :=
  (runs (cs.zipIdx start)).filterMap ofRun?

/-- The tokens that begin in a part of a text, given by its position and its length. -/
def within (position length : Nat) (tokens : List Token) : List Token :=
  tokens.filter fun token => position ≤ token.position && token.position < position + length

/-- No name goes over from one text to the next. -/
def Apart (before after : List Char) : Prop :=
  ∀ a ∈ before.getLast?, ∀ b ∈ after.head?, Lexeme.joined a b = false

section Runs

variable {start position : Nat} {cs : List Char} {token : Token}

theorem position_of_run {c : Char} {rest : List (Char × Nat)}
    (read : ofRun? ((c, position) :: rest) = some token) : token.position = position := by
  simp only [ofRun?] at read
  split at read
  · cases read
    rfl
  · obtain ⟨_, same⟩ := Option.ite_none_right_eq_some.mp read
    cases same
    rfl

theorem position_of_mem (member : token ∈ tokensFrom start cs) :
    start ≤ token.position ∧ token.position < start + cs.length := by
  obtain ⟨run, inside, read⟩ := List.mem_filterMap.mp member
  cases run with
  | nil => cases read
  | cons first rest =>
    obtain ⟨c, position⟩ := first
    have somewhere : (c, position) ∈ cs.zipIdx start := by
      rw [← List.flatten_splitBy (fun a b => isNameChar a.1 && isNameChar b.1) (cs.zipIdx start)]
      exact List.mem_flatten.mpr ⟨_, inside, List.mem_cons_self⟩
    rw [position_of_run read]
    exact ⟨(List.mem_zipIdx somewhere).1, (List.mem_zipIdx somewhere).2.1⟩

theorem tokensFrom_append {before after : List Char} (apart : Apart before after) (start : Nat) :
    tokensFrom start (before ++ after) =
      tokensFrom start before ++ tokensFrom (start + before.length) after := by
  unfold tokensFrom runs
  rw [List.zipIdx_append, List.splitBy_append, List.filterMap_append]
  intro a last b first
  rw [List.getLast?_zipIdx] at last
  rw [List.head?_zipIdx] at first
  obtain ⟨lastChar, isLast, rfl⟩ := Option.map_eq_some_iff.mp last
  obtain ⟨firstChar, isFirst, rfl⟩ := Option.map_eq_some_iff.mp first
  exact apart lastChar isLast firstChar isFirst

/-- All of a run that begins with a name character is a name. -/
theorem nameChars_of_isChain {run : List (Char × Nat)} {c : Char × Nat}
    (chain : (c :: run).IsChain fun a b => (isNameChar a.1 && isNameChar b.1) = true)
    (named : isNameChar c.1 = true) : ∀ d ∈ c :: run, isNameChar d.1 = true := by
  induction run generalizing c with
  | nil => simpa using named
  | cons next rest ih =>
    obtain ⟨first, others⟩ := List.isChain_cons_cons.mp chain
    have nextNamed := (Bool.and_eq_true_iff.mp first).2
    exact List.forall_mem_cons.mpr ⟨named, ih others nextNamed⟩

/-- Every name that is read is a non-empty run of name characters. -/
theorem isName_of_mem (member : token ∈ tokensFrom start cs) (kind : token.kind = .name) :
    Lexeme.IsName token.text := by
  obtain ⟨run, inside, read⟩ := List.mem_filterMap.mp member
  cases run with
  | nil => cases read
  | cons first rest =>
    simp only [ofRun?] at read
    split at read
    · rename_i symbol
      cases read
      unfold Kind.ofSymbol? at symbol
      split_ifs at symbol <;> simp_all
    · obtain ⟨named, same⟩ := Option.ite_none_right_eq_some.mp read
      cases same
      have all := nameChars_of_isChain (List.isChain_of_mem_splitBy inside) named
      refine ⟨by simp, fun d member => ?_⟩
      have member : d ∈ (first :: rest).map Prod.fst := by simpa using member
      obtain ⟨pair, among, rfl⟩ := List.mem_map.mp member
      exact all pair among

end Runs

theorem tokensFrom_name {x : String} (name : Lexeme.IsName x) (start : Nat) :
    tokensFrom start x.toList = [⟨.name, x, start⟩] := by
  have chain := name.isChain
  rw [← List.zipIdx_map_fst start x.toList, List.isChain_map] at chain
  obtain ⟨nonempty, chars⟩ := name
  obtain ⟨c, rest, split⟩ := List.exists_cons_of_ne_nil nonempty
  have named : isNameChar c = true := chars c (by simp [split])
  have whole : String.ofList (c :: rest) = x := by rw [← split, String.ofList_toList]
  have one : runs (x.toList.zipIdx start) = [x.toList.zipIdx start] :=
    List.splitBy_of_isChain (by simpa using nonempty) chain
  rw [tokensFrom, one, split]
  simp [ofRun?, Lexeme.symbol_of_nameChar named, named, whole]

/-- Exactly the names are read as one name, wherever they stand. -/
theorem tokensFrom_eq_name_iff (x : String) (start : Nat) :
    tokensFrom start x.toList = [⟨.name, x, start⟩] ↔ Lexeme.IsName x := by
  refine ⟨fun read => ?_, fun name => tokensFrom_name name start⟩
  have member : (⟨.name, x, start⟩ : Token) ∈ tokensFrom start x.toList := by simp [read]
  exact isName_of_mem member rfl

theorem tokensFrom_lexemes (cs : List Char) (start : Nat) :
    (tokensFrom start cs).map lexeme? = (Lexeme.all cs).map some :=
  runs_lexemes cs start

theorem ofChars_eq (cs : List Char) :
    ofChars cs = tokensFrom 0 cs ++ [⟨.endOfInput, "", cs.length⟩] := rfl

section Within

variable {position length start : Nat} {cs : List Char}

theorem within_append (tokens tokens' : List Token) :
    within position length (tokens ++ tokens') =
      within position length tokens ++ within position length tokens' :=
  List.filter_append ..

theorem within_self : within start cs.length (tokensFrom start cs) = tokensFrom start cs := by
  refine List.filter_eq_self.mpr fun token member => ?_
  have bounds := position_of_mem member
  simpa using bounds

theorem within_before (above : start + cs.length ≤ position) :
    within position length (tokensFrom start cs) = [] := by
  refine List.filter_eq_nil_iff.mpr fun token member => ?_
  have bounds := position_of_mem member
  simp only [Bool.and_eq_true, decide_eq_true_eq]
  omega

theorem within_behind (above : position + length ≤ start) :
    within position length (tokensFrom start cs) = [] := by
  refine List.filter_eq_nil_iff.mpr fun token member => ?_
  have bounds := position_of_mem member
  simp only [Bool.and_eq_true, decide_eq_true_eq]
  omega

/-- The tokens that begin in a part of a text are those of the part. -/
theorem within_part {before part after : List Char} (left : Apart before (part ++ after))
    (right : Apart part after) :
    within before.length part.length (ofChars (before ++ (part ++ after))) =
      tokensFrom before.length part := by
  have last : within before.length part.length
      [⟨.endOfInput, "", (before ++ (part ++ after)).length⟩] = [] := by
    simp [within]
  rw [ofChars_eq, tokensFrom_append left, tokensFrom_append right, Nat.zero_add, within_append,
    within_append, within_append, within_before (by simp), within_self, within_behind le_rfl, last]
  simp

end Within

end ChurchScript.Token
