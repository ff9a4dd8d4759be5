import ChurchScript.Proofs.Term.Tokenization

/-!
# Reading tokens with a cursor

The tokens of a text also come from a cursor that goes through its characters: it passes over
those that belong to no token, takes a symbol or all of a name, and reports the end of the
input once. It gives what the text from its position on is cut into (`yields_of_cuts`), so from
the start it gives the tokens of the text and stops (`scan_eq_ok_iff_yields`).
-/
namespace ChurchScript.Token

/-- The characters of a text, the position among them that is read next, and whether the end
of the input has been reported. -/
structure Cursor where
  source : Array Char
  position : Nat
  finished : Bool

namespace Cursor

def start (source : String) : Cursor := ⟨source.toList.toArray, 0, false⟩

/-- The first position, not before the given one, without a name character. -/
def nameEnd (source : Array Char) (position : Nat) : Nat :=
  if _ : position < source.size then
    if isNameChar source[position] then nameEnd source (position + 1) else position
  else position
termination_by source.size - position

/-- The token that comes next, and the cursor behind it. -/
def advance (source : Array Char) (position : Nat) : Token × Cursor :=
  if _ : position < source.size then
    match Kind.ofSymbol? source[position] with
    | some kind =>
      (⟨kind, String.singleton source[position], position⟩, ⟨source, position + 1, false⟩)
    | none =>
      if isNameChar source[position] then
        let last := nameEnd source position
        (⟨.name, String.ofList (source.extract position last).toList, position⟩,
          ⟨source, last, false⟩)
      else advance source (position + 1)
  else (⟨.endOfInput, "", position⟩, ⟨source, position, true⟩)
termination_by source.size - position

def next? (cursor : Cursor) : Option (Token × Cursor) :=
  if cursor.finished then none else some (advance cursor.source cursor.position)

/-- All tokens that a cursor gives until it stops. -/
inductive Yields : Cursor → List Token → Prop
  | stop {cursor : Cursor} : cursor.next? = none → Yields cursor []
  | token {cursor after : Cursor} {token : Token} {tokens : List Token} :
      cursor.next? = some (token, after) → Yields after tokens → Yields cursor (token :: tokens)

section Steps

variable {source : Array Char} {position : Nat} {c : Char} {rest : List Char}

theorem of_drop_eq_cons (there : source.toList.drop position = c :: rest) :
    ∃ inside : position < source.size, source[position] = c ∧
      source.toList.drop (position + 1) = rest := by
  have inside : position < source.size := by
    have lengths := congrArg List.length there
    simp only [List.length_drop, Array.length_toList, List.length_cons] at lengths
    omega
  rw [List.drop_eq_getElem_cons inside, List.cons.injEq, Array.getElem_toList] at there
  exact ⟨inside, there⟩

/-- The end of a name is found behind its last character. The induction is on the name. -/
theorem nameEnd_eq {name : List Char} (there : source.toList.drop position = name ++ rest)
    (named : ∀ c ∈ name, isNameChar c = true) (next : ∀ c ∈ rest.head?, isNameChar c = false) :
    nameEnd source position = position + name.length := by
  induction name generalizing position with
  | nil =>
    unfold nameEnd
    split
    · rename_i inside
      rw [List.drop_eq_getElem_cons inside, List.nil_append, Array.getElem_toList] at there
      have other : isNameChar source[position] = false := next _ (by rw [← there]; rfl)
      simp [other]
    · rfl
  | cons c more ih =>
    obtain ⟨inside, own, others⟩ := of_drop_eq_cons there
    rw [List.forall_mem_cons] at named
    rw [nameEnd, dif_pos inside, own, if_pos named.1, ih others named.2, List.length_cons]
    omega

theorem advance_end (there : source.toList.drop position = []) (bounded : position ≤ source.size) :
    advance source position = (⟨.endOfInput, "", source.size⟩, ⟨source, source.size, true⟩) := by
  have outside : source.size ≤ position := List.drop_eq_nil_iff.mp there
  obtain rfl : position = source.size := Nat.le_antisymm bounded outside
  rw [advance, dif_neg (Nat.lt_irrefl _)]

theorem advance_skip (there : source.toList.drop position = c :: rest) (unread : isRead c = false) :
    advance source position = advance source (position + 1) := by
  obtain ⟨inside, own, -⟩ := of_drop_eq_cons there
  rw [isRead_eq, Bool.or_eq_false_iff, Option.isSome_eq_false_iff, Option.isNone_iff_eq_none]
    at unread
  rw [advance, dif_pos inside, own]
  simp only [unread.1, unread.2, Bool.false_eq_true, if_false]

theorem advance_symbol {kind : Kind} (there : source.toList.drop position = c :: rest)
    (symbol : Kind.ofSymbol? c = some kind) :
    advance source position =
      (⟨kind, String.singleton c, position⟩, ⟨source, position + 1, false⟩) := by
  obtain ⟨inside, own, -⟩ := of_drop_eq_cons there
  rw [advance, dif_pos inside, own]
  simp only [symbol]

/-- A name that lies ahead is taken whole. -/
theorem advance_name {x : String} (there : source.toList.drop position = x.toList ++ rest)
    (name : Lexeme.IsName x) (next : ∀ c ∈ rest.head?, isNameChar c = false) :
    advance source position =
      (⟨.name, x, position⟩, ⟨source, position + x.length, false⟩) := by
  obtain ⟨first, more, split⟩ := List.exists_cons_of_ne_nil name.1
  obtain ⟨inside, own, -⟩ := of_drop_eq_cons (there.trans (by rw [split, List.cons_append]))
  have named : isNameChar first = true := name.2 first (by simp [split])
  have last := nameEnd_eq there name.2 next
  have whole : (source.extract position (position + x.toList.length)).toList = x.toList := by
    rw [Array.toList_extract, List.extract_eq_take_drop, there, Nat.add_sub_cancel_left,
      List.take_left]
  rw [advance, dif_pos inside, own, Lexeme.symbol_of_nameChar named]
  simp only [named, if_true, last, whole, String.ofList_toList]
  rw [String.length_toList]

end Steps

theorem Yields.of_next? {cursor cursor' : Cursor} {tokens : List Token}
    (same : cursor.next? = cursor'.next?) (yields : Yields cursor' tokens) :
    Yields cursor tokens := by
  cases yields with
  | stop ended => exact .stop (same.trans ended)
  | token taken rest => exact .token (same.trans taken) rest

/-- A cursor gives what the text ahead of it is cut into, and then the end of the input. The
induction is on how that text is gone through. -/
theorem yields_of_cuts {source : Array Char} {position : Nat} {cs : List Char}
    {tokens : List Token} (cuts : Cuts position cs tokens) (there : source.toList.drop position = cs)
    (bounded : position ≤ source.size) :
    Yields ⟨source, position, false⟩ (tokens ++ [⟨.endOfInput, "", source.size⟩]) := by
  induction cuts with
  | done start => exact .token (congrArg some (advance_end there bounded)) (.stop rfl)
  | @skip start _ _ _ unread _ ih =>
    obtain ⟨inside, -, others⟩ := of_drop_eq_cons there
    have same : next? ⟨source, start, false⟩ = next? ⟨source, start + 1, false⟩ :=
      congrArg some (advance_skip there unread)
    exact .of_next? same (ih others inside)
  | symbol symbol _ ih =>
    obtain ⟨inside, -, others⟩ := of_drop_eq_cons there
    exact .token (congrArg some (advance_symbol there symbol)) (ih others inside)
  | @name start x rest _ name next _ ih =>
    have others : source.toList.drop (start + x.length) = rest := by
      rw [← List.drop_drop, there, ← String.length_toList, List.drop_left]
    have fits : start + x.length ≤ source.size := by
      have lengths := congrArg List.length there
      simp only [List.length_drop, Array.length_toList, List.length_append,
        String.length_toList] at lengths
      omega
    exact .token (congrArg some (advance_name there name next)) (ih others fits)

theorem Yields.unique {cursor : Cursor} {tokens tokens' : List Token}
    (yields : Yields cursor tokens) (yields' : Yields cursor tokens') : tokens = tokens' := by
  induction yields generalizing tokens' with
  | stop ended =>
    cases yields' with
    | stop _ => rfl
    | token taken _ => cases ended.symm.trans taken
  | token taken _ ih =>
    cases yields' with
    | stop ended => cases ended.symm.trans taken
    | token taken' rest' =>
      cases taken.symm.trans taken'
      rw [ih rest']

end Cursor

/-- The tokens of a text that is not too long are what a cursor gives, and nothing else. -/
theorem scan_eq_ok_iff_yields (source : String) (tokens : List Token) :
    scan source = .ok tokens ↔
      source.length ≤ maxLength ∧ Cursor.Yields (.start source) tokens := by
  have yields : Cursor.Yields (.start source) (ofChars source.toList) := by
    have all : Cursor.Yields ⟨source.toList.toArray, 0, false⟩ _ :=
      Cursor.yields_of_cuts (tokensFrom_cuts 0 source.toList) rfl (Nat.zero_le _)
    rwa [List.size_toArray] at all
  unfold scan
  split
  · rename_i long
    simp only [reduceCtorEq, false_iff, not_and]
    omega
  · rename_i short
    rw [Except.ok.injEq]
    exact ⟨fun same => ⟨by omega, same ▸ yields⟩, fun read => yields.unique read.2⟩

end ChurchScript.Token
