import Mathlib.Algebra.BigOperators.Group.List.Basic
import Mathlib.Data.List.SplitBy
import ChurchScript.Term.Token

/-!
# Lexemes of lambda text

A lexeme is a token without its position. The lexemes of a text fall apart at
every character that continues no name, so the lexemes of a text put together
from pieces can be read off the pieces.
-/
namespace ChurchScript

inductive Lexeme where
  | lambda | dot | openParen | closeParen
  | name (x : String)
  deriving DecidableEq, Repr

/-- The end of input is no lexeme. -/
def Token.lexeme? : Token → Option Lexeme
  | ⟨.lambda, _, _⟩ => some .lambda
  | ⟨.dot, _, _⟩ => some .dot
  | ⟨.openParen, _, _⟩ => some .openParen
  | ⟨.closeParen, _, _⟩ => some .closeParen
  | ⟨.name, x, _⟩ => some (.name x)
  | ⟨.endOfInput, _, _⟩ => none

namespace Lexeme

/-- Whether two neighbouring characters belong to one name. -/
def joined (a b : Char) : Bool := Token.isNameChar a && Token.isNameChar b

def ofRun? (run : List Char) : Option Lexeme :=
  (Token.ofRun? (run.map (·, 0))).bind Token.lexeme?

/-- The lexemes of a text. -/
def all (cs : List Char) : List Lexeme :=
  (cs.splitBy joined).filterMap ofRun?

/-- A non-empty run of name characters, which is read as one name. -/
def IsName (x : String) : Prop :=
  x.toList ≠ [] ∧ ∀ c ∈ x.toList, Token.isNameChar c = true

instance (x : String) : Decidable (IsName x) :=
  @instDecidableAnd _ _ (inferInstanceAs (Decidable (x.toList ≠ [])))
    (List.decidableBAll (fun c => Token.isNameChar c = true) x.toList)

/-- No name character is one of the symbols. -/
theorem symbol_of_nameChar {c : Char} (named : Token.isNameChar c = true) :
    Token.Kind.ofSymbol? c = none := by
  have lambda : c ≠ 'λ' := by rintro rfl; exact absurd named (by decide)
  have dot : c ≠ '.' := by rintro rfl; exact absurd named (by decide)
  have openParen : c ≠ '(' := by rintro rfl; exact absurd named (by decide)
  have closeParen : c ≠ ')' := by rintro rfl; exact absurd named (by decide)
  simp [Token.Kind.ofSymbol?, lambda, dot, openParen, closeParen]

theorem IsName.isChain {x : String} (name : IsName x) :
    x.toList.IsChain fun a b => joined a b = true := by
  apply List.Pairwise.isChain
  rw [List.pairwise_iff_forall_sublist]
  intro a b sub
  have ha := name.2 a (sub.subset (by simp))
  have hb := name.2 b (sub.subset (by simp))
  simp [joined, ha, hb]

theorem all_name (x : String) (name : IsName x) : all x.toList = [.name x] := by
  have chain := name.isChain
  obtain ⟨nonempty, chars⟩ := name
  rw [all, List.splitBy_of_isChain nonempty chain]
  obtain ⟨c, rest, split⟩ := List.exists_cons_of_ne_nil nonempty
  have named : Token.isNameChar c = true := chars c (by simp [split])
  have whole : String.ofList (c :: rest) = x := by rw [← split, String.ofList_toList]
  simp [split, ofRun?, Token.ofRun?, symbol_of_nameChar named, named, Token.lexeme?,
    Function.comp_def, whole]

/-- A text falls apart before and after a character that continues no name. -/
theorem all_cut (before after : List Char) {c : Char} (cut : Token.isNameChar c = false) :
    all (before ++ c :: after) = all before ++ ((ofRun? [c]).toList ++ all after) := by
  have left : (before ++ c :: after).splitBy joined =
      before.splitBy joined ++ (c :: after).splitBy joined := by
    apply List.splitBy_append_cons
    intro x _
    simp [joined, cut]
  have right : (c :: after).splitBy joined = [c] :: after.splitBy joined := by
    rw [← List.singleton_append, List.splitBy_append]
    · rfl
    · simp [joined, cut]
  rw [all, left, right, List.filterMap_append, List.filterMap_cons]
  cases ofRun? [c] <;> rfl

@[simp] theorem all_nil : all [] = [] := rfl

@[simp] theorem all_openParen (before after : List Char) :
    all (before ++ '(' :: after) = all before ++ .openParen :: all after :=
  all_cut before after rfl

@[simp] theorem all_closeParen (before after : List Char) :
    all (before ++ ')' :: after) = all before ++ .closeParen :: all after :=
  all_cut before after rfl

@[simp] theorem all_lambda (before after : List Char) :
    all (before ++ 'λ' :: after) = all before ++ .lambda :: all after :=
  all_cut before after rfl

@[simp] theorem all_dot (before after : List Char) :
    all (before ++ '.' :: after) = all before ++ .dot :: all after :=
  all_cut before after rfl

@[simp] theorem all_blank (before after : List Char) :
    all (before ++ ' ' :: after) = all before ++ all after :=
  all_cut before after rfl

theorem length_all_le (cs : List Char) : (all cs).length ≤ cs.length := by
  have runs : (cs.splitBy joined).length ≤ (cs.splitBy joined).flatten.length := by
    rw [List.length_flatten, ← List.length_map List.length]
    refine List.length_le_sum_of_one_le _ fun n member => ?_
    obtain ⟨run, inside, rfl⟩ := List.mem_map.mp member
    exact List.length_pos_of_ne_nil (List.ne_nil_of_mem_splitBy inside)
  rw [List.flatten_splitBy] at runs
  exact (List.length_filterMap_le _ _).trans runs

end Lexeme

namespace Token

/-- What a run is read as does not depend on where it stands. -/
theorem lexeme_of_run (run : List (Char × Nat)) :
    (ofRun? run).bind lexeme? = Lexeme.ofRun? (run.map Prod.fst) := by
  cases run with
  | nil => rfl
  | cons first rest =>
    simp only [Lexeme.ofRun?, List.map_cons, ofRun?]
    cases Kind.ofSymbol? first.1 with
    | some kind => cases kind <;> rfl
    | none =>
      by_cases named : isNameChar first.1 = true
      · simp [named, lexeme?, Function.comp_def]
      · simp [named]

/-- Cutting a text into runs leaves its positions aside. -/
theorem runs_chars (cs : List (Char × Nat)) :
    (runs cs).map (List.map Prod.fst) = (cs.map Prod.fst).splitBy Lexeme.joined := by
  symm
  rw [List.splitBy_eq_iff]
  refine ⟨?_, ?_, ?_, ?_⟩
  · rw [← List.map_flatten, runs, List.flatten_splitBy]
  · simp [runs]
  · intro run member
    obtain ⟨origin, inside, rfl⟩ := List.mem_map.mp member
    rw [List.isChain_map]
    exact List.isChain_of_mem_splitBy inside
  · rw [List.isChain_map]
    apply (List.isChain_getLast_head_splitBy _ cs).imp
    rintro a b ⟨ha, hb, apart⟩
    refine ⟨by simpa using ha, by simpa using hb, ?_⟩
    simpa [Lexeme.joined] using apart

theorem lexeme_isSome_of_kind {token : Token} (inside : token.kind ≠ .endOfInput) :
    token.lexeme?.isSome := by
  obtain ⟨kind, text, position⟩ := token
  cases kind with
  | endOfInput => exact absurd rfl inside
  | _ => rfl

/-- What a run is read as is never the end of input. -/
theorem kind_of_run {run : List (Char × Nat)} {token : Token} (read : ofRun? run = some token) :
    token.kind ≠ .endOfInput := by
  cases run with
  | nil => cases read
  | cons first rest =>
    simp only [ofRun?] at read
    cases symbol : Kind.ofSymbol? first.1 with
    | some kind =>
      simp only [symbol, Option.some.injEq] at read
      subst read
      rintro rfl
      unfold Kind.ofSymbol? at symbol
      split_ifs at symbol <;> cases symbol
    | none =>
      simp only [symbol, Option.ite_none_right_eq_some, Option.some.injEq] at read
      rw [← read.2]
      simp

/-- The tokens of a text, wherever it stands, are its lexemes with positions. -/
theorem runs_lexemes (cs : List Char) (start : Nat) :
    ((runs (cs.zipIdx start)).filterMap ofRun?).map lexeme? = (Lexeme.all cs).map some := by
  have chars : cs = (cs.zipIdx start).map Prod.fst := by simp
  have lexemes : Lexeme.all cs =
      (runs (cs.zipIdx start)).filterMap fun run => (ofRun? run).bind lexeme? := by
    rw [Lexeme.all]
    conv_lhs => rw [chars, ← runs_chars, List.filterMap_map]
    simp only [Function.comp_def, lexeme_of_run]
  rw [lexemes]
  induction runs (cs.zipIdx start) with
  | nil => rfl
  | cons run rest ih =>
    cases read : ofRun? run with
    | none => simpa [read] using ih
    | some token =>
      obtain ⟨lexeme, same⟩ := Option.isSome_iff_exists.mp
        (lexeme_isSome_of_kind (kind_of_run read))
      simpa [read, same] using ih

/-- The tokens of a text are its lexemes with positions, and the end of input. -/
theorem ofChars_lexemes (cs : List Char) :
    ∃ tokens, ofChars cs = tokens ++ [⟨.endOfInput, "", cs.length⟩] ∧
      tokens.map lexeme? = (Lexeme.all cs).map some :=
  ⟨(runs cs.zipIdx).filterMap ofRun?, rfl, runs_lexemes cs 0⟩

end Token
end ChurchScript
