import Mathlib.Algebra.Group.Int.Defs
import Mathlib.Data.List.TakeWhile
import ChurchScript.Diagram.Stroke
import ChurchScript.Diagram.Svg

/-!
# Reading the coordinates of a written line element

Quotes divide an element into pieces. A coordinate is found where a piece ends in its name
and an equals sign (`dangling?`), and its value is the next piece, whatever that piece was
written for. Colours are caller's text and are pieces too: escaping keeps them from
containing a quote or an angle bracket, but not from ending in an unfinished coordinate
(`dangling?_escape`).
-/
namespace ChurchScript.Diagram

section Pieces

def Coordinate.name : Coordinate → String
  | .x1 => "x1"
  | .y1 => "y1"
  | .x2 => "x2"
  | .y2 => "y2"

/-- The coordinate of which a text is the name and the equals sign, without a value. -/
def unfinished? (cs : List Char) : Option Coordinate := do
  let (coordinate, rest) ← Coordinate.read? cs
  let rest ← afterMark? '=' rest
  if rest.all Text.isBlank then some coordinate else none

/-- The coordinate that a text ends in without its value, `inWord` telling whether a word
character precedes the text. -/
def dangling? (inWord : Bool) : List Char → Option Coordinate
  | [] => none
  | c :: cs =>
    if inWord then dangling? (Text.isWord c) cs
    else (unfinished? (c :: cs)).or (dangling? (Text.isWord c) cs)

variable {piece value : List Char}

theorem read?_piece (unquoted : '"' ∉ piece) (rest : List Char) :
    Coordinate.read? (piece ++ '"' :: rest) =
      (Coordinate.read? piece).map fun found => (found.1, found.2 ++ '"' :: rest) := by
  match piece with
  | [] => rfl
  | [c] => by_cases x : c = 'x' <;> by_cases y : c = 'y' <;> simp_all [Coordinate.read?]
  | c :: d :: more =>
    simp only [List.cons_append]
    unfold Coordinate.read?
    split <;> simp_all

theorem afterMark?_piece {mark : Char} (other : mark ≠ '"') (rest : List Char) :
    afterMark? mark (piece ++ '"' :: rest) =
      (afterMark? mark piece).map (· ++ '"' :: rest) := by
  have notBlank : Text.isBlank '"' = false := by decide
  induction piece with
  | nil => simp [afterMark?, notBlank, other.symm]
  | cons c cs ih =>
    by_cases blank : Text.isBlank c = true
    · simpa [afterMark?, blank] using ih
    · simp only [afterMark?, List.cons_append, List.dropWhile_cons_of_neg blank]
      split <;> rfl

/-- What follows the quote behind a piece that is blank. -/
theorem afterMark?_quote (unquoted : '"' ∉ piece) (rest : List Char) :
    afterMark? '"' (piece ++ '"' :: rest) = if piece.all Text.isBlank then some rest else none := by
  have notBlank : Text.isBlank '"' = false := by decide
  induction piece with
  | nil => simp [afterMark?, notBlank]
  | cons c cs ih =>
    have later : '"' ∉ cs := fun member => unquoted (List.mem_cons_of_mem c member)
    have here : c ≠ '"' := fun same => unquoted (same ▸ List.mem_cons_self)
    by_cases blank : Text.isBlank c = true
    · simpa [afterMark?, blank] using ih later
    · simp [afterMark?, blank, here]

theorem not_mem_of_read? {cs rest : List Char} {coordinate : Coordinate} {c : Char}
    (found : Coordinate.read? cs = some (coordinate, rest)) (absent : c ∉ cs) : c ∉ rest := by
  unfold Coordinate.read? at found
  split at found <;> cases found <;> simp_all

theorem not_mem_of_afterMark? {mark c : Char} {cs rest : List Char}
    (found : afterMark? mark cs = some rest) (absent : c ∉ cs) : c ∉ rest := by
  unfold afterMark? at found
  split at found
  next d tail shape =>
    split at found
    · cases found
      intro member
      have inDropped : c ∈ cs.dropWhile Text.isBlank := shape ▸ List.mem_cons_of_mem d member
      exact absent ((List.dropWhile_suffix _).subset inDropped)
    · cases found
  next => cases found

/-- At the start of a piece there is a coordinate exactly if the piece is nothing else. -/
theorem assignment?_piece (unquoted : '"' ∉ piece) (plain : '"' ∉ value) (rest : List Char) :
    assignment? (piece ++ '"' :: (value ++ '"' :: rest)) =
      (unfinished? piece).map fun coordinate => ((coordinate, value), rest) := by
  have ends : (value ++ '"' :: rest).dropWhile (· != '"') = '"' :: rest ∧
      (value ++ '"' :: rest).takeWhile (· != '"') = value := by
    have all : ∀ c ∈ value, (c != '"') = true := by
      intro c member
      simpa using fun same : c = '"' => plain (same ▸ member)
    rw [List.dropWhile_append_of_pos all, List.takeWhile_append_of_pos all]
    simp
  simp only [assignment?, unfinished?, read?_piece unquoted, Option.bind_eq_bind]
  cases read : Coordinate.read? piece with
  | none => rfl
  | some found =>
    obtain ⟨coordinate, behind⟩ := found
    have unquoted' := not_mem_of_read? read unquoted
    simp only [Option.map_some, Option.bind_some, afterMark?_piece (show '=' ≠ '"' by decide)]
    cases mark : afterMark? '=' behind with
    | none => rfl
    | some blanks =>
      simp only [Option.map_some, Option.bind_some,
        afterMark?_quote (not_mem_of_afterMark? mark unquoted')]
      by_cases blank : blanks.all Text.isBlank = true
      · simp only [blank, if_true, Option.bind_some, Option.map_some, ends]
      · simp only [blank, Bool.false_eq_true, if_false, Option.bind_none, Option.map_none]

theorem assignments_cons_inWord (c : Char) (cs : List Char) :
    assignments true (c :: cs) = assignments (Text.isWord c) cs := by
  rw [assignments, if_pos rfl]

theorem assignments_cons_none {c : Char} {cs : List Char} (none : assignment? (c :: cs) = none) :
    assignments false (c :: cs) = assignments (Text.isWord c) cs := by
  rw [assignments]
  simp only [Bool.false_eq_true, if_false]
  split
  next found => rw [none] at found; cases found
  next => rfl

theorem assignments_cons_some {cs behind : List Char} {found : Coordinate × List Char}
    (here : assignment? cs = some (found, behind)) :
    assignments false cs = found :: assignments false behind := by
  cases cs with
  | nil => cases here
  | cons c cs =>
    rw [assignments]
    simp only [Bool.false_eq_true, if_false]
    split
    next other => rw [here] at other; cases other; rfl
    next none => rw [here] at none; cases none

/-- Reading goes from piece to piece: a coordinate that a piece ends in takes the next piece
for its value. -/
theorem assignments_piece (inWord : Bool) (unquoted : '"' ∉ piece) (plain : '"' ∉ value)
    (rest : List Char) :
    assignments inWord (piece ++ '"' :: (value ++ '"' :: rest)) =
      match dangling? inWord piece with
      | some coordinate => (coordinate, value) :: assignments false rest
      | none => assignments false (value ++ '"' :: rest) := by
  have quote : Text.isWord '"' = false := by decide
  induction piece generalizing inWord with
  | nil =>
    cases inWord with
    | true => rw [List.nil_append, assignments_cons_inWord, quote, dangling?]
    | false => rw [List.nil_append, assignments_cons_none rfl, quote, dangling?]
  | cons c cs ih =>
    have later : '"' ∉ cs := fun member => unquoted (List.mem_cons_of_mem c member)
    cases inWord with
    | true =>
      rw [List.cons_append, assignments_cons_inWord, ih _ later, dangling?, if_pos rfl]
    | false =>
      have start := assignment?_piece unquoted plain rest
      simp only [dangling?, Bool.false_eq_true, if_false]
      cases unfinished : unfinished? (c :: cs) with
      | some coordinate =>
        rw [unfinished] at start
        rw [assignments_cons_some start]
        rfl
      | none =>
        rw [unfinished, List.cons_append] at start
        rw [List.cons_append, assignments_cons_none start, ih _ later, Option.none_or]

theorem read?_cons_eq_none {c : Char} (other : c ≠ 'x' ∧ c ≠ 'y') (cs : List Char) :
    Coordinate.read? (c :: cs) = none := by
  simp [Coordinate.read?, other]

/-- Whether a text has none of the letters that coordinates begin with. -/
def Unlettered (cs : List Char) : Prop := 'x' ∉ cs ∧ 'y' ∉ cs

instance (cs : List Char) : Decidable (Unlettered cs) :=
  inferInstanceAs (Decidable (_ ∧ _))

theorem unlettered_cons {c : Char} {cs : List Char} :
    Unlettered (c :: cs) ↔ (c ≠ 'x' ∧ c ≠ 'y') ∧ Unlettered cs := by
  simp only [Unlettered, List.mem_cons, not_or, ne_eq, eq_comm]
  exact and_and_and_comm

theorem unlettered_append {cs cs' : List Char} :
    Unlettered (cs ++ cs') ↔ Unlettered cs ∧ Unlettered cs' := by
  simp only [Unlettered, List.mem_append, not_or]
  exact and_and_and_comm

theorem unlettered_of_forall {cs : List Char} (others : ∀ c ∈ cs, c ≠ 'x' ∧ c ≠ 'y') :
    Unlettered cs :=
  ⟨fun x => (others _ x).1 rfl, fun y => (others _ y).2 rfl⟩

/-- Without its letters there is no coordinate. -/
theorem assignments_eq_nil (inWord : Bool) {cs : List Char} (unlettered : Unlettered cs) :
    assignments inWord cs = [] := by
  induction cs generalizing inWord with
  | nil => rw [assignments]
  | cons c cs ih =>
    obtain ⟨other, rest⟩ := unlettered_cons.mp unlettered
    have later := fun inWord => ih inWord rest
    cases inWord with
    | true => rw [assignments_cons_inWord, later]
    | false =>
      have none : assignment? (c :: cs) = none := by
        rw [assignment?, read?_cons_eq_none other]
        rfl
      rw [assignments_cons_none none, later]

theorem dangling?_cons_other {c : Char} (other : c ≠ 'x' ∧ c ≠ 'y') (inWord : Bool)
    (cs : List Char) : dangling? inWord (c :: cs) = dangling? (Text.isWord c) cs := by
  have none : unfinished? (c :: cs) = none := by
    rw [unfinished?, read?_cons_eq_none other]
    rfl
  rw [dangling?, none, Option.none_or, ite_self]

/-- A text without the letters of the coordinates does not end in one. -/
theorem dangling?_eq_none (inWord : Bool) {cs : List Char} (unlettered : Unlettered cs) :
    dangling? inWord cs = none := by
  induction cs generalizing inWord with
  | nil => rfl
  | cons c cs ih =>
    obtain ⟨other, rest⟩ := unlettered_cons.mp unlettered
    rw [dangling?_cons_other other, ih _ rest]

/-- Such a text can be left out up to a character that belongs to no word. -/
theorem dangling?_append {cs : List Char} (unlettered : Unlettered cs) (inWord : Bool)
    (rest : List Char) : dangling? inWord (cs ++ ';' :: rest) = dangling? false rest := by
  induction cs generalizing inWord with
  | nil => exact dangling?_cons_other (by decide) inWord rest
  | cons c cs ih =>
    obtain ⟨other, further⟩ := unlettered_cons.mp unlettered
    rw [List.cons_append, dangling?_cons_other other, ih further]

end Pieces

section Endings

theorem read?_eq_some_iff {cs rest : List Char} {coordinate : Coordinate} :
    Coordinate.read? cs = some (coordinate, rest) ↔ cs = coordinate.name.toList ++ rest := by
  constructor
  · intro found
    unfold Coordinate.read? at found
    split at found <;> cases found <;> rfl
  · rintro rfl
    cases coordinate <;> rfl

theorem afterMark?_eq_some_iff {mark : Char} (visible : Text.isBlank mark = false)
    {cs rest : List Char} : afterMark? mark cs = some rest ↔
      ∃ blanks, cs = blanks ++ mark :: rest ∧ ∀ c ∈ blanks, Text.isBlank c = true := by
  constructor
  · intro found
    refine ⟨cs.takeWhile Text.isBlank, ?_, fun c member => List.mem_takeWhile_imp member⟩
    unfold afterMark? at found
    split at found
    next c tail shape =>
      split at found
      next here =>
        cases found
        rw [← beq_iff_eq.mp here, ← shape, List.takeWhile_append_dropWhile]
      next => cases found
    next => cases found
  · rintro ⟨blanks, rfl, blank⟩
    simp [afterMark?, List.dropWhile_append_of_pos blank, visible]

theorem unfinished?_eq_some_iff {cs : List Char} {coordinate : Coordinate} :
    unfinished? cs = some coordinate ↔ ∃ blanks blanks',
      cs = coordinate.name.toList ++ (blanks ++ '=' :: blanks') ∧
        ∀ c ∈ blanks ++ blanks', Text.isBlank c = true := by
  have visible : Text.isBlank '=' = false := by decide
  simp only [unfinished?, Option.bind_eq_bind, Option.bind_eq_some_iff, Prod.exists,
    read?_eq_some_iff, afterMark?_eq_some_iff visible]
  constructor
  · rintro ⟨found, rest, rfl, blanks', ⟨blanks, rfl, blank⟩, ends⟩
    split at ends
    next blank' =>
      cases ends
      refine ⟨blanks, blanks', rfl, fun c member => ?_⟩
      rcases List.mem_append.mp member with before | behind
      · exact blank c before
      · exact List.all_eq_true.mp blank' c behind
    next => cases ends
  · rintro ⟨blanks, blanks', rfl, blank⟩
    refine ⟨coordinate, _, rfl, blanks', ⟨blanks, rfl, fun c member => ?_⟩, if_pos ?_⟩
    · exact blank c (List.mem_append_left _ member)
    · exact List.all_eq_true.mpr fun c member => blank c (List.mem_append_right _ member)

/-- Inside an unfinished coordinate no other begins. -/
theorem dangling?_of_unfinished {c : Char} {cs : List Char} {coordinate : Coordinate}
    (unfinished : unfinished? (c :: cs) = some coordinate) (inWord : Bool) :
    dangling? inWord cs = none := by
  obtain ⟨blanks, blanks', shape, blank⟩ := unfinished?_eq_some_iff.mp unfinished
  obtain ⟨letter, digit, two, other⟩ : ∃ letter digit, coordinate.name.toList = [letter, digit] ∧
      digit ≠ 'x' ∧ digit ≠ 'y' := by
    cases coordinate <;> exact ⟨_, _, rfl, by decide⟩
  rw [two] at shape
  obtain ⟨-, rfl⟩ := List.cons.inj shape
  have visible : ∀ d, Text.isBlank d = true → d ≠ 'x' ∧ d ≠ 'y' := by
    rintro d blank
    constructor <;> rintro rfl <;> exact absurd blank (by decide)
  refine dangling?_eq_none inWord (unlettered_of_forall fun d member => ?_)
  change d ∈ digit :: (blanks ++ '=' :: blanks') at member
  simp only [List.mem_cons, List.mem_append] at member
  rcases member with rfl | inside | rfl | inside
  · exact other
  · exact visible d (blank d (List.mem_append_left _ inside))
  · decide
  · exact visible d (blank d (List.mem_append_right _ inside))

/-- A text ends in a coordinate without its value if some part at its end is one, in front of
which no word character stands. -/
theorem dangling?_eq_some_iff {inWord : Bool} {cs : List Char} {coordinate : Coordinate} :
    dangling? inWord cs = some coordinate ↔ ∃ before rest, cs = before ++ rest ∧
      unfinished? rest = some coordinate ∧ (before.map Text.isWord).getLastD inWord = false := by
  induction cs generalizing inWord with
  | nil =>
    constructor
    · intro found
      cases found
    · rintro ⟨before, rest, empty, unfinished, -⟩
      obtain ⟨rfl, rfl⟩ := List.append_eq_nil_iff.mp empty.symm
      cases unfinished
  | cons c cs ih =>
    -- The part is the whole text, which needs a start outside of words, or one of what follows.
    have parts : (∃ before rest, c :: cs = before ++ rest ∧ unfinished? rest = some coordinate ∧
        (before.map Text.isWord).getLastD inWord = false) ↔
        (unfinished? (c :: cs) = some coordinate ∧ inWord = false) ∨
          dangling? (Text.isWord c) cs = some coordinate := by
      rw [ih]
      constructor
      · rintro ⟨before, rest, shape, unfinished, start⟩
        cases before with
        | nil => exact .inl ⟨shape ▸ unfinished, start⟩
        | cons d before =>
          obtain ⟨rfl, rfl⟩ := List.cons.inj shape
          rw [List.map_cons, List.getLastD_cons] at start
          exact .inr ⟨before, rest, rfl, unfinished, start⟩
      · rintro (⟨unfinished, start⟩ | ⟨before, rest, rfl, unfinished, start⟩)
        · exact ⟨[], c :: cs, rfl, unfinished, start⟩
        · refine ⟨c :: before, rest, rfl, unfinished, ?_⟩
          rw [List.map_cons, List.getLastD_cons, start]
    rw [parts, dangling?]
    cases inWord with
    | true => simp
    | false =>
      cases unfinished : unfinished? (c :: cs) with
      | none => simp
      | some found => simp [dangling?_of_unfinished unfinished]

end Endings

section Escaping

/-- The characters that are not written as they are. -/
def isSpecial (c : Char) : Bool := c == '&' || c == '<' || c == '>' || c == '"'

theorem escapeChar_plain {c : Char} (plain : isSpecial c = false) : escapeChar c = [c] := by
  simp only [isSpecial, Bool.or_eq_false_iff] at plain
  simp [escapeChar, plain]

/-- A special character is written as a name between an ampersand and a semicolon. -/
theorem escapeChar_special {c : Char} (special : isSpecial c = true) :
    ∃ name ∈ [['a', 'm', 'p'], ['l', 't'], ['g', 't'], ['q', 'u', 'o', 't']],
      escapeChar c = '&' :: (name ++ [';']) := by
  simp only [isSpecial, Bool.or_eq_true, beq_iff_eq] at special
  rcases special with ((rfl | rfl) | rfl) | rfl <;> decide

/-- Written text holds neither angle brackets nor quotes. -/
theorem not_mem_escape {c : Char} (mark : c = '<' ∨ c = '>' ∨ c = '"') (cs : List Char) :
    c ∉ cs.flatMap escapeChar := by
  intro member
  obtain ⟨d, -, inside⟩ := List.mem_flatMap.mp member
  cases special : isSpecial d with
  | false =>
    rw [escapeChar_plain special, List.mem_singleton] at inside
    rcases mark with rfl | rfl | rfl <;> exact absurd special (inside ▸ by decide)
  | true =>
    obtain ⟨name, known, eq⟩ := escapeChar_special special
    rw [eq] at inside
    simp only [List.mem_cons, List.not_mem_nil, or_false] at known
    rcases mark with rfl | rfl | rfl <;> rcases known with rfl | rfl | rfl | rfl <;>
      exact absurd inside (by decide)

theorem flatMap_escape_plain {cs : List Char} (plain : ∀ c ∈ cs, isSpecial c = false) :
    cs.flatMap escapeChar = cs := by
  induction cs with
  | nil => rfl
  | cons c cs ih =>
    rw [List.flatMap_cons, escapeChar_plain (plain c List.mem_cons_self),
      ih fun d member => plain d (List.mem_cons_of_mem c member)]
    rfl

theorem read?_escape (cs : List Char) : Coordinate.read? (cs.flatMap escapeChar) =
    (Coordinate.read? cs).map fun found => (found.1, found.2.flatMap escapeChar) := by
  match cs with
  | [] => rfl
  | c :: cs =>
    by_cases letter : c = 'x' ∨ c = 'y'
    · have plain : isSpecial c = false := by rcases letter with rfl | rfl <;> decide
      rw [List.flatMap_cons, escapeChar_plain plain]
      match cs with
      | [] => rcases letter with rfl | rfl <;> rfl
      | d :: more =>
        by_cases digit : d = '1' ∨ d = '2'
        · have plain : isSpecial d = false := by rcases digit with rfl | rfl <;> decide
          rw [List.flatMap_cons, escapeChar_plain plain]
          rcases letter with rfl | rfl <;> rcases digit with rfl | rfl <;> rfl
        · have none : ∀ e tail, ¬ (e = '1' ∨ e = '2') →
              Coordinate.read? (c :: e :: tail) = none := by
            intro e tail other
            rw [not_or] at other
            rcases letter with rfl | rfl <;> simp [Coordinate.read?, other]
          rw [none d more digit, List.flatMap_cons]
          cases special : isSpecial d with
          | false => rw [escapeChar_plain special]; exact none d _ digit
          | true =>
            obtain ⟨name, -, eq⟩ := escapeChar_special special
            rw [eq]
            exact none '&' _ (by decide)
    · rw [not_or] at letter
      rw [read?_cons_eq_none letter, List.flatMap_cons]
      cases special : isSpecial c with
      | false => rw [escapeChar_plain special]; exact read?_cons_eq_none letter _
      | true =>
        obtain ⟨name, -, eq⟩ := escapeChar_special special
        rw [eq]
        exact read?_cons_eq_none (by decide) _

theorem blank_plain {c : Char} (blank : Text.isBlank c = true) : isSpecial c = false := by
  cases special : isSpecial c with
  | false => rfl
  | true =>
    simp only [isSpecial, Bool.or_eq_true, beq_iff_eq] at special
    rcases special with ((rfl | rfl) | rfl) | rfl <;> exact absurd blank (by decide)

theorem afterMark?_escape (cs : List Char) : afterMark? '=' (cs.flatMap escapeChar) =
    (afterMark? '=' cs).map (·.flatMap escapeChar) := by
  induction cs with
  | nil => rfl
  | cons c cs ih =>
    by_cases blank : Text.isBlank c = true
    · rw [List.flatMap_cons, escapeChar_plain (blank_plain blank)]
      simpa [afterMark?, blank] using ih
    · cases special : isSpecial c with
      | false =>
        rw [List.flatMap_cons, escapeChar_plain special]
        simp only [afterMark?, List.singleton_append, List.dropWhile_cons_of_neg blank]
        split <;> rfl
      | true =>
        obtain ⟨name, -, eq⟩ := escapeChar_special special
        have other : c ≠ '=' := by
          rintro rfl
          exact absurd special (by decide)
        have notBlank : ¬ Text.isBlank '&' = true := by decide
        rw [List.flatMap_cons, eq]
        simp [afterMark?, List.dropWhile_cons_of_neg blank, List.dropWhile_cons_of_neg notBlank,
          other]

theorem all_blank_escape (cs : List Char) :
    (cs.flatMap escapeChar).all Text.isBlank = cs.all Text.isBlank := by
  induction cs with
  | nil => rfl
  | cons c cs ih =>
    rw [List.flatMap_cons, List.all_append, List.all_cons, ih]
    congr 1
    cases special : isSpecial c with
    | false => simp [escapeChar_plain special]
    | true =>
      obtain ⟨name, -, eq⟩ := escapeChar_special special
      have blank : Text.isBlank c = false :=
        Bool.eq_false_iff.mpr fun blank => by rw [blank_plain blank] at special; cases special
      have notBlank : Text.isBlank '&' = false := by decide
      simp [eq, blank, notBlank]

theorem unfinished?_escape (cs : List Char) :
    unfinished? (cs.flatMap escapeChar) = unfinished? cs := by
  simp only [unfinished?, read?_escape, Option.bind_eq_bind]
  cases Coordinate.read? cs with
  | none => rfl
  | some found =>
    simp only [Option.map_some, Option.bind_some, afterMark?_escape]
    cases afterMark? '=' found.2 with
    | none => rfl
    | some rest => simp only [Option.map_some, Option.bind_some, all_blank_escape]

/-- A special character ends a word and begins none, raw and written. -/
theorem dangling?_special {c : Char} (special : isSpecial c = true) (inWord : Bool)
    (rest : List Char) :
    dangling? inWord (escapeChar c ++ rest) = dangling? false rest ∧
      dangling? inWord (c :: rest) = dangling? false rest := by
  constructor
  · obtain ⟨name, known, eq⟩ := escapeChar_special special
    have unlettered : Unlettered ('&' :: name) := by
      simp only [List.mem_cons, List.not_mem_nil, or_false] at known
      rcases known with rfl | rfl | rfl | rfl <;> decide
    rw [eq, ← List.cons_append, List.append_assoc]
    exact dangling?_append unlettered inWord rest
  · simp only [isSpecial, Bool.or_eq_true, beq_iff_eq] at special
    rcases special with ((rfl | rfl) | rfl) | rfl <;>
      exact dangling?_cons_other (by decide) inWord rest

/-- Escaping does not change what a text ends in. -/
theorem dangling?_escape (inWord : Bool) (cs : List Char) :
    dangling? inWord (cs.flatMap escapeChar) = dangling? inWord cs := by
  induction cs generalizing inWord with
  | nil => rfl
  | cons c cs ih =>
    cases special : isSpecial c with
    | true =>
      obtain ⟨written, raw⟩ := dangling?_special special inWord (cs.flatMap escapeChar)
      rw [List.flatMap_cons, written, ih, (dangling?_special special inWord cs).2]
    | false =>
      have start := unfinished?_escape (c :: cs)
      rw [List.flatMap_cons, escapeChar_plain special, List.singleton_append] at start ⊢
      rw [dangling?, dangling?, start, ih]

end Escaping

section Tags

def Attribute.chars (a : Attribute) : List Char :=
  ' ' :: (a.name.toList ++ '=' :: '"' :: (a.value.toList.flatMap escapeChar ++ ['"']))

/-- What stands in front of the quoted value of an attribute. -/
def label (name : String) : List Char := ' ' :: (name.toList ++ ['='])

theorem Attribute.chars_append (a : Attribute) (rest : List Char) :
    a.chars ++ rest =
      label a.name ++ '"' :: (a.value.toList.flatMap escapeChar ++ '"' :: rest) := by
  simp [Attribute.chars, label]

/-- An attribute named for a coordinate is read as such. -/
theorem assignments_named (coordinate : Coordinate) (inWord : Bool) (value : String)
    (rest : List Char) :
    assignments inWord ((⟨coordinate.name, value⟩ : Attribute).chars ++ rest) =
      (coordinate, value.toList.flatMap escapeChar) :: assignments false rest := by
  have unquoted : '"' ∉ label coordinate.name := by cases coordinate <;> decide
  have named : dangling? inWord (label coordinate.name) = some coordinate := by
    cases coordinate <;> cases inWord <;> decide
  rw [Attribute.chars_append, assignments_piece inWord unquoted (not_mem_escape (by simp) _), named]

/-- The value of any other attribute is read on its own. -/
theorem assignments_unnamed {name : String} (inWord : Bool)
    (other : dangling? inWord (label name) = none) (unquoted : '"' ∉ label name) (value : String)
    (rest : List Char) :
    assignments inWord ((⟨name, value⟩ : Attribute).chars ++ rest) =
      assignments false (value.toList.flatMap escapeChar ++ '"' :: rest) := by
  rw [Attribute.chars_append, assignments_piece inWord unquoted (not_mem_escape (by simp) _), other]

theorem Attribute.toList_text (a : Attribute) : a.text.toList = a.chars := by
  simp [Attribute.text, Attribute.chars, escape]

namespace Tag

/-- What stands between the angle brackets of a tag. -/
def body : Tag → List Char
  | opening name attributes => name.toList ++ attributes.flatMap Attribute.chars
  | empty name attributes => name.toList ++ attributes.flatMap Attribute.chars ++ ['/']
  | closing name => '/' :: name.toList

/-- The names in a tag, of itself and of its attributes. -/
def names : Tag → List String
  | opening name attributes => name :: attributes.map Attribute.name
  | empty name attributes => name :: attributes.map Attribute.name
  | closing name => [name]

/-- Whether the names in a tag are free of angle brackets. -/
def Tidy (tag : Tag) : Prop :=
  ∀ name ∈ tag.names, '<' ∉ name.toList ∧ '>' ∉ name.toList

theorem toList_text (tag : Tag) : tag.text.toList = '<' :: (tag.body ++ ['>']) := by
  cases tag <;> simp [text, body, List.flatMap_map, Attribute.toList_text]

theorem bracket_not_mem_attributes {c : Char} (bracket : c = '<' ∨ c = '>')
    {attributes : List Attribute} (tidy : ∀ a ∈ attributes, c ∉ a.name.toList) :
    c ∉ attributes.flatMap Attribute.chars := by
  intro member
  obtain ⟨a, inside, here⟩ := List.mem_flatMap.mp member
  have value := not_mem_escape (bracket.elim .inl fun eq => .inr (.inl eq)) a.value.toList
  have name := tidy a inside
  rcases bracket with rfl | rfl <;> simp_all [Attribute.chars]

theorem bracket_not_mem_body {tag : Tag} (tidy : tag.Tidy) : '<' ∉ tag.body ∧ '>' ∉ tag.body := by
  have attributes : ∀ list : List Attribute, (∀ a ∈ list, a.name ∈ tag.names) →
      '<' ∉ list.flatMap Attribute.chars ∧ '>' ∉ list.flatMap Attribute.chars := fun list named =>
    ⟨bracket_not_mem_attributes (.inl rfl) fun a inside => (tidy _ (named a inside)).1,
      bracket_not_mem_attributes (.inr rfl) fun a inside => (tidy _ (named a inside)).2⟩
  cases tag with
  | opening name list =>
    have own := tidy name List.mem_cons_self
    have rest := attributes list fun a inside => List.mem_cons_of_mem _ (List.mem_map_of_mem inside)
    simp only [body, List.mem_append, not_or]
    exact ⟨⟨own.1, rest.1⟩, own.2, rest.2⟩
  | empty name list =>
    have own := tidy name List.mem_cons_self
    have rest := attributes list fun a inside => List.mem_cons_of_mem _ (List.mem_map_of_mem inside)
    simp only [body, List.mem_append, not_or]
    exact ⟨⟨⟨own.1, rest.1⟩, by decide⟩, ⟨own.2, rest.2⟩, by decide⟩
  | closing name =>
    have own := tidy name List.mem_cons_self
    simp [body, own]

end Tag

theorem stretches_append {cs : List Char} (unclosed : '>' ∉ cs) (current rest : List Char) :
    stretches current (cs ++ '>' :: rest) = (current.reverse ++ cs) :: stretches [] rest := by
  induction cs generalizing current with
  | nil => simp [stretches]
  | cons c cs ih =>
    simp only [List.mem_cons, not_or] at unclosed
    rw [List.cons_append, stretches, if_neg (by simpa using Ne.symm unclosed.1), ih unclosed.2]
    simp

/-- The stretches of tags are the tags themselves. -/
theorem stretches_tags {tags : List Tag} (tidy : ∀ tag ∈ tags, tag.Tidy) :
    stretches [] (String.join (tags.map Tag.text)).toList =
      tags.map fun tag => '<' :: tag.body := by
  rw [String.toList_join, List.flatMap_map]
  induction tags with
  | nil => rfl
  | cons tag rest ih =>
    have unclosed : '>' ∉ '<' :: tag.body := by
      simpa using (Tag.bracket_not_mem_body (tidy tag List.mem_cons_self)).2
    rw [List.flatMap_cons, Tag.toList_text, ← List.cons_append, List.append_assoc,
      List.singleton_append, stretches_append unclosed,
      ih fun other inside => tidy other (List.mem_cons_of_mem tag inside)]
    rfl

theorem lineElement?_eq_none {cs : List Char} (unopened : '<' ∉ cs) : lineElement? cs = none := by
  induction cs with
  | nil => rfl
  | cons c cs ih =>
    simp only [List.mem_cons, not_or] at unopened
    have other : ['<', 'l', 'i', 'n', 'e'].isPrefixOf? (c :: cs) = none :=
      if_neg (by simpa using unopened.1)
    rw [lineElement?, other]
    exact ih unopened.2

/-- A tag is a line element by its name. -/
theorem lineElement?_tag {body : List Char} (unopened : '<' ∉ body) :
    lineElement? ('<' :: body) = (['l', 'i', 'n', 'e'].isPrefixOf? body).bind fun rest =>
      if Text.startsWord rest then none else some rest := by
  have first : ['<', 'l', 'i', 'n', 'e'].isPrefixOf? ('<' :: body) =
      ['l', 'i', 'n', 'e'].isPrefixOf? body := rfl
  rw [lineElement?, first, lineElement?_eq_none unopened]
  cases ['l', 'i', 'n', 'e'].isPrefixOf? body <;> rfl

end Tags

section Documents

/-- Whether a number fits into a signed word of 64 bits. -/
def Fits (n : Int) : Prop := -2 ^ 63 ≤ n ∧ n < 2 ^ 63

instance (n : Int) : Decidable (Fits n) := inferInstanceAs (Decidable (_ ∧ _))

theorem word_eq_self {n : Int} (fits : Fits n) : word n = n :=
  Int64.toInt_ofInt_of_le fits.1 fits.2

/-- What a segment's element holds behind its name. -/
def Segment.element (style : Style) (s : Segment) : List Char :=
  (style.lineAttributes (s.drawn style)).flatMap Attribute.chars ++ ['/']

theorem Segment.body_tag (style : Style) (s : Segment) :
    (s.tag style).body = ['l', 'i', 'n', 'e'] ++ s.element style :=
  List.append_assoc ..

theorem tags_tidy (style : Style) (figure : Figure) : ∀ tag ∈ figure.tags style, tag.Tidy := by
  intro tag inside
  simp only [Figure.tags, Style.document, List.mem_append, List.mem_cons, List.mem_map,
    List.not_mem_nil, or_false] at inside
  rcases inside with ((rfl | rfl | rfl) | ⟨s, -, rfl⟩) | rfl | rfl <;>
    simp [Tag.Tidy, Tag.names, Segment.tag, Style.lineAttributes]

theorem lineElement?_segment (style : Style) (s : Segment) :
    lineElement? ('<' :: (s.tag style).body) = some (s.element style) := by
  have tidy : (s.tag style).Tidy :=
    tags_tidy style ⟨[s], 0, 0⟩ _ (by simp [Figure.tags, Style.document])
  have space : Text.isWord ' ' = false := by decide
  rw [lineElement?_tag (Tag.bracket_not_mem_body tidy).1, Segment.body_tag]
  have named : ['l', 'i', 'n', 'e'].isPrefixOf? (['l', 'i', 'n', 'e'] ++ s.element style) =
      some (s.element style) := rfl
  have ends : Text.startsWord (s.element style) = false := space
  rw [named, Option.bind_some, ends]
  rfl

theorem lineElement?_other {tag : Tag} (tidy : tag.Tidy) (other : tag.body.head? ≠ some 'l') :
    lineElement? ('<' :: tag.body) = none := by
  have none : ['l', 'i', 'n', 'e'].isPrefixOf? tag.body = none := by
    cases shape : tag.body with
    | nil => rfl
    | cons c cs =>
      rw [shape] at other
      have first : ¬ 'l' = c := by simpa [eq_comm] using other
      exact if_neg (by simpa using first)
  rw [lineElement?_tag (Tag.bracket_not_mem_body tidy).1, none]
  rfl

/-- The strokes of a document are those of its line elements. -/
theorem strokes_svg (style : Style) (figure : Figure) :
    strokes (figure.svg style) = figure.segments.filterMap fun s =>
      Stroke.ofLine? (Line.ofElement (s.element style)) := by
  have skipped : ∀ tags ⊆ figure.tags style, (∀ tag ∈ tags, tag.body.head? ≠ some 'l') →
      tags.filterMap (fun tag => (lineElement? ('<' :: tag.body)).bind fun element =>
        Stroke.ofLine? (Line.ofElement element)) = [] := by
    intro tags subset others
    refine List.filterMap_eq_nil_iff.mpr fun tag inside => ?_
    rw [lineElement?_other (tags_tidy style figure tag (subset inside)) (others tag inside),
      Option.bind_none]
  rw [strokes, Figure.svg, stretches_tags (tags_tidy style figure), List.filterMap_map]
  simp only [Figure.tags, Style.document, Function.comp_def, List.filterMap_append,
    List.filterMap_map] at skipped ⊢
  rw [skipped [.closing "g", .closing "svg"] (List.subset_append_right _ _) (by simp [Tag.body]),
    skipped _ (List.append_assoc .. ▸ List.subset_append_left _ _) (by simp [Tag.body]),
    List.nil_append, List.append_nil]
  simp only [lineElement?_segment, Option.bind_some]

end Documents

end ChurchScript.Diagram
