import Mathlib.Data.List.TakeWhile
import ChurchScript.Proofs.Diagram.Markup

/-!
# The document of a figure as markup

A reader of markup that knows nothing of figures: names, values in double quotes with
entities for the four special characters, and tags, with nothing between them (`Xml.tags?`).
Tags whose names are names are read back as they were written, whatever the values of their
attributes (`Xml.tags?_text`). A colour is only ever such a value, so it comes back as it was
given and cannot change which tags there are.
-/
namespace ChurchScript.Diagram

namespace Xml

def isBlank (c : Char) : Bool := c == ' ' || c == '\t' || c == '\r' || c == '\n'

def startsName (c : Char) : Bool := c.isAlpha || c == '_' || c == ':'

def continuesName (c : Char) : Bool := startsName c || c.isDigit || c == '-' || c == '.'

def isName : List Char → Bool
  | [] => false
  | c :: cs => startsName c && cs.all continuesName

/-- What follows the blanks at the start of a text. -/
def skip (cs : List Char) : List Char := cs.dropWhile isBlank

/-- The text in which entities stand for the special characters, if every ampersand starts
an entity. -/
def decode? : List Char → Option (List Char)
  | [] => some []
  | c :: cs =>
    if c ≠ '&' then (decode? cs).map (c :: ·)
    else match cs with
      | 'a' :: 'm' :: 'p' :: ';' :: rest => (decode? rest).map ('&' :: ·)
      | 'l' :: 't' :: ';' :: rest => (decode? rest).map ('<' :: ·)
      | 'g' :: 't' :: ';' :: rest => (decode? rest).map ('>' :: ·)
      | 'q' :: 'u' :: 'o' :: 't' :: ';' :: rest => (decode? rest).map ('"' :: ·)
      | _ => none

/-- The name at the start of a text, and what follows it. -/
def name? : List Char → Option (String × List Char)
  | [] => none
  | c :: cs =>
    if startsName c then
      some (String.ofList (c :: cs.takeWhile continuesName), cs.dropWhile continuesName)
    else none

/-- Whether a character can stand for itself between quotes. -/
def isQuotable (c : Char) : Bool := c != '"' && c != '<'

/-- The value in double quotes at the start of a text, and what follows it. -/
def value? : List Char → Option (String × List Char)
  | '"' :: cs =>
    match cs.dropWhile isQuotable with
    | '"' :: rest => do
      let value ← decode? (cs.takeWhile isQuotable)
      return (String.ofList value, rest)
    | _ => none
  | _ => none

/-- The attribute at the start of a text, and what follows it. -/
def attribute? (cs : List Char) : Option (Attribute × List Char) := do
  let (name, cs) ← name? cs
  match skip cs with
  | '=' :: cs => do
    let (value, cs) ← value? (skip cs)
    return (⟨name, value⟩, cs)
  | _ => none

theorem length_skip_le (cs : List Char) : (skip cs).length ≤ cs.length :=
  (List.dropWhile_suffix isBlank).length_le

theorem length_of_name? {cs rest : List Char} {name : String}
    (read : name? cs = some (name, rest)) : rest.length < cs.length := by
  cases cs with
  | nil => cases read
  | cons c cs =>
    have shorter := (List.dropWhile_suffix continuesName (l := cs)).length_le
    simp only [name?, Option.ite_none_right_eq_some, Option.some.injEq, Prod.mk.injEq] at read
    obtain ⟨-, -, rfl⟩ := read
    simp only [List.length_cons]
    omega

theorem length_of_value? {cs rest : List Char} {value : String}
    (read : value? cs = some (value, rest)) : rest.length < cs.length := by
  unfold value? at read
  split at read
  · rename_i cs
    have shorter := (List.dropWhile_suffix isQuotable (l := cs)).length_le
    split at read
    · rename_i behind quoted
      obtain ⟨raw, -, result⟩ := Option.bind_eq_some_iff.mp read
      cases result
      rw [quoted, List.length_cons] at shorter
      rw [List.length_cons]
      omega
    · cases read
  · cases read

theorem length_of_attribute? {cs rest : List Char} {a : Attribute}
    (read : attribute? cs = some (a, rest)) : rest.length < cs.length := by
  obtain ⟨⟨name, behind⟩, named, read⟩ := Option.bind_eq_some_iff.mp read
  have skipped := length_skip_le behind
  dsimp only at read
  split at read
  · rename_i quoted equals
    obtain ⟨⟨value, last⟩, valued, result⟩ := Option.bind_eq_some_iff.mp read
    cases result
    dsimp only
    have first := length_of_name? named
    have second := length_of_value? valued
    have between := length_skip_le quoted
    rw [equals, List.length_cons] at skipped
    omega
  · cases read

/-- The attributes at the start of a text, each behind a blank, and what follows the last of
them and the blanks there. -/
def attributes? (cs : List Char) : Option (List Attribute × List Char) :=
  match cs with
  | [] => some ([], [])
  | c :: rest =>
    if isBlank c then
      match _ : attribute? (skip rest) with
      | some (a, behind) => do
        let (others, behind) ← attributes? behind
        return (a :: others, behind)
      | none => some ([], skip rest)
    else some ([], c :: rest)
termination_by cs.length
decreasing_by
  have shorter := length_of_attribute? ‹_›
  have skipped := length_skip_le rest
  simp only [List.length_cons]
  omega

/-- The tag at the start of a text, and what follows it. -/
def tag? : List Char → Option (Tag × List Char)
  | '<' :: '/' :: cs => do
    let (name, cs) ← name? cs
    match skip cs with
    | '>' :: cs => return (.closing name, cs)
    | _ => none
  | '<' :: cs => do
    let (name, cs) ← name? cs
    let (attributes, cs) ← attributes? cs
    match cs with
    | '>' :: cs => return (.opening name attributes, cs)
    | '/' :: '>' :: cs => return (.empty name attributes, cs)
    | _ => none
  | _ => none

theorem length_of_attributes? {cs rest : List Char} {attributes : List Attribute}
    (read : attributes? cs = some (attributes, rest)) : rest.length ≤ cs.length := by
  fun_induction attributes? cs generalizing attributes with
  | case1 =>
    cases read
    exact le_rfl
  | case2 c cs blank a behind first ih =>
    obtain ⟨⟨others, last⟩, further, result⟩ := Option.bind_eq_some_iff.mp read
    cases result
    have shorter := length_of_attribute? first
    have skipped := length_skip_le cs
    have rest := ih further
    rw [List.length_cons]
    omega
  | case3 c cs blank none =>
    cases read
    exact (length_skip_le cs).trans (Nat.le_succ _)
  | case4 c cs solid =>
    cases read
    exact le_rfl

theorem length_of_tag? {cs rest : List Char} {tag : Tag} (read : tag? cs = some (tag, rest)) :
    rest.length < cs.length := by
  unfold tag? at read
  split at read
  · rename_i cs
    obtain ⟨⟨name, behind⟩, named, read⟩ := Option.bind_eq_some_iff.mp read
    have first := length_of_name? named
    have skipped := length_skip_le behind
    dsimp only at read
    split at read
    · rename_i last bracket
      cases read
      rw [bracket, List.length_cons] at skipped
      simp only [List.length_cons]
      omega
    · cases read
  · rename_i cs other
    obtain ⟨⟨name, behind⟩, named, read⟩ := Option.bind_eq_some_iff.mp read
    obtain ⟨⟨attributes, last⟩, attributed, read⟩ := Option.bind_eq_some_iff.mp read
    have first := length_of_name? named
    have second := length_of_attributes? attributed
    dsimp only at read second
    split at read
    · cases read
      simp only [List.length_cons] at second ⊢
      omega
    · cases read
      simp only [List.length_cons] at second ⊢
      omega
    · cases read
  · cases read

/-- The tags of a text that is made of nothing else. -/
def tags? (cs : List Char) : Option (List Tag) :=
  match cs with
  | [] => some []
  | c :: rest =>
    match _ : tag? (c :: rest) with
    | some (tag, behind) => do
      let others ← tags? behind
      return tag :: others
    | none => none
termination_by cs.length
decreasing_by exact length_of_tag? ‹_›

section Reading

theorem decode?_cons {c : Char} (other : c ≠ '&') (cs : List Char) :
    decode? (c :: cs) = (decode? cs).map (c :: ·) := by
  rw [decode?.eq_def]
  exact if_pos other

/-- What is written comes back, whatever the text. -/
theorem decode?_escape (cs : List Char) : decode? (cs.flatMap escapeChar) = some cs := by
  induction cs with
  | nil => rfl
  | cons c cs ih =>
    rw [List.flatMap_cons]
    cases special : isSpecial c with
    | false =>
      have other : c ≠ '&' := by
        rintro rfl
        cases special
      rw [escapeChar_plain special, List.singleton_append, decode?_cons other, ih]
      rfl
    | true =>
      simp only [isSpecial, Bool.or_eq_true, beq_iff_eq] at special
      rcases special with ((rfl | rfl) | rfl) | rfl <;>
        simp [escapeChar, decode?, ih]

theorem takeWhile_append {p : Char → Bool} {cs : List Char} (all : ∀ c ∈ cs, p c = true)
    {d : Char} (stop : p d = false) (rest : List Char) :
    (cs ++ d :: rest).takeWhile p = cs ∧ (cs ++ d :: rest).dropWhile p = d :: rest := by
  rw [List.takeWhile_append_of_pos all, List.dropWhile_append_of_pos all]
  simp [stop]

theorem name?_append {name : String} (named : isName name.toList = true) {d : Char}
    (stop : continuesName d = false) (rest : List Char) :
    name? (name.toList ++ d :: rest) = some (name, d :: rest) := by
  cases letters : name.toList with
  | nil =>
    rw [letters] at named
    cases named
  | cons c cs =>
    rw [letters, isName, Bool.and_eq_true, List.all_eq_true] at named
    obtain ⟨taken, dropped⟩ := takeWhile_append named.2 stop rest
    rw [List.cons_append, name?, if_pos named.1, taken, dropped, ← letters, String.ofList_toList]

theorem value?_escape (value : String) (rest : List Char) :
    value? ('"' :: (value.toList.flatMap escapeChar ++ '"' :: rest)) = some (value, rest) := by
  have quotable : ∀ c ∈ value.toList.flatMap escapeChar, isQuotable c = true := by
    intro c member
    have unquoted : c ≠ '"' := fun same => not_mem_escape (by simp) _ (same ▸ member)
    have unopened : c ≠ '<' := fun same => not_mem_escape (by simp) _ (same ▸ member)
    simp [isQuotable, unquoted, unopened]
  obtain ⟨taken, dropped⟩ := takeWhile_append quotable (d := '"') rfl rest
  simp [value?, taken, dropped, decode?_escape]

theorem skip_cons {c : Char} (solid : isBlank c = false) (cs : List Char) :
    skip (c :: cs) = c :: cs :=
  List.dropWhile_cons_of_neg (by simp [solid])

theorem attribute?_chars {a : Attribute} (named : isName a.name.toList = true)
    (rest : List Char) :
    attribute? (a.name.toList ++ '=' :: '"' :: (a.value.toList.flatMap escapeChar ++ '"' :: rest)) =
      some (a, rest) := by
  have equals : skip ('=' :: '"' :: (a.value.toList.flatMap escapeChar ++ '"' :: rest)) =
      '=' :: '"' :: (a.value.toList.flatMap escapeChar ++ '"' :: rest) := skip_cons rfl _
  have quote : skip ('"' :: (a.value.toList.flatMap escapeChar ++ '"' :: rest)) =
      '"' :: (a.value.toList.flatMap escapeChar ++ '"' :: rest) := skip_cons rfl _
  rw [attribute?, name?_append named rfl]
  simp [equals, quote, value?_escape]

/-- A name starts neither with a blank nor with a slash. -/
theorem name_starts {name : List Char} (named : isName name = true) :
    ∃ c cs, name = c :: cs ∧ isBlank c = false ∧ c ≠ '/' := by
  cases name with
  | nil => cases named
  | cons c cs =>
    rw [isName, Bool.and_eq_true] at named
    refine ⟨c, cs, rfl, ?_, ?_⟩
    · cases blank : isBlank c with
      | false => rfl
      | true =>
        simp only [isBlank, Bool.or_eq_true, beq_iff_eq] at blank
        rcases blank with ((rfl | rfl) | rfl) | rfl <;> exact absurd named.1 (by decide)
    · rintro rfl
      exact absurd named.1 (by decide)

theorem attributes?_cons {a : Attribute} {cs behind : List Char}
    (read : attribute? (skip cs) = some (a, behind)) :
    attributes? (' ' :: cs) = (attributes? behind).map fun found => (a :: found.1, found.2) := by
  rw [attributes?, if_pos (by decide)]
  split
  · rename_i found
    cases found.symm.trans read
    cases attributes? behind <;> rfl
  · rename_i none
    cases none.symm.trans read

theorem attributes?_chars {attributes : List Attribute}
    (named : ∀ a ∈ attributes, isName a.name.toList = true) {d : Char} (solid : isBlank d = false)
    (rest : List Char) :
    attributes? (attributes.flatMap Attribute.chars ++ d :: rest) =
      some (attributes, d :: rest) := by
  induction attributes with
  | nil => simp [attributes?, solid]
  | cons a others ih =>
    obtain ⟨own, further⟩ := List.forall_mem_cons.mp named
    have read := attribute?_chars own (others.flatMap Attribute.chars ++ d :: rest)
    obtain ⟨c, cs, letters, first, -⟩ := name_starts own
    rw [letters, List.cons_append, ← skip_cons first] at read
    have chars : (a :: others).flatMap Attribute.chars ++ d :: rest =
        ' ' :: c :: (cs ++ '=' :: '"' :: (a.value.toList.flatMap escapeChar ++
          '"' :: (others.flatMap Attribute.chars ++ d :: rest))) := by
      simp [Attribute.chars, letters]
    rw [chars, attributes?_cons read, ih further]
    rfl

/-- The name and the attributes of a tag are read up to its end. -/
theorem tag?_open {name : String} {attributes : List Attribute}
    (named : ∀ n ∈ name :: attributes.map Attribute.name, isName n.toList = true) {d : Char}
    (closes : d = '>' ∨ d = '/') (rest : List Char) :
    tag? ('<' :: (name.toList ++ attributes.flatMap Attribute.chars ++ d :: rest)) =
      match d :: rest with
      | '>' :: cs => some (.opening name attributes, cs)
      | '/' :: '>' :: cs => some (.empty name attributes, cs)
      | _ => none := by
  obtain ⟨own, further⟩ := List.forall_mem_cons.mp named
  have listed : attributes? (attributes.flatMap Attribute.chars ++ d :: rest) =
      some (attributes, d :: rest) :=
    attributes?_chars (fun a member => further _ (List.mem_map_of_mem member))
      (by rcases closes with rfl | rfl <;> rfl) rest
  have read : name? (name.toList ++ (attributes.flatMap Attribute.chars ++ d :: rest)) =
      some (name, attributes.flatMap Attribute.chars ++ d :: rest) := by
    cases attributes with
    | nil => exact name?_append own (by rcases closes with rfl | rfl <;> rfl) rest
    | cons a others => exact name?_append own (d := ' ') rfl _
  obtain ⟨c, cs, letters, -, other⟩ := name_starts own
  rw [List.append_assoc]
  rw [letters, List.cons_append] at read ⊢
  rw [tag?]
  · simp only [read, listed, Option.bind_eq_bind, Option.bind_some]
    rfl
  · simpa using other

/-- A tag whose names are names is read back, whatever the values of its attributes. -/
theorem tag?_text {tag : Tag} (named : ∀ name ∈ tag.names, isName name.toList = true)
    (rest : List Char) : tag? (tag.text.toList ++ rest) = some (tag, rest) := by
  rw [Tag.toList_text]
  cases tag with
  | opening name attributes =>
    have read := tag?_open named (.inl rfl) rest
    simpa [Tag.body] using read
  | empty name attributes =>
    have read := tag?_open named (.inr rfl) ('>' :: rest)
    simpa [Tag.body] using read
  | closing name =>
    have own := named name List.mem_cons_self
    have read := name?_append own (d := '>') rfl rest
    have bracket : skip ('>' :: rest) = '>' :: rest := skip_cons rfl _
    simp [Tag.body, tag?, read, bracket]

/-- A text made of such tags is read as these tags. -/
theorem tags?_text {tags : List Tag}
    (named : ∀ tag ∈ tags, ∀ name ∈ tag.names, isName name.toList = true) :
    tags? (String.join (tags.map Tag.text)).toList = some tags := by
  rw [String.toList_join, List.flatMap_map]
  induction tags with
  | nil => rw [List.flatMap_nil, tags?]
  | cons tag others ih =>
    obtain ⟨own, further⟩ := List.forall_mem_cons.mp named
    have read := tag?_text own (others.flatMap fun tag => tag.text.toList)
    rw [List.flatMap_cons]
    rw [Tag.toList_text, List.cons_append] at read ⊢
    rw [tags?]
    split
    · rename_i found
      cases found.symm.trans read
      rw [ih further]
      rfl
    · rename_i none
      cases none.symm.trans read

end Reading

end Xml

section Escaping

/-- Writes a character behind a text. -/
def pushEscaped (out : String) (c : Char) : String :=
  if c = '&' then out ++ "&amp;"
  else if c = '<' then out ++ "&lt;"
  else if c = '>' then out ++ "&gt;"
  else if c = '"' then out ++ "&quot;"
  else out.push c

/-- Writes a text character by character. -/
def escapeLoop (value : String) : String := value.toList.foldl pushEscaped ""

/-- A text without special characters is taken as it is. -/
def escapeUnlessPlain (value : String) : String :=
  if value.toList.any isSpecial then escapeLoop value else value

theorem toList_pushEscaped (out : String) (c : Char) :
    (pushEscaped out c).toList = out.toList ++ escapeChar c := by
  unfold pushEscaped escapeChar
  split_ifs <;> simp_all

theorem toList_foldl_pushEscaped (cs : List Char) (out : String) :
    (cs.foldl pushEscaped out).toList = out.toList ++ cs.flatMap escapeChar := by
  induction cs generalizing out with
  | nil => simp
  | cons c cs ih =>
    rw [List.foldl_cons, ih, toList_pushEscaped, List.append_assoc, List.flatMap_cons]

theorem escapeLoop_eq (value : String) : escapeLoop value = escape value := by
  rw [← String.toList_inj, escapeLoop, toList_foldl_pushEscaped, String.toList_empty,
    List.nil_append, escape, String.toList_ofList]

theorem escapeUnlessPlain_eq (value : String) : escapeUnlessPlain value = escape value := by
  unfold escapeUnlessPlain
  cases special : value.toList.any isSpecial with
  | true => exact escapeLoop_eq value
  | false =>
    have plain : ∀ c ∈ value.toList, isSpecial c = false := by simpa using special
    rw [escape, flatMap_escape_plain plain, String.ofList_toList]
    rfl

end Escaping

theorem tags_named (style : Style) (figure : Figure) :
    ∀ tag ∈ figure.tags style, ∀ name ∈ tag.names, Xml.isName name.toList = true := by
  intro tag inside
  simp only [Figure.tags, Style.document, List.mem_append, List.mem_cons, List.mem_map,
    List.not_mem_nil, or_false] at inside
  rcases inside with ((rfl | rfl | rfl) | ⟨s, -, rfl⟩) | rfl | rfl <;>
    simp [Tag.names, Segment.tag, Style.lineAttributes, Xml.isName, Xml.startsName,
      Xml.continuesName]

theorem tags?_svg (style : Style) (figure : Figure) :
    Xml.tags? (figure.svg style).toList = some (figure.tags style) :=
  Xml.tags?_text (tags_named style figure)

theorem Style.extent_eq {style : Style} {length : Int} (scaled : Fits (length * style.unitSize))
    (padded : Fits (style.padding * 2))
    (total : Fits (length * style.unitSize + style.padding * 2)) :
    style.extent length = length * style.unitSize + style.padding * 2 := by
  rw [extent, word_eq_self scaled, word_eq_self padded, word_eq_self total]

/-- A colour that would end its element and begin another one. -/
def forgingStyle : Style := { stroke := "\"/><line x1=\"" }

def uprightLine : Figure := ⟨[⟨1, 0, 1, 2⟩], 1, 2⟩

end ChurchScript.Diagram
