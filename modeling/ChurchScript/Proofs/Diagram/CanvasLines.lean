import Mathlib.Data.List.DropRight
import ChurchScript.Proofs.Diagram.CanvasText

/-!
# Canvases and their texts

What is painted on a blank canvas, in any number of operations, can be read back from its
text, as long as no other white space than the space character is painted (`painted_plain`):
the text drops blanks only where they end a line or the text, so that two canvases of one
size have the same text only if they show the same.
-/
namespace ChurchScript

namespace Text

variable {α : Type}

/-- A list of parts ends as its last part does. -/
theorem getLast?_intercalate (x : α) {parts : List (List α)} {last : List α}
    (ends : parts.getLast? = some last) (more : last ≠ []) :
    ([x].intercalate parts).getLast? = last.getLast? := by
  induction parts with
  | nil => cases ends
  | cons part rest ih =>
    cases rest with
    | nil => simp_all
    | cons next others =>
      have further := ih (by simpa using ends)
      have filled : last.getLast?.isSome := by simpa using more
      rw [List.intercalate_cons_cons, List.getLast?_append, List.getLast?_append, further,
        Option.or_of_isSome filled]

theorem isBlank_getLast_trimEnd {cs : List Char} {c : Char}
    (last : c ∈ (trimEnd cs).getLast?) : isBlank c = false := by
  obtain ⟨more, rfl⟩ := List.mem_getLast?_eq_getLast last
  exact Bool.not_eq_true _ ▸ List.rdropWhile_last_not isBlank cs more

end Text

namespace Diagram.Canvas

/-- What can be done to a canvas. -/
inductive Operation where
  | set (col row : Nat) (c : Char)
  | paintColumn (x y1 y2 : Nat) (glyphs : Glyphs)
  | paintRow (y x1 x2 : Nat) (glyphs : Glyphs) (crossing : Nat → Bool)

namespace Operation

def apply (canvas : Canvas) : Operation → Canvas
  | set col row c => canvas.set col row c
  | paintColumn x y1 y2 glyphs => canvas.paintColumn x y1 y2 glyphs
  | paintRow y x1 x2 glyphs crossing => canvas.paintRow y x1 x2 glyphs crossing

/-- The cells that an operation is about, on the canvas or outside of it. -/
def region : Operation → Nat → Nat → Prop
  | set col row _, c, r => c = col ∧ r = row
  | paintColumn x y1 y2 _, c, r => c = x ∧ min y1 y2 ≤ r ∧ r ≤ max y1 y2
  | paintRow y x1 x2 _ _, c, r => r = y ∧ min x1 x2 ≤ c ∧ c ≤ max x1 x2

/-- The character that an operation puts into a column. -/
def paint : Operation → Nat → Char
  | set _ _ c, _ => c
  | paintColumn _ _ _ glyphs, _ => glyphs.vertical
  | paintRow _ _ _ glyphs crossing, col => if crossing col then glyphs.cross else glyphs.horizontal

/-- Whether each character of an operation is the space or no white space. -/
def Plain (operation : Operation) : Prop :=
  ∀ col, operation.paint col = ' ' ∨ Text.isBlank (operation.paint col) = false

theorem apply_paints (operation : Operation) (canvas : Canvas) :
    Paints canvas (operation.apply canvas) operation.region fun col _ => operation.paint col := by
  cases operation with
  | set col row c => exact Paints.set canvas col row fun _ _ => c
  | paintColumn x y1 y2 glyphs => exact paintColumn_paints canvas x y1 y2 glyphs
  | paintRow y x1 x2 glyphs crossing =>
    exact paintRow_paints canvas y x1 x2 glyphs fun col _ => crossing col

end Operation

variable {canvas : Canvas}

/-- An operation with plain characters leaves a plain canvas plain. -/
theorem Plain.apply (plain : canvas.Plain) {operation : Operation} (signs : operation.Plain) :
    (operation.apply canvas).Plain := by
  have paints := operation.apply_paints canvas
  intro col row blank
  by_cases painted : operation.region col row ∧ col < canvas.width ∧ row < canvas.height
  · rw [paints.covered col row painted.1 painted.2.1 painted.2.2] at blank ⊢
    exact (signs col).resolve_right (by simp [blank])
  · by_cases inside : col < canvas.width ∧ row < canvas.height
    · rw [paints.bare col row fun here => painted ⟨here, inside⟩] at blank ⊢
      exact plain col row blank
    · exact get_of_outside (by rwa [paints.width, paints.height])

/-- A blank canvas after a number of operations. -/
def painted (width height : Nat) (operations : List Operation) : Canvas :=
  operations.foldl Operation.apply (blank width height)

section Painted

variable (width height : Nat)

/-- What every operation keeps, a number of operations keep. -/
theorem painted_induction (kept : Canvas → Prop) {operations : List Operation}
    (first : kept (blank width height))
    (each : ∀ operation ∈ operations, ∀ canvas, kept canvas → kept (operation.apply canvas)) :
    kept (painted width height operations) :=
  List.foldlRecOn operations Operation.apply first fun canvas kept operation member =>
    each operation member canvas kept

theorem painted_size (operations : List Operation) :
    (painted width height operations).width = width ∧
      (painted width height operations).height = height :=
  painted_induction width height (fun canvas => canvas.width = width ∧ canvas.height = height)
    ⟨rfl, rfl⟩ fun operation _ canvas size =>
      ⟨(operation.apply_paints canvas).width.trans size.1,
        (operation.apply_paints canvas).height.trans size.2⟩

theorem painted_plain {operations : List Operation}
    (plain : ∀ operation ∈ operations, operation.Plain) :
    (painted width height operations).Plain :=
  painted_induction width height Plain (fun col row _ => get_blank width height col row)
    fun operation member _ kept => kept.apply (plain operation member)

end Painted

theorem lines_getLast_ne_nil {last : List Char} (ends : canvas.lines.getLast? = some last) :
    last ≠ [] := by
  obtain ⟨more, rfl⟩ := List.mem_getLast?_eq_getLast ends
  intro empty
  exact List.rdropWhile_last_not List.isEmpty _ more (List.isEmpty_iff.mpr empty)

theorem isBlank_getLast_of_mem_lines {line : List Char} (member : line ∈ canvas.lines) {c : Char}
    (last : c ∈ line.getLast?) : Text.isBlank c = false := by
  have trimmed := (List.rdropWhile_prefix List.isEmpty _).subset member
  obtain ⟨r, -, rfl⟩ := List.mem_map.mp trimmed
  exact Text.isBlank_getLast_trimEnd last

/-- Only a blank canvas has no lines. -/
theorem lines_eq_nil_iff (plain : canvas.Plain) :
    canvas.lines = [] ↔ ∀ col row, canvas.get col row = ' ' := by
  constructor
  · intro none col row
    rw [← getD_lines plain, none]
    rfl
  · intro blank
    refine List.getLast?_eq_none_iff.mp (Option.eq_none_iff_forall_ne_some.mpr fun last ends => ?_)
    -- The last line would end in a character that is no blank, and show a cell.
    have member := List.mem_of_getLast? ends
    obtain ⟨c, final⟩ := Option.isSome_iff_exists.mp
      (by simpa using lines_getLast_ne_nil ends : last.getLast?.isSome)
    have visible := isBlank_getLast_of_mem_lines member final
    obtain ⟨r, bound, here⟩ := List.mem_iff_getElem.mp member
    obtain ⟨col, inside, there⟩ := List.mem_iff_getElem.mp (List.mem_of_getLast? final)
    have cell := getD_lines plain col r
    rw [List.getD_eq_getElem _ _ bound, here, List.getD_eq_getElem _ _ inside, there, blank] at cell
    rw [cell] at visible
    exact absurd visible (by decide)

/-- The text of a canvas in lines: they are those of the canvas, or one empty line. -/
theorem splitOn_intercalate_lines (plain : canvas.Plain) :
    (['\n'].intercalate canvas.lines).splitOn '\n' =
      if canvas.lines = [] then [[]] else canvas.lines := by
  split
  · next none => rw [none]; decide
  · next some =>
    exact List.splitOn_intercalate _ (fun _ member => not_newline_of_mem_lines plain member) some

/-- A text ends in one newline only. -/
theorem getLast?_intercalate_lines (plain : canvas.Plain) :
    (['\n'].intercalate canvas.lines).getLast? ≠ some '\n' := by
  intro newline
  cases ends : canvas.lines.getLast? with
  | none =>
    rw [List.getLast?_eq_none_iff.mp ends] at newline
    cases newline
  | some last =>
    rw [Text.getLast?_intercalate '\n' ends (lines_getLast_ne_nil ends)] at newline
    exact not_newline_of_mem_lines plain (List.mem_of_getLast? ends) (List.mem_of_getLast? newline)

/-- The text of what was painted drops the blanks at the ends of lines and at its own end, and
nothing else: reading blanks there gives every cell back, and canvases of one size that show
different things have different texts. -/
theorem painted_text_drops_blanks (width height : Nat) (operations : List Operation)
    (plain : ∀ operation ∈ operations, operation.Plain) :
    (∀ col < width, ∀ row < height,
      Text.shown (painted width height operations).text col row =
        (painted width height operations).get col row) ∧
    (∃ body : List Char, (painted width height operations).text.toList = body ++ ['\n'] ∧
      body.getLast? ≠ some '\n' ∧
      (∀ line ∈ body.splitOn '\n', ∀ c ∈ line.getLast?, Text.isBlank c = false) ∧
      ((body.splitOn '\n').getLast? = some [] ↔
        ∀ col < width, ∀ row < height, (painted width height operations).get col row = ' ')) ∧
    ∀ others : List Operation, (∀ operation ∈ others, operation.Plain) →
      ((painted width height operations).text = (painted width height others).text ↔
        ∀ col < width, ∀ row < height,
          (painted width height operations).get col row =
            (painted width height others).get col row) := by
  have kept := painted_plain width height plain
  obtain ⟨wide, high⟩ := painted_size width height operations
  generalize painted width height operations = canvas at kept wide high
  subst wide high
  refine ⟨fun col _ row _ => shown_text kept col row, ?_, ?_⟩
  · refine ⟨_, toList_text canvas, getLast?_intercalate_lines kept, ?_, ?_⟩
    · rw [splitOn_intercalate_lines kept]
      intro line member c last
      split at member
      · rw [List.mem_singleton.mp member] at last
        cases last
      · exact isBlank_getLast_of_mem_lines member last
    · rw [splitOn_intercalate_lines kept]
      have blank : canvas.lines = [] ↔
          ∀ col < canvas.width, ∀ row < canvas.height, canvas.get col row = ' ' := by
        rw [lines_eq_nil_iff kept]
        refine ⟨fun all col _ row _ => all col row, fun inside col row => ?_⟩
        by_cases on : col < canvas.width ∧ row < canvas.height
        · exact inside col on.1 row on.2
        · exact get_of_outside on
      rw [← blank]
      split
      · next none => simp [none]
      · next some =>
        exact ⟨fun ends => absurd rfl (lines_getLast_ne_nil ends), fun none => absurd none some⟩
  · intro others plain'
    have kept' := painted_plain canvas.width canvas.height plain'
    obtain ⟨wide, high⟩ := painted_size canvas.width canvas.height others
    refine ⟨fun same col _ row _ => ?_, fun same => ?_⟩
    · rw [← shown_text kept, ← shown_text kept', same]
    · exact congrArg text (ext_get wide.symm high.symm same)

/-- A bar with a crossing in it, painted backwards and beyond the canvas, and a letter in a
row of its own behind a blank one. -/
def barAndLetter : List Operation :=
  [.set 1 3 'b', .paintRow 1 9 0 Charset.ascii.glyphs (· == 2), .set 7 7 'x',
    .paintRow 1 3 4 ⟨' ', ' ', ' '⟩ fun _ => false]

theorem barAndLetter_read_back :
    (∀ operation ∈ barAndLetter, operation.Plain) ∧
    (painted 5 5 barAndLetter).text = "\n--+\n\n b\n" ∧
    Text.shown (painted 5 5 barAndLetter).text 2 1 = '+' ∧
    (painted 5 5 barAndLetter).text ≠ (painted 5 5 []).text := by
  have plain : ∀ operation ∈ barAndLetter, operation.Plain := by
    intro operation member col
    simp only [barAndLetter, List.mem_cons, List.not_mem_nil, or_false] at member
    obtain rfl | rfl | rfl | rfl := member
    · exact .inr (rfl : Text.isBlank 'b' = false)
    · rw [Operation.paint]
      split <;> exact .inr (by decide)
    · exact .inr (rfl : Text.isBlank 'x' = false)
    · exact .inl rfl
  have cell : (painted 5 5 barAndLetter).get 2 1 = '+' := by decide
  obtain ⟨shown, -, told⟩ := painted_text_drops_blanks 5 5 barAndLetter plain
  refine ⟨plain, by decide, (shown 2 (by decide) 1 (by decide)).trans cell, fun same => ?_⟩
  have blank := (told [] (by simp)).mp same 2 (by decide) 1 (by decide)
  exact absurd (cell.symm.trans blank) (by decide)

end Diagram.Canvas
end ChurchScript
