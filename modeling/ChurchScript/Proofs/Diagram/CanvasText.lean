import Mathlib.Algebra.BigOperators.Group.Finset.Piecewise
import Mathlib.Algebra.BigOperators.Group.Finset.Sigma
import Mathlib.Data.Finset.Prod
import Mathlib.Data.List.GetD
import Mathlib.Data.List.TakeWhile
import ChurchScript.Proofs.Diagram.Painting

/-!
# The text of a canvas

The text of a canvas leaves out blanks at the ends of lines and blank lines at the end. It
still shows every cell, where a place beyond the end of a line or of the text reads as blank
(`shown_text`), and it has a character that is no blank as often as the canvas does
(`count_text`).
-/
namespace ChurchScript

namespace Text

/-- The character in a column and a row of a text, blank beyond the ends of its lines. -/
def shown (text : String) (col row : Nat) : Char :=
  ((text.toList.splitOn '\n').getD row []).getD col ' '

/-- What is left out at the end of a list is what does not count. -/
theorem exists_dropped {α : Type} (p : α → Bool) (l : List α) :
    ∃ tail, l = (l.reverse.dropWhile p).reverse ++ tail ∧ ∀ x ∈ tail, p x = true := by
  refine ⟨(l.reverse.takeWhile p).reverse, ?_, ?_⟩
  · rw [← List.reverse_append, List.takeWhile_append_dropWhile, List.reverse_reverse]
  · intro x member
    exact List.mem_takeWhile_imp (List.mem_reverse.mp member)

/-- A default reads the same as elements left out that equal it. -/
theorem getD_append_default {α : Type} {l tail : List α} {d : α} (filler : ∀ x ∈ tail, x = d)
    (n : Nat) : (l ++ tail).getD n d = l.getD n d := by
  by_cases inside : n < l.length
  · rw [List.getD_append _ _ _ _ inside]
  · have beyond : l.getD n d = d := List.getD_eq_default _ _ (Nat.le_of_not_lt inside)
    rw [List.getD_append_right _ _ _ _ (Nat.le_of_not_lt inside), beyond]
    by_cases within : n - l.length < tail.length
    · rw [List.getD_eq_getElem tail d within]
      exact filler _ (List.getElem_mem within)
    · exact List.getD_eq_default _ _ (Nat.le_of_not_lt within)

/-- A separator at the end separates nothing from what is before it. -/
theorem intercalate_append_separator {α : Type} (x : α) {parts : List (List α)}
    (some : parts ≠ []) :
    [x].intercalate parts ++ [x] = [x].intercalate (parts ++ [[]]) := by
  induction parts with
  | nil => exact absurd rfl some
  | cons part rest ih =>
    cases rest with
    | nil => simp [List.intercalate_cons_cons]
    | cons next others =>
      have further := ih (List.cons_ne_nil _ _)
      simp only [List.intercalate_cons_cons, List.append_assoc, List.cons_append] at further ⊢
      rw [further]

theorem count_intercalate {α : Type} [DecidableEq α] {x y : α} (other : y ≠ x)
    (parts : List (List α)) :
    ([x].intercalate parts).count y = (parts.map (List.count y)).sum := by
  induction parts with
  | nil => rfl
  | cons part rest ih =>
    cases rest with
    | nil => simp
    | cons next others =>
      simp only [List.map_cons, List.sum_cons] at ih
      simp [List.intercalate_cons_cons, List.count_append, other.symm, ih]

end Text

namespace Diagram.Canvas

variable {canvas : Canvas}

/-- Whether the only white space on a canvas is the space character. -/
def Plain (canvas : Canvas) : Prop :=
  ∀ col row, Text.isBlank (canvas.get col row) = true → canvas.get col row = ' '

theorem getD_row (canvas : Canvas) (col r : Nat) :
    (canvas.row r).getD col ' ' = canvas.get col r := by
  by_cases inside : col < canvas.width
  · simp [row, inside]
  · rw [get_of_outside (by omega)]
    exact List.getD_eq_default _ _ (by simp [row]; omega)

theorem getD_trimEnd_row (plain : canvas.Plain) (col r : Nat) :
    (Text.trimEnd (canvas.row r)).getD col ' ' = canvas.get col r := by
  obtain ⟨tail, split, blanks⟩ := Text.exists_dropped Text.isBlank (canvas.row r)
  have filler : ∀ c ∈ tail, c = ' ' := by
    intro c member
    have inRow : c ∈ canvas.row r := by
      rw [split]
      exact List.mem_append_right _ member
    obtain ⟨col, -, rfl⟩ := List.mem_map.mp inRow
    exact plain col r (blanks _ member)
  calc (Text.trimEnd (canvas.row r)).getD col ' '
      = (Text.trimEnd (canvas.row r) ++ tail).getD col ' ' :=
        (Text.getD_append_default filler col).symm
    _ = (canvas.row r).getD col ' ' := congrArg (·.getD col ' ') split.symm
    _ = canvas.get col r := getD_row canvas col r

/-- A line of the text shows its row. -/
theorem getD_lines (plain : canvas.Plain) (col r : Nat) :
    (canvas.lines.getD r []).getD col ' ' = canvas.get col r := by
  obtain ⟨tail, split, empty⟩ := Text.exists_dropped List.isEmpty
    ((List.range canvas.height).map fun r => Text.trimEnd (canvas.row r))
  have filler : ∀ line ∈ tail, line = [] :=
    fun line member => List.isEmpty_iff.mp (empty line member)
  have rows : canvas.lines.getD r [] =
      ((List.range canvas.height).map fun r => Text.trimEnd (canvas.row r)).getD r [] :=
    (Text.getD_append_default filler r).symm.trans (congrArg (·.getD r []) split.symm)
  rw [rows]
  by_cases inside : r < canvas.height
  · simpa [inside] using getD_trimEnd_row plain col r
  · have missing : ((List.range canvas.height).map fun r => Text.trimEnd (canvas.row r)).getD r [] =
        [] := List.getD_eq_default _ _ (by simpa using inside)
    rw [missing, get_of_outside (by omega)]
    rfl

theorem not_newline_of_mem_lines (plain : canvas.Plain) {line : List Char}
    (member : line ∈ canvas.lines) : '\n' ∉ line := by
  intro newline
  obtain ⟨r, bound, here⟩ := List.mem_iff_getElem.mp member
  obtain ⟨col, inside, there⟩ := List.mem_iff_getElem.mp newline
  have cell := getD_lines plain col r
  rw [List.getD_eq_getElem _ _ bound, here, List.getD_eq_getElem _ _ inside, there] at cell
  have space := plain col r (by rw [← cell]; decide)
  rw [space] at cell
  exact absurd cell (by decide)

theorem toList_text (canvas : Canvas) :
    canvas.text.toList = ['\n'].intercalate canvas.lines ++ ['\n'] := by
  simp [text, String.toList_intercalate, Function.comp_def]

/-- Every cell of a canvas shows in its text. -/
theorem shown_text (plain : canvas.Plain) (col row : Nat) :
    Text.shown canvas.text col row = canvas.get col row := by
  rw [← getD_lines plain, Text.shown, toList_text]
  by_cases some : canvas.lines = []
  · have lines : (['\n'].intercalate canvas.lines ++ ['\n']).splitOn '\n' = [[], []] := by
      rw [some]
      decide
    rw [lines, some]
    match row with
    | 0 | 1 | _ + 2 => rfl
  · have separate : ∀ line ∈ canvas.lines ++ [[]], '\n' ∉ line := by
      intro line member
      rcases List.mem_append.mp member with shown | last
      · exact not_newline_of_mem_lines plain shown
      · simp [List.mem_singleton.mp last]
    rw [Text.intercalate_append_separator _ some, List.splitOn_intercalate _ separate (by simp),
      Text.getD_append_default (by simp)]

section Counting

variable {c : Char}

theorem count_trimEnd (visible : Text.isBlank c = false) (cs : List Char) :
    (Text.trimEnd cs).count c = cs.count c := by
  obtain ⟨tail, split, blanks⟩ := Text.exists_dropped Text.isBlank cs
  have none : tail.count c = 0 := by
    refine List.count_eq_zero.mpr fun member => ?_
    rw [blanks c member] at visible
    cases visible
  calc (Text.trimEnd cs).count c = (Text.trimEnd cs ++ tail).count c := by
        rw [List.count_append, none, Nat.add_zero]
    _ = cs.count c := congrArg (List.count c) split.symm

theorem count_lines (visible : Text.isBlank c = false) (canvas : Canvas) :
    (canvas.lines.map (List.count c)).sum =
      ((List.range canvas.height).map fun r => (canvas.row r).count c).sum := by
  obtain ⟨tail, split, empty⟩ := Text.exists_dropped List.isEmpty
    ((List.range canvas.height).map fun r => Text.trimEnd (canvas.row r))
  have none : (tail.map (List.count c)).sum = 0 := by
    refine List.sum_eq_zero fun n member => ?_
    obtain ⟨line, inTail, rfl⟩ := List.mem_map.mp member
    rw [List.isEmpty_iff.mp (empty line inTail)]
    rfl
  calc (canvas.lines.map (List.count c)).sum
      = ((canvas.lines ++ tail).map (List.count c)).sum := by
        rw [List.map_append, List.sum_append, none, Nat.add_zero]
    _ = (((List.range canvas.height).map fun r => Text.trimEnd (canvas.row r)).map
          (List.count c)).sum := congrArg (fun lines => (lines.map (List.count c)).sum) split.symm
    _ = ((List.range canvas.height).map fun r => (canvas.row r).count c).sum := by
        simp [Function.comp_def, count_trimEnd visible]

theorem count_row (canvas : Canvas) (r : Nat) (c : Char) :
    (canvas.row r).count c =
      ((Finset.range canvas.width).filter fun col => canvas.get col r = c).card := by
  rw [row, List.count_eq_countP, List.countP_map, List.countP_eq_length_filter, Finset.card_def,
    Finset.filter_val]
  simp [Multiset.range, Function.comp_def]
  rfl

/-- A character that is no blank stands in the text as often as on the canvas. -/
theorem count_text (visible : Text.isBlank c = false) (canvas : Canvas) :
    canvas.text.toList.count c =
      ((Finset.range canvas.width ×ˢ Finset.range canvas.height).filter
        fun cell => canvas.get cell.1 cell.2 = c).card := by
  have other : c ≠ '\n' := by
    rintro rfl
    exact absurd visible (by decide)
  have ending : ['\n'].count c = 0 := by simp [other.symm]
  rw [toList_text, List.count_append, Text.count_intercalate other, ending, Nat.add_zero,
    count_lines visible, Finset.card_filter, Finset.sum_product_right]
  simp only [count_row, Finset.card_filter]
  rfl

end Counting

end Diagram.Canvas
end ChurchScript
