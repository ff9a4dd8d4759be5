import Mathlib.Data.List.Basic
import Mathlib.Tactic.Ring
import ChurchScript.Diagram.Canvas

/-!
# Painting on a canvas

What a canvas shows after something was painted: the paint inside a region, and what was
there before everywhere else (`Paints`). Painting with one paint, one stroke after the other,
covers the strokes' regions together, in whatever order.
-/
namespace ChurchScript.Diagram.Canvas

section Cells

variable {col row : Nat}

theorem get_of_outside {canvas : Canvas} (outside : ¬ (col < canvas.width ∧ row < canvas.height)) :
    canvas.get col row = ' ' :=
  if_neg outside

/-- No two cells share a place in the array. -/
theorem cell_inj {width col' row' : Nat} (inside : col < width) (inside' : col' < width)
    (same : row * width + col = row' * width + col') : col = col' ∧ row = row' := by
  have cols : col = col' := by
    have rests := congrArg (· % width) same
    simpa only [Nat.mul_add_mod', Nat.mod_eq_of_lt inside, Nat.mod_eq_of_lt inside'] using rests
  subst cols
  exact ⟨rfl, Nat.eq_of_mul_eq_mul_right (Nat.zero_lt_of_lt inside) (Nat.add_right_cancel same)⟩

theorem cell_lt {width height : Nat} (inside : col < width ∧ row < height) :
    row * width + col < width * height := by
  calc row * width + col < row * width + width := by omega
    _ = (row + 1) * width := by ring
    _ ≤ height * width := Nat.mul_le_mul_right width inside.2
    _ = width * height := Nat.mul_comm _ _

@[simp] theorem width_set (canvas : Canvas) (col row : Nat) (c : Char) :
    (canvas.set col row c).width = canvas.width := by
  unfold set
  split <;> rfl

@[simp] theorem height_set (canvas : Canvas) (col row : Nat) (c : Char) :
    (canvas.set col row c).height = canvas.height := by
  unfold set
  split <;> rfl

theorem get_set_self {canvas : Canvas} (inside : col < canvas.width ∧ row < canvas.height)
    (c : Char) : (canvas.set col row c).get col row = c := by
  obtain ⟨width, height, cells, size⟩ := canvas
  have bound := cell_lt inside
  simp only [set, get, inside, and_self, if_true]
  simp [Array.getD, size, bound]

theorem get_set_of_ne (canvas : Canvas) {col' row' : Nat} (c : Char)
    (other : ¬ (col' = col ∧ row' = row)) :
    (canvas.set col row c).get col' row' = canvas.get col' row' := by
  obtain ⟨width, height, cells, size⟩ := canvas
  by_cases inside : col < width ∧ row < height
  · by_cases inside' : col' < width ∧ row' < height
    · have apart : row * width + col ≠ row' * width + col' := by
        intro same
        obtain ⟨rfl, rfl⟩ := cell_inj inside.1 inside'.1 same
        exact other ⟨rfl, rfl⟩
      simp only [set, get, inside, inside', and_self, if_true, Array.getD_eq_getD_getElem?,
        Array.getElem?_setIfInBounds_ne apart]
    · simp only [set, get, inside, inside', and_self, if_true, if_false]
  · simp only [set, inside, if_false]

/-- A canvas is what its cells show. -/
theorem ext_get {canvas other : Canvas} (width : canvas.width = other.width)
    (height : canvas.height = other.height)
    (same : ∀ col < canvas.width, ∀ row < canvas.height, canvas.get col row = other.get col row) :
    canvas = other := by
  obtain ⟨w, h, cells, size⟩ := canvas
  obtain ⟨w', h', cells', size'⟩ := other
  cases width
  cases height
  have shown : cells = cells' := by
    refine Array.ext (size.trans size'.symm) fun i bound bound' => ?_
    rw [size] at bound
    have positive : 0 < w := Nat.pos_of_mul_pos_right (Nat.zero_lt_of_lt bound)
    have inside : i % w < w ∧ i / w < h :=
      ⟨Nat.mod_lt i positive, (Nat.div_lt_iff_lt_mul positive).mpr (Nat.mul_comm w h ▸ bound)⟩
    have cell := same (i % w) inside.1 (i / w) inside.2
    simpa [get, inside, Nat.div_add_mod', Array.getD, size, size', bound] using cell
  cases shown
  rfl

/-- The canvas with the given characters in its cells. -/
def tabulate (width height : Nat) (cell : Nat → Nat → Char) : Canvas :=
  ⟨width, height, Array.ofFn fun i : Fin (width * height) => cell (i % width) (i / width), by simp⟩

theorem get_tabulate {width height : Nat} (cell : Nat → Nat → Char)
    (inside : col < width ∧ row < height) :
    (tabulate width height cell).get col row = cell col row := by
  have bound := cell_lt inside
  have place : (row * width + col) % width = col ∧ (row * width + col) / width = row := by
    have positive := Nat.zero_lt_of_lt inside.1
    rw [Nat.mul_add_mod', Nat.mod_eq_of_lt inside.1, Nat.mul_comm, Nat.mul_add_div positive,
      Nat.div_eq_of_lt inside.1]
    exact ⟨rfl, rfl⟩
  simp [get, tabulate, inside, Array.getD, bound, place]

theorem get_blank (width height col row : Nat) : (blank width height).get col row = ' ' := by
  unfold get blank
  split
  · simp [Array.getD]
  · rfl

end Cells

/-- What painting a region of a canvas does: inside the region the paint shows, and nothing
else changes. -/
structure Paints (canvas painted : Canvas) (region : Nat → Nat → Prop)
    (paint : Nat → Nat → Char) : Prop where
  width : painted.width = canvas.width
  height : painted.height = canvas.height
  covered : ∀ col row, region col row → col < canvas.width → row < canvas.height →
    painted.get col row = paint col row
  bare : ∀ col row, ¬ region col row → painted.get col row = canvas.get col row

namespace Paints

variable {canvas painted : Canvas} {region region' : Nat → Nat → Prop} {paint : Nat → Nat → Char}

theorem nothing (canvas : Canvas) (paint : Nat → Nat → Char) :
    Paints canvas canvas (fun _ _ => False) paint where
  width := rfl
  height := rfl
  covered _ _ never := never.elim
  bare _ _ _ := rfl

/-- Only the cells of the canvas count for a region. -/
theorem congr (paints : Paints canvas painted region paint)
    (same : ∀ col < canvas.width, ∀ row < canvas.height, region col row ↔ region' col row) :
    Paints canvas painted region' paint where
  width := paints.width
  height := paints.height
  covered col row inside left above :=
    paints.covered col row ((same col left row above).mpr inside) left above
  bare col row outside := by
    by_cases on : col < canvas.width ∧ row < canvas.height
    · exact paints.bare col row fun inside => outside ((same col on.1 row on.2).mp inside)
    · have off : ¬ (col < painted.width ∧ row < painted.height) := by
        rwa [paints.width, paints.height]
      rw [get_of_outside on, get_of_outside off]

theorem trans {further : Canvas} (first : Paints canvas painted region paint)
    (second : Paints painted further region' paint) :
    Paints canvas further (fun col row => region col row ∨ region' col row) paint where
  width := second.width.trans first.width
  height := second.height.trans first.height
  covered col row inside left above := by
    by_cases again : region' col row
    · exact second.covered col row again (first.width.symm ▸ left) (first.height.symm ▸ above)
    · rw [second.bare col row again]
      exact first.covered col row (inside.resolve_right again) left above
  bare col row outside := by
    rw [not_or] at outside
    rw [second.bare col row outside.2, first.bare col row outside.1]

theorem set (canvas : Canvas) (col row : Nat) (paint : Nat → Nat → Char) :
    Paints canvas (canvas.set col row (paint col row)) (fun c r => c = col ∧ r = row) paint where
  width := width_set ..
  height := height_set ..
  covered c r here left above := by
    obtain ⟨rfl, rfl⟩ := here
    exact get_set_self ⟨left, above⟩ _
  bare c r elsewhere := get_set_of_ne canvas _ elsewhere

/-- Strokes painted one after the other cover their regions together. -/
theorem foldl {α : Type} {step : Canvas → α → Canvas} {regions : α → Nat → Nat → Prop}
    (each : ∀ canvas a, Paints canvas (step canvas a) (regions a) paint) (strokes : List α)
    (canvas : Canvas) :
    Paints canvas (strokes.foldl step canvas) (fun col row => ∃ a ∈ strokes, regions a col row)
      paint := by
  induction strokes generalizing canvas with
  | nil => simpa using nothing canvas paint
  | cons a rest ih => simpa using (each canvas a).trans (ih (step canvas a))

end Paints

section Lines

theorem mem_between {a b limit n : Nat} :
    n ∈ between a b limit ↔ min a b ≤ n ∧ n ≤ max a b ∧ n < limit := by
  rw [between, List.mem_range'_1]
  omega

theorem paintColumn_paints (canvas : Canvas) (x y1 y2 : Nat) (glyphs : Glyphs) :
    Paints canvas (canvas.paintColumn x y1 y2 glyphs)
      (fun col row => col = x ∧ min y1 y2 ≤ row ∧ row ≤ max y1 y2) fun _ _ => glyphs.vertical := by
  have cells := Paints.foldl (fun canvas row => Paints.set canvas x row fun _ _ => glyphs.vertical)
    (between y1 y2 canvas.height) canvas
  refine cells.congr fun col _ row above => ?_
  simp only [mem_between]
  constructor
  · rintro ⟨row, inside, rfl, rfl⟩
    exact ⟨rfl, inside.1, inside.2.1⟩
  · rintro ⟨rfl, low, high⟩
    exact ⟨row, ⟨low, high, above⟩, rfl, rfl⟩

theorem paintRow_paints (canvas : Canvas) (y x1 x2 : Nat) (glyphs : Glyphs)
    (crossing : Nat → Nat → Bool) :
    Paints canvas (canvas.paintRow y x1 x2 glyphs fun col => crossing col y)
      (fun col row => row = y ∧ min x1 x2 ≤ col ∧ col ≤ max x1 x2)
      fun col row => if crossing col row then glyphs.cross else glyphs.horizontal := by
  have cells := Paints.foldl (fun canvas col => Paints.set canvas col y
    fun col row => if crossing col row then glyphs.cross else glyphs.horizontal)
    (between x1 x2 canvas.width) canvas
  refine cells.congr fun col left row _ => ?_
  simp only [mem_between]
  constructor
  · rintro ⟨col, inside, rfl, rfl⟩
    exact ⟨rfl, inside.1, inside.2.1⟩
  · rintro ⟨rfl, low, high⟩
    exact ⟨col, ⟨low, high, left⟩, rfl, rfl⟩

end Lines

end ChurchScript.Diagram.Canvas
