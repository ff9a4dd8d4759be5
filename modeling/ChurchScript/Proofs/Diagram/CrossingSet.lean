import ChurchScript.Proofs.Diagram.Raster

/-!
# Painting with a set of crossings

Where a level stroke takes the cross glyph can also be found before anything is painted: each
level stroke is compared with each upright one, by their own coordinates, and the cells where
they meet are collected (`Picture.crossings`). As a grid keeps the order of the coordinates,
these are the cells of a level stroke that an upright was painted on
(`mem_crossings_iff_upright`), and both ways paint one canvas (`paint_eq_paintByCrossings`).
-/
namespace ChurchScript.Diagram

/-- Whether an upright span stands within a level one and reaches its level. -/
def Span.Meets (level upright : Span) : Prop :=
  (level.low ≤ upright.level ∧ upright.level ≤ level.high) ∧
    upright.low ≤ level.level ∧ level.level ≤ upright.high

instance (level upright : Span) : Decidable (level.Meets upright) :=
  inferInstanceAs (Decidable ((_ ∧ _) ∧ _ ∧ _))

namespace Picture

/-- The cells where a level stroke meets an upright one. -/
def crossings (picture : Picture) : List (Nat × Nat) :=
  picture.horizontals.flatMap fun level =>
    (picture.verticals.filter fun upright => decide (level.Meets upright)).map fun upright =>
      (picture.grid.column upright.level, picture.grid.row level.level)

/-- Paints the uprights, and then the level strokes with the cross glyph in the cells that were
collected. -/
def paintByCrossings (picture : Picture) (glyphs : Glyphs) : Canvas :=
  picture.horizontals.foldl
    (fun canvas span =>
      let y := picture.grid.row span.level
      canvas.paintRow y (picture.grid.column span.low) (picture.grid.column span.high) glyphs
        fun x => picture.crossings.contains (x, y))
    (picture.uprights picture.grid glyphs)

/-- Whether every stroke goes from its lesser end to its greater one. -/
def Ordered (picture : Picture) : Prop :=
  ∀ span ∈ picture.horizontals ++ picture.verticals, span.low ≤ span.high

end Picture

section Order

variable {picture : Picture} {a b : Int}

theorem idxOf_le_iff {l : List Int} (increasing : l.Pairwise (· < ·)) (left : a ∈ l)
    (right : b ∈ l) : l.idxOf a ≤ l.idxOf b ↔ a ≤ b := by
  rw [idxOf_eq_rank increasing left, idxOf_eq_rank increasing right,
    rank_le_iff (List.mem_toFinset.mpr right)]

theorem column_le_iff (left : a ∈ picture.grid.xs) (right : b ∈ picture.grid.xs) :
    picture.grid.column a ≤ picture.grid.column b ↔ a ≤ b := by
  rw [← idxOf_le_iff (grid_xs_increasing picture) left right]
  exact Nat.mul_le_mul_left_iff (by decide)

theorem row_le_iff (left : a ∈ picture.grid.ys) (right : b ∈ picture.grid.ys) :
    picture.grid.row a ≤ picture.grid.row b ↔ a ≤ b :=
  idxOf_le_iff (grid_ys_increasing picture) left right

end Order

section Crossings

variable {picture : Picture} {glyphs : Glyphs}

theorem mem_crossings {cell : Nat × Nat} :
    cell ∈ picture.crossings ↔ ∃ level ∈ picture.horizontals, ∃ upright ∈ picture.verticals,
      level.Meets upright ∧
        cell = (picture.grid.column upright.level, picture.grid.row level.level) := by
  simp only [Picture.crossings, List.mem_flatMap, List.mem_map, List.mem_filter, decide_eq_true_eq,
    and_assoc, eq_comm (a := cell)]

/-- An upright is painted on the cells of its column whose rows lie between its ends. -/
theorem stems_get_iff (ordered : picture.Ordered) (visible : glyphs.vertical ≠ ' ') {col row : Nat}
    (left : col < picture.grid.blank.width) (above : row < picture.grid.blank.height) :
    (picture.stems glyphs).get col row = glyphs.vertical ↔
      ∃ upright ∈ picture.verticals, col = picture.grid.column upright.level ∧
        picture.grid.row upright.low ≤ row ∧ row ≤ picture.grid.row upright.high := by
  have painted := stems_paints picture glyphs
  have inOrder : ∀ upright ∈ picture.verticals,
      picture.grid.row upright.low ≤ picture.grid.row upright.high := by
    intro upright inside
    obtain ⟨low, high⟩ := picture.onGrid.2 upright inside
    exact (row_le_iff low.2.1 high.2.1).mpr (ordered upright (List.mem_append_right _ inside))
  have region : (∃ span ∈ picture.verticals, col = picture.grid.column span.level ∧
      min (picture.grid.row span.low) (picture.grid.row span.high) ≤ row ∧
      row ≤ max (picture.grid.row span.low) (picture.grid.row span.high)) ↔
      ∃ upright ∈ picture.verticals, col = picture.grid.column upright.level ∧
        picture.grid.row upright.low ≤ row ∧ row ≤ picture.grid.row upright.high := by
    refine exists_congr fun upright => and_congr_right fun inside => ?_
    rw [min_eq_left (inOrder upright inside), max_eq_right (inOrder upright inside)]
  rw [← region]
  refine ⟨fun shown => ?_, fun covered => painted.covered col row covered left above⟩
  by_contra bare
  rw [painted.bare col row bare] at shown
  exact visible (shown.symm.trans (Canvas.get_blank ..))

/-- On the cells of a level stroke, the crossings are where an upright was painted. -/
theorem mem_crossings_iff_upright (ordered : picture.Ordered) (visible : glyphs.vertical ≠ ' ')
    {level : Span} (inside : level ∈ picture.horizontals) {col : Nat}
    (low : picture.grid.column level.low ≤ col) (high : col ≤ picture.grid.column level.high) :
    (col, picture.grid.row level.level) ∈ picture.crossings ↔
      (picture.stems glyphs).get col (picture.grid.row level.level) = glyphs.vertical := by
  obtain ⟨first, last⟩ := picture.onGrid.1 level inside
  rw [mem_crossings, stems_get_iff ordered visible (high.trans_lt last.1.2) first.2.2]
  constructor
  · rintro ⟨other, member, upright, stands, meets, cell⟩
    obtain ⟨rfl, sameRow⟩ := Prod.mk.inj cell
    obtain ⟨bottom, top⟩ := picture.onGrid.2 upright stands
    have height := (picture.onGrid.1 other member).1.2.1
    rw [sameRow]
    exact ⟨upright, stands, rfl, (row_le_iff bottom.2.1 height).mpr meets.2.1,
      (row_le_iff height top.2.1).mpr meets.2.2⟩
  · rintro ⟨upright, stands, rfl, below, beyond⟩
    obtain ⟨bottom, top⟩ := picture.onGrid.2 upright stands
    rw [column_le_iff first.1.1 bottom.1.1] at low
    rw [column_le_iff bottom.1.1 last.1.1] at high
    rw [row_le_iff bottom.2.1 first.2.1] at below
    rw [row_le_iff first.2.1 top.2.1] at beyond
    exact ⟨level, inside, upright, stands, ⟨⟨low, high⟩, below, beyond⟩, rfl⟩

theorem paintRow_congr {canvas : Canvas} {y x1 x2 : Nat} {crossing crossing' : Nat → Bool}
    (same : ∀ col, min x1 x2 ≤ col → col ≤ max x1 x2 → crossing col = crossing' col) :
    canvas.paintRow y x1 x2 glyphs crossing = canvas.paintRow y x1 x2 glyphs crossing' := by
  refine List.foldl_ext _ _ _ fun painted col member => ?_
  obtain ⟨low, high, -⟩ := Canvas.mem_between.mp member
  rw [same col low high]

/-- Where the strokes go from their lesser ends to their greater ones, the uprights that were
painted tell the crossings. -/
theorem paint_eq_paintByCrossings (ordered : picture.Ordered) (visible : glyphs.vertical ≠ ' ') :
    picture.paint glyphs = picture.paintByCrossings glyphs := by
  refine List.foldl_ext _ _ _ fun canvas level inside => paintRow_congr fun col low high => ?_
  obtain ⟨first, last⟩ := picture.onGrid.1 level inside
  have inOrder : picture.grid.column level.low ≤ picture.grid.column level.high :=
    (column_le_iff first.1.1 last.1.1).mpr (ordered level (List.mem_append_left _ inside))
  rw [min_eq_left inOrder] at low
  rw [max_eq_right inOrder] at high
  rw [Bool.eq_iff_iff, beq_iff_eq, List.contains_iff_mem]
  exact (mem_crossings_iff_upright ordered visible inside low high).symm

end Crossings

section Svg

theorem between_ordered (level a b : Binary64) :
    (Span.between level a b).low ≤ (Span.between level a b).high := by
  cases left : a.toInt? <;> cases right : b.toInt? <;>
    simp [Span.between, left, right, List.min?_cons, List.max?_cons]

/-- The strokes of an SVG text go from their lesser ends to their greater ones. -/
theorem ofSvg_ordered (svg : String) : (Picture.ofSvg svg).Ordered := by
  have made : ∀ stroke ∈ strokes svg, ∃ level a b, stroke = .horizontal (.between level a b) ∨
      stroke = .vertical (.between level a b) := by
    intro stroke member
    simp only [strokes, List.mem_filterMap, Option.bind_eq_some_iff] at member
    obtain ⟨-, -, element, -, read⟩ := member
    unfold Stroke.ofLine? at read
    split_ifs at read
    · exact ⟨_, _, _, .inl (Option.some.inj read).symm⟩
    · exact ⟨_, _, _, .inr (Option.some.inj read).symm⟩
  intro span member
  simp only [Picture.ofSvg, Picture.ofStrokes, List.mem_append, List.mem_filterMap] at member
  rcases member with ⟨stroke, inside, shape⟩ | ⟨stroke, inside, shape⟩ <;>
    obtain ⟨level, a, b, rfl | rfl⟩ := made stroke inside <;> cases shape <;>
    exact between_ordered level a b

/-- The text picture of an SVG text, painted with the crossings collected first. -/
theorem text_ofSvg (svg : String) (charset : Charset) :
    (Picture.ofSvg svg).text charset =
      ((Picture.ofSvg svg).paintByCrossings charset.glyphs).text := by
  rw [Picture.text, paint_eq_paintByCrossings (ofSvg_ordered svg) (vertical_visible charset)]

end Svg

end ChurchScript.Diagram
