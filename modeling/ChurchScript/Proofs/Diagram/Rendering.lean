import ChurchScript.Drawing
import ChurchScript.Proofs.Diagram.Markup
import ChurchScript.Proofs.Diagram.Raster
import ChurchScript.Proofs.Number.WholeNumbers

/-!
# The text picture of a figure

A figure is written as a document and its lines are read back from there. What comes back is
the figure, enlarged, with one coordinate set to zero if the stroke colour ends in that
coordinate's name and an equals sign (`ofSvg_figure`). So the text picture is the picture
by ranks (`picture_eq_raster`), and of all that a style holds only the characters and the
end of the stroke colour show in it.
-/
namespace ChurchScript.Diagram

section Values

/-- What the decimal text of a whole number is made of is neither escaped nor trimmed, and
names no coordinate. -/
theorem plain_of_digit {c : Char} (digit : c = '-' ∨ c.isDigit = true) :
    isSpecial c = false ∧ Text.isBlank c = false ∧ c ≠ 'x' ∧ c ≠ 'y' := by
  rcases digit with rfl | digit
  · decide
  · have range : 48 ≤ c.toNat ∧ c.toNat ≤ 57 := by
      simp only [Char.isDigit, Bool.and_eq_true, decide_eq_true_eq] at digit
      exact ⟨UInt32.le_iff_toNat_le.mp digit.1, UInt32.le_iff_toNat_le.mp digit.2⟩
    have other : ∀ d : Char, d.isDigit = false → c ≠ d := by
      rintro d none rfl
      rw [digit] at none
      cases none
    refine ⟨?_, ?_, other 'x' (by decide), other 'y' (by decide)⟩
    · simp [isSpecial, other '&' (by decide), other '<' (by decide), other '>' (by decide),
        other '"' (by decide)]
    · simp [Text.isBlank]
      omega

theorem trim_of_solid {cs : List Char} (solid : ∀ c ∈ cs, Text.isBlank c = false) :
    Text.trim cs = cs := by
  have kept : ∀ cs : List Char, (∀ c ∈ cs, Text.isBlank c = false) →
      cs.dropWhile Text.isBlank = cs := by
    intro cs solid
    cases cs with
    | nil => rfl
    | cons c cs =>
      exact List.dropWhile_cons_of_neg (Bool.eq_false_iff.mp (solid c List.mem_cons_self))
  rw [Text.trim, Text.trimEnd, kept cs solid, kept cs.reverse (by simpa using solid),
    List.reverse_reverse]

theorem escape_toString (n : Int) :
    (toString n).toList.flatMap escapeChar = (toString n).toList :=
  flatMap_escape_plain fun _ member =>
    (plain_of_digit (Decimal.minus_or_isDigit_of_mem_toString member)).1

theorem readValue_toString {n : Int} (small : n.natAbs < 2 ^ 53) :
    Line.readValue (toString n).toList = .ofInt n := by
  have solid : ∀ c ∈ (toString n).toList, Text.isBlank c = false := fun _ member =>
    (plain_of_digit (Decimal.minus_or_isDigit_of_mem_toString member)).2.1
  rw [Line.readValue, trim_of_solid solid, Decimal.read_toString small, Option.getD_some]

end Values

section Elements

/-- The coordinate that a stroke colour leaves open: it ends in the coordinate's name and an
equals sign, so that the next quoted text is taken for the value. -/
def openCoordinate? (colour : String) : Option Coordinate := dangling? false colour.toList

/-- Which colours leave a coordinate open, and which one. -/
theorem openCoordinate?_eq_some_iff {colour : String} {coordinate : Coordinate} :
    openCoordinate? colour = some coordinate ↔ ∃ before blanks blanks',
      colour.toList = before ++ (coordinate.name.toList ++ (blanks ++ '=' :: blanks')) ∧
        (before.map Text.isWord).getLastD false = false ∧
        ∀ c ∈ blanks ++ blanks', Text.isBlank c = true := by
  simp only [openCoordinate?, dangling?_eq_some_iff, unfinished?_eq_some_iff]
  constructor
  · rintro ⟨before, _, shape, ⟨blanks, blanks', rfl, blank⟩, start⟩
    exact ⟨before, blanks, blanks', shape, start, blank⟩
  · rintro ⟨before, blanks, blanks', shape, start, blank⟩
    exact ⟨before, _, shape, ⟨blanks, blanks', rfl, blank⟩, start⟩

/-- Behind the stroke colour an element has no letter of a coordinate. -/
theorem width_unlettered (n : Nat) : Unlettered ((toString n).toList.flatMap escapeChar ++ '"' ::
    ((⟨"stroke-linecap", "round"⟩ : Attribute).chars ++ ['/'])) := by
  have plain : ∀ c ∈ (toString n).toList, isSpecial c = false ∧ Text.isBlank c = false ∧
      c ≠ 'x' ∧ c ≠ 'y' := fun _ member =>
    plain_of_digit (.inr (Decimal.isDigit_of_mem_toString member))
  rw [flatMap_escape_plain fun c member => (plain c member).1]
  exact unlettered_append.mpr ⟨unlettered_of_forall fun c member => (plain c member).2.2, by decide⟩

/-- Behind the coordinates an element gives the one that the colour leaves open, if any. -/
theorem assignments_colour (style : Style) :
    assignments false ((⟨"stroke", style.stroke⟩ : Attribute).chars ++
      ((⟨"stroke-width", toString style.lineWidth⟩ : Attribute).chars ++
        ((⟨"stroke-linecap", "round"⟩ : Attribute).chars ++ ['/']))) =
      (openCoordinate? style.stroke).toList.map (·, label "stroke-width") := by
  have unlettered := width_unlettered style.lineWidth
  have labelUnlettered : Unlettered (label "stroke-width") := by decide
  have labelUnquoted : '"' ∉ label "stroke-width" := by decide
  rw [assignments_unnamed false (by decide) (by decide), Attribute.chars_append ⟨"stroke-width", _⟩,
    assignments_piece false (not_mem_escape (by simp) _) labelUnquoted, dangling?_escape,
    ← openCoordinate?]
  cases openCoordinate? style.stroke with
  | some coordinate => simp only [assignments_eq_nil false unlettered]; rfl
  | none =>
    refine assignments_eq_nil false (unlettered_append.mpr ⟨labelUnlettered, ?_⟩)
    exact unlettered_cons.mpr ⟨by decide, unlettered⟩

/-- An element gives the four coordinates, and once more the one that the colour leaves open. -/
theorem assignments_element (style : Style) (s : Segment) :
    assignments true (s.element style) =
      (.x1, (toString (s.drawn style).x1).toList) :: (.y1, (toString (s.drawn style).y1).toList) ::
      (.x2, (toString (s.drawn style).x2).toList) :: (.y2, (toString (s.drawn style).y2).toList) ::
      (openCoordinate? style.stroke).toList.map (·, label "stroke-width") := by
  have read := fun coordinate inWord (n : Int) rest =>
    assignments_named coordinate inWord (toString n) rest
  simp only [escape_toString] at read
  simp only [Segment.element, Style.lineAttributes, List.flatMap_cons, List.flatMap_nil,
    List.append_assoc, List.nil_append]
  refine (read .x1 true _ _).trans (congrArg (List.cons _) ?_)
  refine (read .y1 false _ _).trans (congrArg (List.cons _) ?_)
  refine (read .x2 false _ _).trans (congrArg (List.cons _) ?_)
  exact (read .y2 false _ _).trans (congrArg (List.cons _) (assignments_colour style))

end Elements

section Lines

/-- Sets a coordinate to zero. -/
def Segment.clear : Option Coordinate → Segment → Segment
  | none, s => s
  | some .x1, s => { s with x1 := 0 }
  | some .y1, s => { s with y1 := 0 }
  | some .x2, s => { s with x2 := 0 }
  | some .y2, s => { s with y2 := 0 }

/-- Whether the coordinates stay below `2^53` in magnitude. -/
def Segment.Exact (s : Segment) : Prop :=
  s.x1.natAbs < 2 ^ 53 ∧ s.y1.natAbs < 2 ^ 53 ∧ s.x2.natAbs < 2 ^ 53 ∧ s.y2.natAbs < 2 ^ 53

instance (s : Segment) : Decidable s.Exact :=
  inferInstanceAs (Decidable (_ ∧ _ ∧ _ ∧ _))

def Line.ofSegment (s : Segment) : Line :=
  ⟨.ofInt s.x1, .ofInt s.y1, .ofInt s.x2, .ofInt s.y2⟩

theorem Segment.Exact.clear {s : Segment} (exact : s.Exact) (coordinate : Option Coordinate) :
    (s.clear coordinate).Exact := by
  obtain ⟨x1, y1, x2, y2⟩ := exact
  cases coordinate with
  | none => exact ⟨x1, y1, x2, y2⟩
  | some coordinate => cases coordinate <;> simp_all [Segment.clear, Segment.Exact]

theorem Segment.clear_scale (u : Int) (coordinate : Option Coordinate) (s : Segment) :
    (s.scale u).clear coordinate = (s.clear coordinate).scale u := by
  cases coordinate with
  | none => rfl
  | some coordinate => cases coordinate <;> simp [Segment.clear, Segment.scale]

theorem Segment.Exact.drawn {style : Style} {s : Segment}
    (exact : (s.scale style.unitSize).Exact) : s.drawn style = s.scale style.unitSize := by
  obtain ⟨x1, y1, x2, y2⟩ := exact
  have whole {n : Int} (small : n.natAbs < 2 ^ 53) : word n = n :=
    word_eq_self ⟨by omega, by omega⟩
  simp only [Segment.scale] at x1 y1 x2 y2
  simp only [Segment.drawn, Segment.scale, whole x1, whole y1, whole x2, whole y2]

/-- The line of a segment's element. -/
theorem ofElement_segment {style : Style} {s : Segment} (exact : (s.scale style.unitSize).Exact) :
    Line.ofElement (s.element style) =
      .ofSegment ((s.scale style.unitSize).clear (openCoordinate? style.stroke)) := by
  have drawn := exact.drawn
  obtain ⟨x1, y1, x2, y2⟩ := exact
  have unread : Line.readValue (label "stroke-width") = .finite false 0 := by decide
  have zero : Binary64.ofInt 0 = .finite false 0 := by simp [Binary64.ofInt]
  have written : Line.ofElement (s.element style) = (openCoordinate? style.stroke).toList.foldl
      (fun line coordinate => line.set coordinate (.ofInt 0))
      (.ofSegment (s.scale style.unitSize)) := by
    rw [Line.ofElement, assignments_element, drawn]
    simp only [List.foldl_cons, List.foldl_map, unread, zero]
    rw [readValue_toString x1, readValue_toString y1, readValue_toString x2, readValue_toString y2]
    rfl
  rw [written]
  cases openCoordinate? style.stroke with
  | none => rfl
  | some coordinate => cases coordinate <;> rfl

/-- Whole coordinates make the stroke of the segment. -/
theorem ofLine?_ofSegment {s : Segment} (exact : s.Exact) :
    Stroke.ofLine? (.ofSegment s) = s.stroke? := by
  obtain ⟨x1, y1, x2, y2⟩ := exact
  have between : ∀ {level a b : Int}, level.natAbs < 2 ^ 53 → a.natAbs < 2 ^ 53 →
      b.natAbs < 2 ^ 53 →
      Span.between (.ofInt level) (.ofInt a) (.ofInt b) = ⟨level, min a b, max a b⟩ := by
    intro level a b small left right
    simp [Span.between, Binary64.toInt_ofInt small, Binary64.toInt_ofInt left,
      Binary64.toInt_ofInt right]
  simp only [Stroke.ofLine?, Line.ofSegment, Binary64.near_ofInt, between y1 x1 x2,
    between x1 y1 y2, Segment.stroke?, Segment.isHorizontal, Segment.isVertical,
    decide_eq_true_eq, beq_iff_eq]

end Lines

section Pictures

/-- Whether the coordinates of a figure stay exact when enlarged. -/
def Figure.Exact (figure : Figure) (unit : Nat) : Prop :=
  ∀ s ∈ figure.segments, (s.scale unit).Exact

instance (figure : Figure) (unit : Nat) : Decidable (figure.Exact unit) :=
  inferInstanceAs (Decidable (∀ _ ∈ _, _))

variable {style : Style} {figure : Figure}

/-- The picture of a figure's document has the strokes of its segments, enlarged and with the
open coordinate cleared. -/
theorem ofSvg_figure (exact : figure.Exact style.unitSize) :
    Picture.ofSvg (figure.svg style) =
      .ofSegments ((figure.segments.map (.clear (openCoordinate? style.stroke))).map
        (.scale style.unitSize)) := by
  rw [Picture.ofSvg, strokes_svg, Picture.ofSegments, List.map_map, List.filterMap_map]
  congr 1
  refine List.filterMap_congr fun s inside => ?_
  rw [ofElement_segment (exact s inside), ofLine?_ofSegment ((exact s inside).clear _),
    Segment.clear_scale]
  rfl

/-- The text picture is the picture by ranks of the segments with the open coordinate cleared. -/
theorem picture_eq_raster (positive : 0 < style.unitSize) (exact : figure.Exact style.unitSize) :
    figure.picture style =
      (raster (figure.segments.map (.clear (openCoordinate? style.stroke)))
        style.charset.glyphs).text := by
  rw [Figure.picture, ofSvg_figure exact, Picture.text,
    paint_eq_raster _ (vertical_visible style.charset), raster_scale (by exact_mod_cast positive)]

/-- Only the characters and the open coordinate count. -/
theorem picture_congr {other : Style} (positive : 0 < style.unitSize)
    (positive' : 0 < other.unitSize) (exact : figure.Exact style.unitSize)
    (exact' : figure.Exact other.unitSize) (characters : style.charset = other.charset)
    (same : openCoordinate? style.stroke = openCoordinate? other.stroke) :
    figure.picture style = figure.picture other := by
  rw [picture_eq_raster positive exact, picture_eq_raster positive' exact', characters, same]

/-- There are as many crosses as points where what is left of the lines meets. -/
theorem count_picture (positive : 0 < style.unitSize) (exact : figure.Exact style.unitSize) :
    (figure.picture style).toList.count style.charset.glyphs.cross =
      (meetings (figure.segments.map (.clear (openCoordinate? style.stroke)))).card := by
  rw [picture_eq_raster positive exact, count_cross]

/-- Pictures differ if the lines meet in different numbers of points. -/
theorem picture_ne_of_meetings {other : Style} (positive : 0 < style.unitSize)
    (positive' : 0 < other.unitSize) (exact : figure.Exact style.unitSize)
    (exact' : figure.Exact other.unitSize) (characters : style.charset = other.charset)
    (differ : (meetings (figure.segments.map (.clear (openCoordinate? style.stroke)))).card ≠
      (meetings (figure.segments.map (.clear (openCoordinate? other.stroke)))).card) :
    figure.picture style ≠ figure.picture other := by
  intro same
  have crosses := count_picture positive exact
  rw [same, characters, count_picture positive' exact'] at crosses
  exact differ crosses.symm

end Pictures

section Styles

/-- The styles that the setters make from the default one. -/
inductive Style.Built : Style → Prop where
  | default : Built {}
  | withUnitSize {style : Style} (built : Built style) (size : Nat) :
      Built (style.withUnitSize size)
  | withLineWidth {style : Style} (built : Built style) (width : Nat) :
      Built (style.withLineWidth width)
  | withPadding {style : Style} (built : Built style) (padding : Nat) :
      Built (style.withPadding padding)
  | withBackground {style : Style} (built : Built style) (colour : String) :
      Built (style.withBackground colour)
  | withStroke {style : Style} (built : Built style) (colour : String) :
      Built (style.withStroke colour)
  | withCharset {style : Style} (built : Built style) (charset : Charset) :
      Built (style.withCharset charset)

/-- What the setters keep: the unit is positive and the stroke colour is not empty. -/
theorem Style.Built.sound {style : Style} (built : style.Built) :
    0 < style.unitSize ∧ style.stroke ≠ "" := by
  induction built with
  | default => decide
  | withUnitSize _ size ih =>
    refine ⟨?_, ih.2⟩
    unfold Style.withUnitSize
    dsimp only
    split
    · decide
    · omega
  | withLineWidth _ _ ih | withPadding _ _ ih | withCharset _ _ ih => exact ih
  | withBackground _ colour ih =>
    unfold Style.withBackground
    split <;> exact ih
  | withStroke _ colour ih =>
    unfold Style.withStroke
    split
    next => exact ih
    next filled => exact ⟨ih.1, by simpa [String.isEmpty_iff] using filled⟩

variable {figure : Figure} {style : Style}

theorem map_clear_none (segments : List Segment) : segments.map (.clear none) = segments :=
  List.map_id segments

/-- Figures of the same lines are exact together. -/
theorem SameLines.exact {other : Figure} {unit : Nat}
    (same : SameLines figure.segments other.segments) (exact : figure.Exact unit) :
    other.Exact unit := by
  intro s inside
  rcases (same s).mpr (.inl inside) with there | turned
  · exact exact s there
  · obtain ⟨x2, y2, x1, y1⟩ := exact _ turned
    exact ⟨x1, y1, x2, y2⟩

/-- The text picture of a figure in the default stroke colour is its picture by ranks. -/
theorem picture_is_rank_picture (figure : Figure) {style : Style} (built : style.Built)
    (colour : style.stroke = ({} : Style).stroke) (exact : figure.Exact style.unitSize) :
    figure.picture style = (raster figure.segments style.charset.glyphs).text ∧
    (∀ col row, Text.shown (figure.picture style) col row =
      rasterCell figure.segments style.charset.glyphs col row) ∧
    (∃ widths : List Int, widths.Pairwise (· < ·) ∧
      widths.toFinset = keptWidths figure.segments ∧
      ∀ i (bound : i < widths.length), rasterColumn figure.segments widths[i] = 2 * i) ∧
    (∃ heights : List Int, heights.Pairwise (· < ·) ∧
      heights.toFinset = keptHeights figure.segments ∧
      ∀ i (bound : i < heights.length), rasterRow figure.segments heights[i] = i) ∧
    (∀ other : Figure, SameLines figure.segments other.segments →
      other.picture style = figure.picture style) ∧
    (figure.picture style).toList.count style.charset.glyphs.cross =
      (meetings figure.segments).card ∧
    (Picture.ofSvg (figure.svg style)).OnGrid := by
  have closed : openCoordinate? style.stroke = none := by
    rw [colour]
    decide
  have ranked : ∀ other : Figure, other.Exact style.unitSize →
      other.picture style = (raster other.segments style.charset.glyphs).text := by
    intro other exact
    rw [picture_eq_raster built.sound.1 exact, closed, map_clear_none]
  have own := ranked figure exact
  refine ⟨own, ?_, ?_, ?_, ?_, ?_, Picture.onGrid _⟩
  · intro col row
    rw [own, Canvas.shown_text (raster_plain _ _), raster_get]
  · obtain ⟨widths, increasing, all, ranks⟩ := exists_ranking (keptWidths figure.segments)
    exact ⟨widths, increasing, all, fun i bound => congrArg (2 * ·) (ranks i bound)⟩
  · exact exists_ranking (keptHeights figure.segments)
  · intro other same
    rw [own, ranked other (same.exact exact), same.raster_eq]
  · rw [count_picture built.sound.1 exact, closed, map_clear_none]

/-- A figure of two crossing lines and a slanted one, drawn in both directions. -/
def slantedCross : Figure := ⟨[⟨0, 1, 2, 1⟩, ⟨1, 2, 1, 0⟩, ⟨0, 0, 2, 2⟩, ⟨2, 1, 0, 1⟩], 2, 2⟩

theorem slantedCross_rank_picture :
    ((({} : Style).withUnitSize 7).withCharset .ascii).Built ∧
    ((({} : Style).withUnitSize 7).withCharset .ascii).stroke = ({} : Style).stroke ∧
    slantedCross.Exact 7 ∧
    slantedCross.picture ((({} : Style).withUnitSize 7).withCharset .ascii) =
      (raster slantedCross.segments Charset.ascii.glyphs).text ∧
    (slantedCross.picture ((({} : Style).withUnitSize 7).withCharset .ascii)).toList.count
      '+' = 1 := by
  have built : ((({} : Style).withUnitSize 7).withCharset .ascii).Built :=
    (Style.Built.default.withUnitSize 7).withCharset .ascii
  have exact : slantedCross.Exact 7 := by decide
  have ranked := picture_is_rank_picture slantedCross built rfl exact
  obtain ⟨picture, -, -, -, -, crosses, -⟩ := ranked
  refine ⟨built, rfl, exact, picture, crosses.trans ?_⟩
  decide

/-- A corner, in which every coordinate of a line decides whether the lines meet. -/
def corner : Figure := ⟨[⟨1, 1, 1, 2⟩, ⟨1, 1, 2, 1⟩], 2, 2⟩

theorem corner_meetings (coordinate : Coordinate) :
    (meetings corner.segments).card = 1 ∧
      (meetings (corner.segments.map (.clear (some coordinate)))).card = 0 := by
  cases coordinate <;> decide

/-- Setting a stroke colour that is not empty sets it and nothing else. -/
theorem withStroke_eq {colour : String} (filled : colour ≠ "") (style : Style) :
    style.withStroke colour = { style with stroke := colour } :=
  if_neg (by simpa [String.isEmpty_iff] using filled)

/-- The corner shows whether a colour leaves a coordinate open. -/
theorem corner_picture_ne {colour : String} {coordinate : Coordinate} (filled : colour ≠ "")
    (opens : openCoordinate? colour = some coordinate) :
    corner.picture (({} : Style).withStroke colour) ≠ corner.picture {} := by
  have exact : corner.Exact 30 := by decide
  have closed : openCoordinate? ({} : Style).stroke = none := by decide
  obtain ⟨one, none⟩ := corner_meetings coordinate
  rw [withStroke_eq filled]
  refine picture_ne_of_meetings (Nat.succ_pos 29) (Nat.succ_pos 29) exact exact rfl ?_
  rw [opens, none, closed, map_clear_none, one]
  decide

/-- Of two styles with the same characters the text picture is the same if their stroke colours
leave the same coordinate open, which is then zero in every line. The colours without any
influence are those that leave none open. -/
theorem picture_eq_of_open_coordinate (figure : Figure) {style other : Style} (built : style.Built)
    (built' : other.Built) (characters : style.charset = other.charset)
    (exact : figure.Exact style.unitSize) (exact' : figure.Exact other.unitSize) :
    (openCoordinate? style.stroke = openCoordinate? other.stroke →
      figure.picture style = figure.picture other) ∧
    figure.picture style =
      (raster (figure.segments.map (.clear (openCoordinate? style.stroke)))
        style.charset.glyphs).text ∧
    ((∀ (drawn : Figure) (plain : Style), plain.Built → drawn.Exact plain.unitSize →
        drawn.picture (plain.withStroke style.stroke) =
          drawn.picture (plain.withStroke ({} : Style).stroke)) ↔
      ¬ ∃ (coordinate : Coordinate) (before blanks blanks' : List Char),
        style.stroke.toList = before ++ (coordinate.name.toList ++ (blanks ++ '=' :: blanks')) ∧
          (before.map Text.isWord).getLastD false = false ∧
          ∀ c ∈ blanks ++ blanks', Text.isBlank c = true) := by
  refine ⟨picture_congr built.sound.1 built'.sound.1 exact exact' characters,
    picture_eq_raster built.sound.1 exact, ?_⟩
  simp only [← openCoordinate?_eq_some_iff]
  constructor
  · rintro independent ⟨coordinate, opens⟩
    exact corner_picture_ne built.sound.2 opens (independent corner {} .default (by decide))
  · intro closed drawn plain made fits
    have none : openCoordinate? style.stroke = openCoordinate? ({} : Style).stroke := by
      rw [Option.eq_none_iff_forall_ne_some.mpr fun coordinate opens => closed ⟨coordinate, opens⟩]
      decide
    rw [withStroke_eq built.sound.2, withStroke_eq (show ({} : Style).stroke ≠ "" by decide)]
    exact picture_congr made.sound.1 made.sound.1 fits fits rfl none

/-- A blank, a quote or a bracket in the colour makes no difference to the open coordinate. -/
theorem corner_same_open_coordinate :
    ((({} : Style).withUnitSize 7).withStroke "y2 =").Built ∧
    ((({} : Style).withPadding 0).withStroke "<\"y2= ").Built ∧
    corner.Exact 7 ∧ corner.Exact 30 ∧
    openCoordinate? "y2 =" = some .y2 ∧ openCoordinate? "<\"y2= " = some .y2 ∧
    corner.picture ((({} : Style).withUnitSize 7).withStroke "y2 =") =
      corner.picture ((({} : Style).withPadding 0).withStroke "<\"y2= ") := by
  have built : ((({} : Style).withUnitSize 7).withStroke "y2 =").Built :=
    (Style.Built.default.withUnitSize 7).withStroke _
  have built' : ((({} : Style).withPadding 0).withStroke "<\"y2= ").Built :=
    (Style.Built.default.withPadding 0).withStroke _
  have exact : corner.Exact 7 := by decide
  have exact' : corner.Exact 30 := by decide
  have opens : openCoordinate? "y2 =" = some .y2 := by decide
  have opens' : openCoordinate? "<\"y2= " = some .y2 := by decide
  refine ⟨built, built', exact, exact', opens, opens', ?_⟩
  exact (picture_eq_of_open_coordinate corner built built' rfl exact exact').1
    (opens.trans opens'.symm)

/-- The diagram of an application of two free variables. -/
def freeApplication : Figure := ⟨[⟨0, 0, 2, 0⟩, ⟨0, 0, 0, -1⟩, ⟨2, 0, 2, -1⟩], 3, 1⟩

/-- A stroke colour can take a line out of the text picture. -/
theorem stroke_colour_changes_picture :
    diagram "x y" = .ok freeApplication ∧
    (({} : Style).withStroke "x1=").Built ∧ ({} : Style).Built ∧
    (({} : Style).withStroke "x1=").charset = ({} : Style).charset ∧
    freeApplication.Exact (({} : Style).withStroke "x1=").unitSize ∧
    freeApplication.Exact ({} : Style).unitSize ∧
    freeApplication.picture (({} : Style).withStroke "x1=") ≠ freeApplication.picture {} := by
  have drawn : diagram "x y" = .ok freeApplication := rfl
  refine ⟨drawn, Style.Built.default.withStroke _, .default, by decide, by decide, by decide, ?_⟩
  refine picture_ne_of_meetings ?_ ?_ ?_ ?_ ?_ ?_ <;> decide

end Styles

end ChurchScript.Diagram
