import ChurchScript.Drawing
import ChurchScript.Proofs.Diagram.Decoding
import ChurchScript.Proofs.Diagram.Markup
import ChurchScript.Proofs.Term.Ranges

/-!
# Lengths of a diagram in words of 64 bits

The figure of a subterm is drawn at the origin and moved to its place afterwards, and the
document of a figure is drawn by multiplying its lengths. All of this can be done in signed
words of 64 bits, checked at every step (`layoutWithin`, `Figure.tagsWithin`): no line of a
subterm lies further out than its size and the abstractions around it say (`place_within`),
which is far from the end of the range for every text that can be read, whatever lengths of 32
bits a style has.
-/
namespace ChurchScript.Diagram

open Term

/-- A whole number, if it fits into a signed word of 64 bits. -/
def signed? (n : Int) : Option Int := if Fits n then some n else none

theorem signed?_eq_some {n : Int} (below : -2 ^ 63 ≤ n) (above : n < 2 ^ 63) :
    signed? n = some n :=
  if_pos ⟨below, above⟩

theorem word_of_signed? {n m : Int} (fits : signed? n = some m) : word n = m := by
  simp only [signed?, Option.ite_none_right_eq_some, Option.some.injEq] at fits
  obtain ⟨fits, rfl⟩ := fits
  exact word_eq_self fits

theorem mapM_eq_some {α β : Type} {f : α → Option β} {g : α → β} {xs : List α}
    (each : ∀ x ∈ xs, f x = some (g x)) : xs.mapM f = some (xs.map g) := by
  induction xs with
  | nil => rfl
  | cons x rest ih =>
    obtain ⟨first, others⟩ := List.forall_mem_cons.mp each
    simp [List.mapM_cons, first, ih others]

section Moving

/-- The segment moved, if the sums fit. -/
def Segment.translateWithin (s : Segment) (dx dy : Int) : Option Segment := do
  let x1 ← signed? (s.x1 + dx)
  let y1 ← signed? (s.y1 + dy)
  let x2 ← signed? (s.x2 + dx)
  let y2 ← signed? (s.y2 + dy)
  return ⟨x1, y1, x2, y2⟩

def Figure.translateWithin (figure : Figure) (dx dy : Int) : Option (List Segment) :=
  figure.segments.mapM (·.translateWithin dx dy)

/-- The rows that the stem of a variable reaches up, if the index fits as a length. -/
def reachWithin : Option Nat → Option Int
  | some i => do
    let length ← signed? i
    signed? (length + 1)
  | none => some 1

/-- The figure of a term with its upper left corner at the origin, if all lengths fit, and so
do the numbers of lines that room is made for. -/
def layoutWithin (bits : Nat) : Term → Option Figure
  | .var _ index _ => do
    let rows ← reachWithin index
    let top ← signed? (-rows)
    return ⟨[.vertical 0 0 top], 1, 0⟩
  | .abs _ _ body => do
    let inner ← layoutWithin bits body
    let height ← signed? (inner.height + 1)
    let _ ← unsigned? bits (inner.segments.length + 1)
    let moved ← inner.translateWithin 0 1
    return ⟨.horizontal 0 0 inner.width :: moved, inner.width, height⟩
  | .app f a => do
    let left ← layoutWithin bits f
    let right ← layoutWithin bits a
    let column ← signed? (left.width + 1)
    let lines ← unsigned? bits (left.segments.length + right.segments.length)
    let _ ← unsigned? bits (lines + 4)
    -- the rows that the drops go up to
    let _ ← signed? (left.height - 1)
    let _ ← signed? (right.height - 1)
    let moved ← right.translateWithin column 0
    let columns ← signed? (left.width + right.width)
    let width ← signed? (columns + 1)
    let height ← signed? (max left.height right.height + 1)
    return ⟨joint 0 column 0 left.height right.height ++ left.segments ++ moved, width, height⟩

@[simp] theorem vertical_translate (x y1 y2 dx dy : Int) :
    (Segment.vertical x y1 y2).translate dx dy = .vertical (x + dx) (y1 + dy) (y2 + dy) := rfl

@[simp] theorem horizontal_translate (y x1 x2 dx dy : Int) :
    (Segment.horizontal y x1 x2).translate dx dy = .horizontal (y + dy) (x1 + dx) (x2 + dx) := rfl

theorem isDegenerate_translate (s : Segment) (dx dy : Int) :
    (s.translate dx dy).isDegenerate = s.isDegenerate := by
  rw [Bool.eq_iff_iff]
  simp [Segment.translate, Segment.isDegenerate, Segment.isHorizontal, Segment.isVertical]

theorem joint_translate (x1 x2 y h1 h2 dx dy : Int) :
    joint (x1 + dx) (x2 + dx) (y + dy) h1 h2 =
      (joint x1 x2 y h1 h2).map (·.translate dx dy) := by
  have proper (lines : List Segment) : (lines.filter (!·.isDegenerate)).map (·.translate dx dy) =
      (lines.map (·.translate dx dy)).filter (!·.isDegenerate) := by
    simp only [List.filter_map, Function.comp_def, isDegenerate_translate]
  simp only [joint_eq, extensions, drops, List.map_append, proper, List.map_cons, List.map_nil,
    vertical_translate, horizontal_translate, Int.add_right_comm _ dy]

/-- The figure of a term is the same wherever it is drawn. -/
theorem place_translate (t : Term) (x y dx dy : Int) :
    place (x + dx) (y + dy) t =
      { place x y t with segments := (place x y t).translate dx dy } := by
  induction t generalizing x y with
  | var name index binder =>
    simp only [place, Figure.translate, List.map_cons, List.map_nil, vertical_translate,
      Int.sub_eq_add_neg, Int.add_right_comm y]
  | abs name binder body ih =>
    have inner := ih x (y + 1)
    rw [Int.add_right_comm] at inner
    simp only [place, inner, Figure.translate, List.map_cons, horizontal_translate,
      Int.add_right_comm x]
  | app f a ihf iha =>
    have argument := iha (x + (place x y f).width + 1) y
    have middle : x + dx + (place x y f).width + 1 = x + (place x y f).width + 1 + dx := by
      omega
    simp only [place, ihf x y, middle, argument, joint_translate, Figure.translate,
      List.map_append]

theorem leaves_le_size (t : Term) : t.leaves ≤ t.size := by
  induction t with
  | var x index binder => exact le_rfl
  | abs x binder body ih => exact ih.trans (Nat.le_add_left _ _)
  | app f a ihf iha => exact Nat.add_le_add ihf iha

/-- No subterm draws more than five lines. -/
theorem place_length_le (t : Term) (x y : Int) :
    (place x y t).segments.length + 4 ≤ 5 * t.size := by
  induction t generalizing x y with
  | var name index binder => exact le_rfl
  | abs name binder body ih =>
    have inner := ih x (y + 1)
    simp only [place, List.length_cons, size]
    omega
  | app f a ihf iha =>
    have function := ihf x y
    have argument := iha (x + (place x y f).width + 1) y
    have extended := length_extensions_le x (x + (place x y f).width + 1) y (place x y f).height
      (place (x + (place x y f).width + 1) y a).height
    have dropped := length_drops_le x (x + (place x y f).width + 1) y (place x y f).height
      (place (x + (place x y f).width + 1) y a).height
    simp only [place, joint_eq, List.length_append, List.length_cons, List.length_nil, size]
    omega

/-- At the origin, a subterm reaches above its own row as far as the abstractions around it,
and the stem of a free variable by one row. -/
theorem place_within {t : Term} {around : List String} (indexed : t.Indexed around) {s : Segment}
    (drawn : s ∈ (place 0 0 t).segments) :
    s.Within (2 * t.leaves - 1) (-1 - around.length) (t.depth - 1) := by
  have moved : s.translate 0 around.length ∈ (place 0 around.length t).segments := by
    have shifted := place_translate t 0 0 0 around.length
    rw [Int.zero_add, Int.zero_add] at shifted
    rw [shifted]
    exact List.mem_map_of_mem drawn
  rw [show (0 : Int) = 2 * ((0 : Nat) : Int) from rfl, place_eq t 0 indexed] at moved
  obtain ⟨site, member, line⟩ := List.mem_flatMap.mp moved
  obtain ⟨-, -, wide, deep⟩ := site_inside t member
  rw [Nat.zero_add] at wide
  have inside := drawing_within wide deep (by decide)
    (fun x _ _ _ => (stemTop_bounds x site.around).1) line
  simp only [Segment.Within, Segment.translate] at inside ⊢
  omega

theorem Segment.translateWithin_eq {s : Segment} {width top bottom dx dy : Int}
    (within : s.Within width top bottom) (wide : width ≤ 2 ^ 32) (high : -2 ^ 32 ≤ top)
    (deep : bottom ≤ 2 ^ 32) (right : 0 ≤ dx ∧ dx ≤ 2 ^ 32) (down : 0 ≤ dy ∧ dy ≤ 2 ^ 32) :
    s.translateWithin dx dy = some (s.translate dx dy) := by
  obtain ⟨⟨left1, right1⟩, ⟨left2, right2⟩, ⟨top1, bottom1⟩, top2, bottom2⟩ := within
  have x1 : signed? (s.x1 + dx) = some (s.x1 + dx) := signed?_eq_some (by omega) (by omega)
  have y1 : signed? (s.y1 + dy) = some (s.y1 + dy) := signed?_eq_some (by omega) (by omega)
  have x2 : signed? (s.x2 + dx) = some (s.x2 + dx) := signed?_eq_some (by omega) (by omega)
  have y2 : signed? (s.y2 + dy) = some (s.y2 + dy) := signed?_eq_some (by omega) (by omega)
  simp [translateWithin, translate, x1, y1, x2, y2]

/-- Moving the figure of a small term stays in the range. -/
theorem translateWithin_layout {t : Term} {around : List String} (indexed : t.Indexed around)
    (small : around.length + t.size ≤ 2 ^ 24) (dx dy : Int) (right : 0 ≤ dx ∧ dx ≤ 2 ^ 32)
    (down : 0 ≤ dy ∧ dy ≤ 2 ^ 32) :
    (layout t).translateWithin dx dy = some (place dx dy t).segments := by
  have shifted := place_translate t 0 0 dx dy
  rw [Int.zero_add, Int.zero_add] at shifted
  rw [shifted]
  have leaves := leaves_le_size t
  have depth := t.depth_le_size
  exact mapM_eq_some fun s drawn => Segment.translateWithin_eq (place_within indexed drawn)
    (by omega) (by omega) (by omega) right down

/-- The extent of a diagram and the number of its lines follow the size of the term. -/
theorem layout_bounds (t : Term) :
    (0 ≤ (layout t).width ∧ (layout t).width < 2 * t.size) ∧
      (0 ≤ (layout t).height ∧ (layout t).height < t.size) ∧
      (layout t).segments.length + 4 ≤ 5 * t.size := by
  have covered := t.leaves_pos
  have leaves := leaves_le_size t
  have depth := t.depth_le_size
  have root := t.depth_pos
  have width : (layout t).width = 2 * t.leaves - 1 := place_width t 0 0
  have height : (layout t).height = t.depth - 1 := place_height t 0 0
  exact ⟨by omega, by omega, place_length_le t 0 0⟩

theorem layout_abs (x : String) (binder : Option Binder) (body : Term) :
    layout (abs x binder body) =
      ⟨.horizontal 0 0 (layout body).width :: (place 0 1 body).segments, (layout body).width,
        (layout body).height + 1⟩ := by
  simp [layout, place, place_width, place_height]

theorem layout_app (f a : Term) :
    layout (app f a) =
      ⟨joint 0 ((layout f).width + 1) 0 (layout f).height (layout a).height ++
          (layout f).segments ++ (place ((layout f).width + 1) 0 a).segments,
        (layout f).width + (layout a).width + 1,
        max (layout f).height (layout a).height + 1⟩ := by
  simp [layout, place, place_width, place_height]

theorem reach_bounds {x : String} {index : Option Nat} {binder : Option Binder}
    {around : List String} (indexed : (var x index binder).Indexed around) :
    1 ≤ reach index ∧ reach index ≤ around.length + 1 := by
  have above := stemTop_bounds x around
  rw [stemTop_eq, ← show index = _ from indexed] at above
  cases index with
  | none =>
    rw [reach]
    omega
  | some i =>
    rw [reach] at above ⊢
    omega

theorem reachWithin_eq {index : Option Nat} (near : reach index ≤ 2 ^ 32) :
    reachWithin index = some (reach index) := by
  cases index with
  | none => rfl
  | some i =>
    rw [reach] at near
    have length : signed? i = some (i : Int) := signed?_eq_some (by omega) (by omega)
    have rows : signed? (i + 1) = some (i + 1 : Int) := signed?_eq_some (by omega) (by omega)
    rw [reachWithin, length, Option.bind_eq_bind, Option.bind_some, rows, reach]

/-- The figure of a small term can be drawn in words of 64 bits. -/
theorem layoutWithin_eq {bits : Nat} (wide : 32 ≤ bits) (t : Term) {around : List String}
    (indexed : t.Indexed around) (small : around.length + t.size ≤ 2 ^ 24) :
    layoutWithin bits t = some (layout t) := by
  induction t generalizing around with
  | var x index binder =>
    have near := reach_bounds indexed
    have rows : reachWithin index = some (reach index) := reachWithin_eq (by omega)
    have top : signed? (-reach index) = some (-reach index) :=
      signed?_eq_some (by omega) (by omega)
    simp only [layoutWithin, rows, top, Option.bind_eq_bind, Option.bind_some, layout, place,
      Int.zero_sub]
    rfl
  | abs x binder body ih =>
    have inside : body.Indexed (x :: around) := indexed
    have deeper : (x :: around).length + body.size ≤ 2 ^ 24 := by
      rw [size] at small
      rw [List.length_cons]
      omega
    have inner := ih inside deeper
    have moved := translateWithin_layout inside deeper 0 1 (by omega) (by omega)
    obtain ⟨-, tall, few⟩ := layout_bounds body
    have height : signed? ((layout body).height + 1) = some ((layout body).height + 1) :=
      signed?_eq_some (by omega) (by omega)
    have lines : unsigned? bits ((layout body).segments.length + 1) =
        some ((layout body).segments.length + 1) := unsigned?_eq_some wide (by omega)
    simp only [layoutWithin, inner, height, lines, moved, Option.bind_eq_bind, Option.bind_some,
      layout_abs]
    rfl
  | app f a ihf iha =>
    rw [size] at small
    have function := ihf indexed.1 (by omega)
    have argument := iha indexed.2 (by omega)
    obtain ⟨wide1, tall1, few1⟩ := layout_bounds f
    obtain ⟨wide2, tall2, few2⟩ := layout_bounds a
    have moved := translateWithin_layout indexed.2 (by omega) ((layout f).width + 1) 0 (by omega)
      (by omega)
    have column : signed? ((layout f).width + 1) = some ((layout f).width + 1) :=
      signed?_eq_some (by omega) (by omega)
    have lines : unsigned? bits ((layout f).segments.length + (layout a).segments.length) =
        some ((layout f).segments.length + (layout a).segments.length) :=
      unsigned?_eq_some wide (by omega)
    have room : unsigned? bits ((layout f).segments.length + (layout a).segments.length + 4) =
        some ((layout f).segments.length + (layout a).segments.length + 4) :=
      unsigned?_eq_some wide (by omega)
    have root1 : signed? ((layout f).height - 1) = some ((layout f).height - 1) :=
      signed?_eq_some (by omega) (by omega)
    have root2 : signed? ((layout a).height - 1) = some ((layout a).height - 1) :=
      signed?_eq_some (by omega) (by omega)
    have columns : signed? ((layout f).width + (layout a).width) =
        some ((layout f).width + (layout a).width) := signed?_eq_some (by omega) (by omega)
    have width : signed? ((layout f).width + (layout a).width + 1) =
        some ((layout f).width + (layout a).width + 1) := signed?_eq_some (by omega) (by omega)
    have height : signed? (max (layout f).height (layout a).height + 1) =
        some (max (layout f).height (layout a).height + 1) :=
      signed?_eq_some (by omega) (by omega)
    simp only [layoutWithin, function, argument, column, lines, room, root1, root2, moved,
      columns, width, height, Option.bind_eq_bind, Option.bind_some, layout_app]
    rfl

end Moving

section Documents

/-- A length of the figure in the document, if its multiple, the padding on both sides and
their sum fit. -/
def Style.extentWithin (style : Style) (length : Int) : Option Int := do
  let scaled ← signed? (length * style.unitSize)
  let padded ← signed? (style.padding * 2)
  signed? (scaled + padded)

def Segment.tagWithin (style : Style) (s : Segment) : Option Tag := do
  let x1 ← signed? (s.x1 * style.unitSize)
  let y1 ← signed? (s.y1 * style.unitSize)
  let x2 ← signed? (s.x2 * style.unitSize)
  let y2 ← signed? (s.y2 * style.unitSize)
  return .empty "line" (style.lineAttributes ⟨x1, y1, x2, y2⟩)

/-- The tags of a figure's document, if all lengths in it fit. -/
def Figure.tagsWithin (style : Style) (figure : Figure) : Option (List Tag) := do
  let width ← style.extentWithin figure.width
  let height ← style.extentWithin figure.height
  let lines ← figure.segments.mapM (·.tagWithin style)
  return style.document width height lines

def Figure.svgWithin (style : Style) (figure : Figure) : Option String := do
  let tags ← figure.tagsWithin style
  return String.join (tags.map Tag.text)

variable {style : Style}

theorem scaled_bounds (unit : style.unitSize < 2 ^ 32) {n : Int}
    (small : -2 ^ 26 ≤ n ∧ n ≤ 2 ^ 26) :
    -2 ^ 58 ≤ n * style.unitSize ∧ n * style.unitSize ≤ 2 ^ 58 := by
  have positive := Int.natCast_nonneg style.unitSize
  have lower := Int.mul_le_mul_of_nonneg_right small.1 positive
  have upper := Int.mul_le_mul_of_nonneg_right small.2 positive
  omega

theorem Style.extentWithin_eq (unit : style.unitSize < 2 ^ 32) (padding : style.padding < 2 ^ 32)
    {length : Int} (small : -2 ^ 26 ≤ length ∧ length ≤ 2 ^ 26) :
    style.extentWithin length = some (style.extent length) := by
  have product := scaled_bounds unit small
  have scaled : signed? (length * style.unitSize) = some (length * style.unitSize) :=
    signed?_eq_some (by omega) (by omega)
  have padded : signed? (style.padding * 2) = some (style.padding * 2 : Int) :=
    signed?_eq_some (by omega) (by omega)
  have total : signed? (length * style.unitSize + style.padding * 2) =
      some (length * style.unitSize + style.padding * 2) :=
    signed?_eq_some (by omega) (by omega)
  rw [extentWithin, extent, word_of_signed? scaled, word_of_signed? padded,
    word_of_signed? total, scaled, padded]
  exact total

theorem Segment.tagWithin_eq (unit : style.unitSize < 2 ^ 32) {s : Segment}
    {width top bottom : Int} (within : s.Within width top bottom) (wide : width ≤ 2 ^ 26)
    (high : -2 ^ 26 ≤ top) (deep : bottom ≤ 2 ^ 26) :
    s.tagWithin style = some (s.tag style) := by
  obtain ⟨across1, across2, along1, along2⟩ := within
  have product {n : Int} (small : -2 ^ 26 ≤ n ∧ n ≤ 2 ^ 26) :
      signed? (n * style.unitSize) = some (n * style.unitSize) := by
    have bounds := scaled_bounds unit small
    exact signed?_eq_some (by omega) (by omega)
  have x1 := product (n := s.x1) (by omega)
  have y1 := product (n := s.y1) (by omega)
  have x2 := product (n := s.x2) (by omega)
  have y2 := product (n := s.y2) (by omega)
  simp only [tagWithin, tag, drawn, x1, y1, x2, y2, word_of_signed? x1, word_of_signed? y1,
    word_of_signed? x2, word_of_signed? y2, Option.bind_eq_bind, Option.bind_some]
  rfl

/-- The document of a small term's figure can be written with lengths of 64 bits. -/
theorem svgWithin_layout (unit : style.unitSize < 2 ^ 32) (padding : style.padding < 2 ^ 32)
    {t : Term} (indexed : t.Indexed []) (small : t.size ≤ 2 ^ 24) :
    (layout t).svgWithin style = some ((layout t).svg style) := by
  obtain ⟨wide, tall, -⟩ := layout_bounds t
  have leaves := leaves_le_size t
  have depth := t.depth_le_size
  have width : style.extentWithin (layout t).width = some (style.extent (layout t).width) :=
    Style.extentWithin_eq unit padding (by omega)
  have height : style.extentWithin (layout t).height = some (style.extent (layout t).height) :=
    Style.extentWithin_eq unit padding (by omega)
  have lines : (layout t).segments.mapM (·.tagWithin style) =
      some ((layout t).segments.map (·.tag style)) :=
    mapM_eq_some fun s drawn => Segment.tagWithin_eq unit (place_within indexed drawn)
      (by omega) (by simp) (by omega)
  simp only [Figure.svgWithin, Figure.tagsWithin, width, height, lines, Option.bind_eq_bind,
    Option.bind_some]
  rfl

end Documents

/-- No arithmetic leaves its range on the way from a text to a document, whatever unit and
padding of 32 bits a style has. A number in a text that does not fit into a word of at least 32
bits is none that stands for a numeral. Resolved and drawn with a check at every step, of
counts in such words, of marks in 32 bits, and of lengths in 64 bits with a sign, the term that
is read comes out as it does without them, with numerals put in or without. -/
theorem drawing_in_range {source : String} {t : Term} (parsed : Term.parse source = .ok t)
    {style : Style} (unit : style.unitSize < 2 ^ 32) (padding : style.padding < 2 ^ 32)
    {bits : Nat} (wide : 32 ≤ bits) :
    numeralWithin? bits = numeralValue? ∧
    diagram source = .ok (layout t.expandNumerals.resolve) ∧
    ∀ u ∈ [t, t.expandNumerals],
      u.resolveWithin bits = some u.resolve ∧
      layoutWithin bits u.resolve = some (layout u.resolve) ∧
      (layout u.resolve).svgWithin style = some ((layout u.resolve).svg style) := by
  obtain ⟨short, bare⟩ := parsed_size_le parsed
  have drawn : diagram source = .ok (layout t.expandNumerals.resolve) := by
    rw [diagram, parsed]
    rfl
  refine ⟨numeralWithin?_eq wide, drawn, fun u member => ?_⟩
  have small : u.size ≤ 2 ^ 24 ∧ u.binders = [] := by
    have expanded := expandUnder_size_le t []
    rw [maxNumeral] at expanded
    rw [Token.maxLength] at short
    rcases List.mem_pair.mp member with rfl | rfl
    · exact ⟨by omega, bare⟩
    · exact ⟨by rw [expandNumerals]; omega, expandUnder_binders bare []⟩
  have same := u.size_resolve
  refine ⟨resolveWithin_eq wide small.2 (by omega), ?_, ?_⟩
  · exact layoutWithin_eq wide u.resolve u.resolve_indexed (by rw [List.length_nil]; omega)
  · exact svgWithin_layout unit padding u.resolve_indexed (by omega)

/-- The largest unit and padding of 32 bits. -/
def widest : Style := { unitSize := 2 ^ 32 - 1, padding := 2 ^ 32 - 1 }

theorem widest_in_range :
    Term.parse "λx.x 2" = .ok (lam "x" (app (name "x") (name "2"))) ∧
    widest.unitSize < 2 ^ 32 ∧ widest.padding < 2 ^ 32 ∧
    (lam "x" (app (name "x") (name "2"))).expandNumerals = lam "x" (app (name "x") (numeral 2)) ∧
    layoutWithin 32 (lam "x" (app (name "x") (numeral 2))).resolve =
      some (layout (lam "x" (app (name "x") (numeral 2))).resolve) ∧
    (layout (lam "x" (app (name "x") (numeral 2))).resolve).svgWithin widest =
      some ((layout (lam "x" (app (name "x") (numeral 2))).resolve).svg widest) := by
  have parsed : Term.parse "λx.x 2" = .ok (lam "x" (app (name "x") (name "2"))) := by
    decide +kernel
  have unit : widest.unitSize < 2 ^ 32 := by decide
  have padding : widest.padding < 2 ^ 32 := by decide
  have expanded : (lam "x" (app (name "x") (name "2"))).expandNumerals =
      lam "x" (app (name "x") (numeral 2)) := by decide +kernel
  obtain ⟨-, -, each⟩ := drawing_in_range parsed unit padding (Nat.le_refl 32)
  obtain ⟨-, drawn, written⟩ := each _ (List.mem_cons_of_mem _ List.mem_cons_self)
  rw [expanded] at drawn written
  exact ⟨parsed, unit, padding, expanded, drawn, written⟩

end ChurchScript.Diagram
