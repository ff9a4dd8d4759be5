import Mathlib.Algebra.Order.Ring.Int
import Mathlib.Data.Finset.Card
import ChurchScript.Diagram.Picture
import ChurchScript.Proofs.Diagram.CanvasText

/-!
# The picture of a list of lines by ranks

A line that runs along an axis is kept. Its ends go to the columns and rows of their ranks
among all widths and heights kept, every other column being left for the glyphs between. A
cell shows whether level lines, upright lines or both cover it (`raster`). Nothing in this
depends on the order of the lines, on how often one occurs or on which end comes first.
Painting the lines one after the other comes to the same picture (`paint_eq_raster`).
-/
namespace ChurchScript.Diagram

section Ranks

variable {ns : Finset Int} {a b : Int}

/-- The number of smaller members. -/
def rank (ns : Finset Int) (n : Int) : Nat := (ns.filter (· < n)).card

theorem rank_le_rank (ns : Finset Int) (le : a ≤ b) : rank ns a ≤ rank ns b :=
  Finset.card_le_card (Finset.monotone_filter_right ns fun _ _ below => lt_of_lt_of_le below le)

theorem rank_lt_rank (member : a ∈ ns) (lt : a < b) : rank ns a < rank ns b := by
  refine Finset.card_lt_card ⟨Finset.monotone_filter_right ns fun _ _ below => below.trans lt, ?_⟩
  intro subset
  have own := subset (Finset.mem_filter.mpr ⟨member, lt⟩)
  exact lt_irrefl a (Finset.mem_filter.mp own).2

theorem rank_le_iff (member : b ∈ ns) : rank ns a ≤ rank ns b ↔ a ≤ b :=
  ⟨fun le => not_lt.mp fun lt => absurd (rank_lt_rank member lt) (not_lt.mpr le), rank_le_rank ns⟩

theorem rank_inj (member : a ∈ ns) (member' : b ∈ ns) (same : rank ns a = rank ns b) : a = b :=
  le_antisymm ((rank_le_iff member').mp same.le) ((rank_le_iff member).mp same.ge)

theorem rank_lt_card (member : a ∈ ns) : rank ns a < ns.card :=
  Finset.card_lt_card (Finset.filter_ssubset.mpr ⟨a, member, lt_irrefl a⟩)

/-- A rank stays when all numbers are multiplied by a positive one. -/
theorem rank_image_mul {u : Int} (positive : 0 < u) (ns : Finset Int) (n : Int) :
    rank (ns.image (· * u)) (n * u) = rank ns n := by
  have injective : Function.Injective (· * u) :=
    fun _ _ same => Int.eq_of_mul_eq_mul_right positive.ne' same
  rw [rank, rank, Finset.filter_image, Finset.card_image_of_injective _ injective]
  congr 1
  exact Finset.filter_congr fun m _ => Int.mul_lt_mul_right positive

/-- In an increasing list a member stands behind those that are smaller. -/
theorem idxOf_eq_rank {l : List Int} (increasing : l.Pairwise (· < ·)) (member : a ∈ l) :
    l.idxOf a = rank l.toFinset a := by
  induction l with
  | nil => cases member
  | cons n rest ih =>
    obtain ⟨first, others⟩ := List.pairwise_cons.mp increasing
    have apart : n ∉ rest.toFinset :=
      fun twice => lt_irrefl n (first n (List.mem_toFinset.mp twice))
    by_cases here : n = a
    · subst here
      have none : ((insert n rest.toFinset).filter (· < n)) = ∅ := by
        refine Finset.filter_eq_empty_iff.mpr fun m inside => not_lt.mpr ?_
        rcases Finset.mem_insert.mp inside with rfl | later
        · exact le_refl m
        · exact (first m (List.mem_toFinset.mp later)).le
      rw [List.idxOf_cons_self, rank, List.toFinset_cons, none, Finset.card_empty]
    · have later : a ∈ rest := (List.mem_cons.mp member).resolve_left (Ne.symm here)
      rw [List.idxOf_cons_ne _ here, ih others later, rank, rank, List.toFinset_cons,
        Finset.filter_insert, if_pos (first a later), Finset.card_insert_of_notMem]
      exact fun inside => apart (Finset.mem_of_mem_filter n inside)

end Ranks

section Distinct

theorem eraseReps_loop {a : Int} {rest earlier : List Int} (sorted : (a :: rest).Pairwise (· ≤ ·))
    (descending : earlier.Pairwise (· > ·)) (below : ∀ b ∈ earlier, b < a) :
    (List.eraseRepsBy.loop (· == ·) a rest earlier).Pairwise (· < ·) ∧
      ∀ x, x ∈ List.eraseRepsBy.loop (· == ·) a rest earlier ↔ x ∈ earlier ∨ x = a ∨ x ∈ rest := by
  induction rest generalizing a earlier with
  | nil =>
    have further : (a :: earlier).Pairwise (· > ·) := List.pairwise_cons.mpr ⟨below, descending⟩
    exact ⟨List.pairwise_reverse.mpr further, fun x => by simp [List.eraseRepsBy.loop, or_comm]⟩
  | cons b rest ih =>
    obtain ⟨least, others⟩ := List.pairwise_cons.mp sorted
    by_cases same : a = b
    · subst same
      obtain ⟨increasing, members⟩ := ih others descending below
      simp only [List.eraseRepsBy.loop, beq_self_eq_true]
      refine ⟨increasing, fun x => (members x).trans ?_⟩
      simp
    · have lt : a < b := lt_of_le_of_ne (least b List.mem_cons_self) same
      have further : (a :: earlier).Pairwise (· > ·) := List.pairwise_cons.mpr ⟨below, descending⟩
      have smaller : ∀ c ∈ a :: earlier, c < b := by
        intro c member
        rcases List.mem_cons.mp member with rfl | before
        · exact lt
        · exact (below c before).trans lt
      obtain ⟨increasing, members⟩ := ih others further smaller
      simp only [List.eraseRepsBy.loop, beq_false_of_ne same]
      refine ⟨increasing, fun x => (members x).trans ?_⟩
      simp only [List.mem_cons]
      tauto

theorem distinct_spec (ns : List Int) :
    (Picture.distinct ns).Pairwise (· < ·) ∧ ∀ n, n ∈ Picture.distinct ns ↔ n ∈ ns := by
  have sorted : ns.mergeSort.Pairwise (· ≤ ·) := by
    have ordered := @List.pairwise_mergeSort Int (fun a b => decide (a ≤ b))
      (fun a b c => by simpa using Int.le_trans) (fun a b => by simpa using Int.le_total a b) ns
    simpa only [decide_eq_true_eq] using ordered
  have members : ∀ n, n ∈ ns.mergeSort ↔ n ∈ ns := fun n => (List.mergeSort_perm ns _).mem_iff
  unfold Picture.distinct List.eraseReps
  cases shape : ns.mergeSort with
  | nil =>
    rw [shape] at members
    exact ⟨List.Pairwise.nil, members⟩
  | cons a rest =>
    rw [shape] at sorted members
    obtain ⟨increasing, same⟩ := eraseReps_loop sorted List.Pairwise.nil (by simp)
    refine ⟨increasing, fun n => (same n).trans ?_⟩
    rw [← members n]
    simp

end Distinct

namespace Segment

/-- Level segments go from left to right, and all others that stay in their column up or down. -/
def isUpright (s : Segment) : Bool := !s.isHorizontal && s.isVertical

/-- The same points, from the other end. -/
def reverse (s : Segment) : Segment := ⟨s.x2, s.y2, s.x1, s.y1⟩

def scale (u : Int) (s : Segment) : Segment := ⟨s.x1 * u, s.y1 * u, s.x2 * u, s.y2 * u⟩

def isKept (s : Segment) : Bool := s.isHorizontal || s.isUpright

/-- The stroke of a segment. -/
def stroke? (s : Segment) : Option Stroke :=
  if s.isHorizontal then some (.horizontal ⟨s.y1, min s.x1 s.x2, max s.x1 s.x2⟩)
  else if s.isVertical then some (.vertical ⟨s.x1, min s.y1 s.y2, max s.y1 s.y2⟩)
  else none

/-- Whether a point lies between the ends of the segment. -/
def Covers (s : Segment) (point : Int × Int) : Prop :=
  (min s.x1 s.x2 ≤ point.1 ∧ point.1 ≤ max s.x1 s.x2) ∧
    min s.y1 s.y2 ≤ point.2 ∧ point.2 ≤ max s.y1 s.y2

instance (s : Segment) (point : Int × Int) : Decidable (s.Covers point) :=
  inferInstanceAs (Decidable ((_ ∧ _) ∧ _ ∧ _))

end Segment

section Spec

variable (segments : List Segment)

/-- What two coordinates are in the kept segments. -/
def keptEnds (first second : Segment → Int) : Finset Int :=
  ((segments.filter Segment.isKept).flatMap fun s => [first s, second s]).toFinset

/-- The widths that the kept segments start, end or stand at. -/
def keptWidths : Finset Int := keptEnds segments Segment.x1 Segment.x2

def keptHeights : Finset Int := keptEnds segments Segment.y1 Segment.y2

def rasterColumn (x : Int) : Nat := 2 * rank (keptWidths segments) x

def rasterRow (y : Int) : Nat := rank (keptHeights segments) y

/-- Whether a level segment covers the cell. -/
def Across (col row : Nat) : Prop :=
  ∃ s ∈ segments, s.isHorizontal = true ∧ row = rasterRow segments s.y1 ∧
    rasterColumn segments (min s.x1 s.x2) ≤ col ∧ col ≤ rasterColumn segments (max s.x1 s.x2)

/-- Whether an upright segment covers the cell. -/
def Down (col row : Nat) : Prop :=
  ∃ s ∈ segments, s.isUpright = true ∧ col = rasterColumn segments s.x1 ∧
    rasterRow segments (min s.y1 s.y2) ≤ row ∧ row ≤ rasterRow segments (max s.y1 s.y2)

instance (col row : Nat) : Decidable (Across segments col row) :=
  inferInstanceAs (Decidable (∃ _ ∈ segments, _))

instance (col row : Nat) : Decidable (Down segments col row) :=
  inferInstanceAs (Decidable (∃ _ ∈ segments, _))

def rasterCell (glyphs : Glyphs) (col row : Nat) : Char :=
  if Across segments col row then
    if Down segments col row then glyphs.cross else glyphs.horizontal
  else if Down segments col row then glyphs.vertical else ' '

/-- The picture of the segments by ranks. -/
def raster (glyphs : Glyphs) : Canvas :=
  .tabulate (2 * (keptWidths segments).card + 1) ((keptHeights segments).card + 1)
    (rasterCell segments glyphs)

/-- The points where a level segment meets an upright one. -/
def meetings : Finset (Int × Int) :=
  (segments.flatMap fun s => (segments.filter fun t =>
    s.isHorizontal && t.isUpright && decide (s.Covers (t.x1, s.y1) ∧ t.Covers (t.x1, s.y1))).map
      fun t => (t.x1, s.y1)).toFinset

end Spec

/-- The picture whose strokes are those of the segments. -/
def Picture.ofSegments (segments : List Segment) : Picture :=
  .ofStrokes (segments.filterMap Segment.stroke?)

/-- The canvas with the uprights alone, on the picture's own grid. -/
def Picture.stems (picture : Picture) (glyphs : Glyphs) : Canvas :=
  picture.uprights picture.grid glyphs

section Members

variable {segments : List Segment}

theorem mem_keptEnds {first second : Segment → Int} {n : Int} :
    n ∈ keptEnds segments first second ↔
      ∃ s ∈ segments, s.isKept = true ∧ (n = first s ∨ n = second s) := by
  simp [keptEnds, and_assoc]

theorem mem_keptWidths {x : Int} :
    x ∈ keptWidths segments ↔ ∃ s ∈ segments, s.isKept = true ∧ (x = s.x1 ∨ x = s.x2) :=
  mem_keptEnds

theorem mem_keptHeights {y : Int} :
    y ∈ keptHeights segments ↔ ∃ s ∈ segments, s.isKept = true ∧ (y = s.y1 ∨ y = s.y2) :=
  mem_keptEnds

theorem mem_meetings {point : Int × Int} :
    point ∈ meetings segments ↔ ∃ s ∈ segments, ∃ t ∈ segments, s.isHorizontal = true ∧
      t.isUpright = true ∧ point = (t.x1, s.y1) ∧ s.Covers point ∧ t.Covers point := by
  simp only [meetings, List.mem_toFinset, List.mem_flatMap, List.mem_map, List.mem_filter,
    Bool.and_eq_true, decide_eq_true_eq]
  constructor
  · rintro ⟨s, inside, t, ⟨inside', ⟨level, upright⟩, covers⟩, rfl⟩
    exact ⟨s, inside, t, inside', level, upright, rfl, covers⟩
  · rintro ⟨s, inside, t, inside', level, upright, rfl, covers⟩
    exact ⟨s, inside, t, ⟨inside', ⟨level, upright⟩, covers⟩, rfl⟩

theorem isKept_of_isHorizontal {s : Segment} (level : s.isHorizontal = true) : s.isKept = true := by
  simp [Segment.isKept, level]

theorem isKept_of_isUpright {s : Segment} (upright : s.isUpright = true) : s.isKept = true := by
  simp [Segment.isKept, upright]

theorem x2_eq_of_isUpright {s : Segment} (upright : s.isUpright = true) : s.x2 = s.x1 := by
  simp only [Segment.isUpright, Segment.isVertical, Bool.and_eq_true, beq_iff_eq] at upright
  exact upright.2.symm

theorem y2_eq_of_isHorizontal {s : Segment} (level : s.isHorizontal = true) : s.y2 = s.y1 := by
  simp only [Segment.isHorizontal, beq_iff_eq] at level
  exact level.symm

/-- The lesser and the greater of two numbers are among them. -/
theorem min_max_mem {ns : Finset Int} {a b : Int} (left : a ∈ ns) (right : b ∈ ns) :
    min a b ∈ ns ∧ max a b ∈ ns := by
  rcases le_total a b with le | le <;> simp [le, left, right]

/-- Both ends of a kept segment count for the widths and the heights. -/
theorem ends_kept {s : Segment} (inside : s ∈ segments) (kept : s.isKept = true) :
    (min s.x1 s.x2 ∈ keptWidths segments ∧ max s.x1 s.x2 ∈ keptWidths segments) ∧
      min s.y1 s.y2 ∈ keptHeights segments ∧ max s.y1 s.y2 ∈ keptHeights segments :=
  ⟨min_max_mem (mem_keptWidths.mpr ⟨s, inside, kept, .inl rfl⟩)
      (mem_keptWidths.mpr ⟨s, inside, kept, .inr rfl⟩),
    min_max_mem (mem_keptHeights.mpr ⟨s, inside, kept, .inl rfl⟩)
      (mem_keptHeights.mpr ⟨s, inside, kept, .inr rfl⟩)⟩

theorem mem_horizontals {span : Span} :
    span ∈ (Picture.ofSegments segments).horizontals ↔ ∃ s ∈ segments, s.isHorizontal = true ∧
      span = ⟨s.y1, min s.x1 s.x2, max s.x1 s.x2⟩ := by
  simp only [Picture.ofSegments, Picture.ofStrokes, List.mem_filterMap]
  constructor
  · rintro ⟨stroke, ⟨s, inside, made⟩, shape⟩
    refine ⟨s, inside, ?_⟩
    unfold Segment.stroke? at made
    split at made
    · cases made
      cases shape
      exact ⟨‹_›, rfl⟩
    · split at made <;> cases made
      cases shape
  · rintro ⟨s, inside, level, rfl⟩
    exact ⟨_, ⟨s, inside, if_pos level⟩, rfl⟩

theorem mem_verticals {span : Span} :
    span ∈ (Picture.ofSegments segments).verticals ↔ ∃ s ∈ segments, s.isUpright = true ∧
      span = ⟨s.x1, min s.y1 s.y2, max s.y1 s.y2⟩ := by
  simp only [Picture.ofSegments, Picture.ofStrokes, List.mem_filterMap]
  constructor
  · rintro ⟨stroke, ⟨s, inside, made⟩, shape⟩
    refine ⟨s, inside, ?_⟩
    unfold Segment.stroke? at made
    split at made
    · cases made
      cases shape
    · split at made <;> cases made
      cases shape
      exact ⟨by simp_all [Segment.isUpright], rfl⟩
  · rintro ⟨s, inside, upright, rfl⟩
    simp only [Segment.isUpright, Bool.and_eq_true, Bool.not_eq_true'] at upright
    have made : s.stroke? = some (.vertical ⟨s.x1, min s.y1 s.y2, max s.y1 s.y2⟩) := by
      simp [Segment.stroke?, upright]
    exact ⟨_, ⟨s, inside, made⟩, rfl⟩

theorem mem_grid_xs {x : Int} :
    x ∈ (Picture.ofSegments segments).grid.xs ↔ x ∈ keptWidths segments := by
  simp only [Picture.grid, (distinct_spec _).2, List.mem_append, List.mem_map, List.mem_flatMap,
    mem_verticals, mem_horizontals, mem_keptWidths, List.mem_cons, List.not_mem_nil, or_false]
  constructor
  · rintro (⟨_, ⟨s, inside, upright, rfl⟩, rfl⟩ | ⟨_, ⟨s, inside, level, rfl⟩, either⟩)
    · exact ⟨s, inside, isKept_of_isUpright upright, .inl rfl⟩
    · refine ⟨s, inside, isKept_of_isHorizontal level, ?_⟩
      dsimp only at either
      omega
  · rintro ⟨s, inside, kept, either⟩
    rcases Bool.or_eq_true _ _ ▸ kept with level | upright
    · refine .inr ⟨_, ⟨s, inside, level, rfl⟩, ?_⟩
      dsimp only
      omega
    · refine .inl ⟨_, ⟨s, inside, upright, rfl⟩, ?_⟩
      have same := x2_eq_of_isUpright upright
      dsimp only
      omega

theorem mem_grid_ys {y : Int} :
    y ∈ (Picture.ofSegments segments).grid.ys ↔ y ∈ keptHeights segments := by
  simp only [Picture.grid, (distinct_spec _).2, List.mem_append, List.mem_map, List.mem_flatMap,
    mem_verticals, mem_horizontals, mem_keptHeights, List.mem_cons, List.not_mem_nil, or_false]
  constructor
  · rintro (⟨_, ⟨s, inside, level, rfl⟩, rfl⟩ | ⟨_, ⟨s, inside, upright, rfl⟩, either⟩)
    · exact ⟨s, inside, isKept_of_isHorizontal level, .inl rfl⟩
    · refine ⟨s, inside, isKept_of_isUpright upright, ?_⟩
      dsimp only at either
      omega
  · rintro ⟨s, inside, kept, either⟩
    rcases Bool.or_eq_true _ _ ▸ kept with level | upright
    · refine .inl ⟨_, ⟨s, inside, level, rfl⟩, ?_⟩
      have same := y2_eq_of_isHorizontal level
      dsimp only
      omega
    · refine .inr ⟨_, ⟨s, inside, upright, rfl⟩, ?_⟩
      dsimp only
      omega

end Members

section Painting

variable {segments : List Segment}

/-- A listing of a set in increasing order places each member by its rank. -/
theorem idxOf_of_increasing {l : List Int} {ns : Finset Int} {n : Int}
    (increasing : l.Pairwise (· < ·)) (members : ∀ n, n ∈ l ↔ n ∈ ns) (member : n ∈ ns) :
    l.idxOf n = rank ns n := by
  have same : l.toFinset = ns := Finset.ext fun n => List.mem_toFinset.trans (members n)
  rw [idxOf_eq_rank increasing ((members n).mpr member), same]

theorem length_of_increasing {l : List Int} {ns : Finset Int}
    (increasing : l.Pairwise (· < ·)) (members : ∀ n, n ∈ l ↔ n ∈ ns) : l.length = ns.card := by
  have same : l.toFinset = ns := Finset.ext fun n => List.mem_toFinset.trans (members n)
  rw [← same, List.toFinset_card_of_nodup (increasing.imp fun lt => lt.ne)]

/-- The ranks number a set from its smallest member on. -/
theorem exists_ranking (ns : Finset Int) : ∃ listing : List Int, listing.Pairwise (· < ·) ∧
    listing.toFinset = ns ∧ ∀ i (bound : i < listing.length), rank ns listing[i] = i := by
  obtain ⟨increasing, members⟩ := distinct_spec ns.toList
  have same : (Picture.distinct ns.toList).toFinset = ns := by
    ext n
    rw [List.mem_toFinset, members, Finset.mem_toList]
  refine ⟨_, increasing, same, fun i bound => ?_⟩
  have nodup : (Picture.distinct ns.toList).Nodup := increasing.imp fun lt => lt.ne
  calc rank ns (Picture.distinct ns.toList)[i]
      = rank (Picture.distinct ns.toList).toFinset (Picture.distinct ns.toList)[i] := by rw [same]
    _ = (Picture.distinct ns.toList).idxOf (Picture.distinct ns.toList)[i] :=
        (idxOf_eq_rank increasing (List.getElem_mem bound)).symm
    _ = i := nodup.idxOf_getElem i bound

theorem grid_xs_increasing (picture : Picture) : picture.grid.xs.Pairwise (· < ·) :=
  (distinct_spec _).1

theorem grid_ys_increasing (picture : Picture) : picture.grid.ys.Pairwise (· < ·) :=
  (distinct_spec _).1

theorem grid_column {x : Int} (kept : x ∈ keptWidths segments) :
    (Picture.ofSegments segments).grid.column x = rasterColumn segments x :=
  congrArg (2 * ·) (idxOf_of_increasing (grid_xs_increasing _) (fun _ => mem_grid_xs) kept)

theorem grid_row {y : Int} (kept : y ∈ keptHeights segments) :
    (Picture.ofSegments segments).grid.row y = rasterRow segments y :=
  idxOf_of_increasing (grid_ys_increasing _) (fun _ => mem_grid_ys) kept

theorem grid_blank : (Picture.ofSegments segments).grid.blank =
    .blank (2 * (keptWidths segments).card + 1) ((keptHeights segments).card + 1) := by
  rw [Grid.blank, length_of_increasing (grid_xs_increasing _) fun _ => mem_grid_xs,
    length_of_increasing (grid_ys_increasing _) fun _ => mem_grid_ys]

theorem rasterColumn_le (a b : Int) :
    rasterColumn segments (min a b) ≤ rasterColumn segments (max a b) :=
  Nat.mul_le_mul_left 2 (rank_le_rank _ (min_le_max))

theorem rasterRow_le (a b : Int) : rasterRow segments (min a b) ≤ rasterRow segments (max a b) :=
  rank_le_rank _ min_le_max

/-- The uprights of a picture cover the cells between their ends. -/
theorem stems_paints (picture : Picture) (glyphs : Glyphs) :
    Canvas.Paints picture.grid.blank (picture.stems glyphs)
      (fun col row => ∃ span ∈ picture.verticals, col = picture.grid.column span.level ∧
        min (picture.grid.row span.low) (picture.grid.row span.high) ≤ row ∧
        row ≤ max (picture.grid.row span.low) (picture.grid.row span.high))
      fun _ _ => glyphs.vertical :=
  Canvas.Paints.foldl (fun canvas (span : Span) =>
    Canvas.paintColumn_paints canvas (picture.grid.column span.level)
      (picture.grid.row span.low) (picture.grid.row span.high) glyphs)
    picture.verticals picture.grid.blank

/-- The uprights cover what the upright segments do. -/
theorem uprights_paints (segments : List Segment) (glyphs : Glyphs) :
    Canvas.Paints (Picture.ofSegments segments).grid.blank
      ((Picture.ofSegments segments).stems glyphs) (Down segments) fun _ _ => glyphs.vertical := by
  refine (stems_paints (.ofSegments segments) glyphs).congr fun col _ row _ => ?_
  simp only [mem_verticals, Down]
  constructor
  · rintro ⟨_, ⟨s, inside, upright, rfl⟩, here, low, high⟩
    obtain ⟨⟨left, -⟩, bottom, top⟩ := ends_kept inside (isKept_of_isUpright upright)
    rw [x2_eq_of_isUpright upright, min_self] at left
    rw [grid_row bottom, grid_row top] at low high
    rw [min_eq_left (rasterRow_le _ _)] at low
    rw [max_eq_right (rasterRow_le _ _)] at high
    exact ⟨s, inside, upright, here.trans (grid_column left), low, high⟩
  · rintro ⟨s, inside, upright, here, low, high⟩
    obtain ⟨⟨left, -⟩, bottom, top⟩ := ends_kept inside (isKept_of_isUpright upright)
    rw [x2_eq_of_isUpright upright, min_self] at left
    refine ⟨_, ⟨s, inside, upright, rfl⟩, here.trans (grid_column left).symm, ?_⟩
    rw [grid_row bottom, grid_row top, min_eq_left (rasterRow_le _ _),
      max_eq_right (rasterRow_le _ _)]
    exact ⟨low, high⟩

/-- A cell of the uprights holds the vertical glyph where an upright segment covers it. -/
theorem uprights_get (glyphs : Glyphs) (visible : glyphs.vertical ≠ ' ') {col row : Nat}
    (left : col < 2 * (keptWidths segments).card + 1)
    (above : row < (keptHeights segments).card + 1) :
    (((Picture.ofSegments segments).stems glyphs).get col row ==
      glyphs.vertical) = decide (Down segments col row) := by
  have painted := uprights_paints segments glyphs
  rw [grid_blank] at painted
  by_cases down : Down segments col row
  · simp [painted.covered col row down left above, down]
  · simp [painted.bare col row down, Canvas.get_blank, visible.symm, down]

/-- The level strokes cover what the level segments do. -/
theorem paint_paints (segments : List Segment) (glyphs : Glyphs) :
    Canvas.Paints ((Picture.ofSegments segments).stems glyphs)
      ((Picture.ofSegments segments).paint glyphs) (Across segments) fun col row =>
        if ((Picture.ofSegments segments).stems glyphs).get col row == glyphs.vertical then
          glyphs.cross else glyphs.horizontal := by
  have painted := Canvas.Paints.foldl (fun canvas (span : Span) =>
    Canvas.paintRow_paints canvas ((Picture.ofSegments segments).grid.row span.level)
      ((Picture.ofSegments segments).grid.column span.low)
      ((Picture.ofSegments segments).grid.column span.high) glyphs fun col row =>
        ((Picture.ofSegments segments).stems glyphs).get col row == glyphs.vertical)
    (Picture.ofSegments segments).horizontals ((Picture.ofSegments segments).stems glyphs)
  refine painted.congr fun col _ row _ => ?_
  simp only [mem_horizontals, Across]
  constructor
  · rintro ⟨_, ⟨s, inside, level, rfl⟩, here, low, high⟩
    obtain ⟨⟨left, right⟩, bottom, -⟩ := ends_kept inside (isKept_of_isHorizontal level)
    rw [y2_eq_of_isHorizontal level, min_self] at bottom
    rw [grid_column left, grid_column right] at low high
    rw [min_eq_left (rasterColumn_le _ _)] at low
    rw [max_eq_right (rasterColumn_le _ _)] at high
    exact ⟨s, inside, level, here.trans (grid_row bottom), low, high⟩
  · rintro ⟨s, inside, level, here, low, high⟩
    obtain ⟨⟨left, right⟩, bottom, -⟩ := ends_kept inside (isKept_of_isHorizontal level)
    rw [y2_eq_of_isHorizontal level, min_self] at bottom
    refine ⟨_, ⟨s, inside, level, rfl⟩, here.trans (grid_row bottom).symm, ?_⟩
    rw [grid_column left, grid_column right, min_eq_left (rasterColumn_le _ _),
      max_eq_right (rasterColumn_le _ _)]
    exact ⟨low, high⟩

/-- Painting the segments one by one gives their picture by ranks. -/
theorem paint_eq_raster (segments : List Segment) {glyphs : Glyphs}
    (visible : glyphs.vertical ≠ ' ') :
    (Picture.ofSegments segments).paint glyphs = raster segments glyphs := by
  have uprights := uprights_paints segments glyphs
  have painted := paint_paints segments glyphs
  rw [grid_blank] at uprights
  have width := painted.width.trans uprights.width
  have height := painted.height.trans uprights.height
  refine Canvas.ext_get width height fun col left row above => ?_
  rw [width] at left
  rw [height] at above
  have cell : (raster segments glyphs).get col row = rasterCell segments glyphs col row :=
    Canvas.get_tabulate _ ⟨left, above⟩
  rw [cell, rasterCell]
  by_cases across : Across segments col row
  · rw [painted.covered col row across (uprights.width.symm ▸ left) (uprights.height.symm ▸ above),
      uprights_get glyphs visible left above]
    simp only [across, if_true, decide_eq_true_eq]
  · rw [painted.bare col row across]
    by_cases down : Down segments col row
    · simp [uprights.covered col row down left above, across, down]
    · simp [uprights.bare col row down, Canvas.get_blank, across, down]

end Painting

section OnGrid

/-- Whether a grid has the width and the height of a point, which then lies on its canvas. -/
def Grid.Holds (grid : Grid) (x y : Int) : Prop :=
  (x ∈ grid.xs ∧ grid.column x < grid.blank.width) ∧ y ∈ grid.ys ∧ grid.row y < grid.blank.height

theorem Grid.holds_of_mem {grid : Grid} {x y : Int} (width : x ∈ grid.xs) (height : y ∈ grid.ys) :
    grid.Holds x y := by
  have col := List.idxOf_lt_length_of_mem width
  have row := List.idxOf_lt_length_of_mem height
  refine ⟨⟨width, ?_⟩, height, ?_⟩
  · change 2 * grid.xs.idxOf x < 2 * grid.xs.length + 1
    omega
  · change grid.ys.idxOf y < grid.ys.length + 1
    omega

/-- Whether the ends of all strokes are looked up and found, on the canvas. -/
def Picture.OnGrid (picture : Picture) : Prop :=
  (∀ span ∈ picture.horizontals,
    picture.grid.Holds span.low span.level ∧ picture.grid.Holds span.high span.level) ∧
  ∀ span ∈ picture.verticals,
    picture.grid.Holds span.level span.low ∧ picture.grid.Holds span.level span.high

theorem Picture.onGrid (picture : Picture) : picture.OnGrid := by
  constructor
  · intro span inside
    have level : span.level ∈ picture.grid.ys := (distinct_spec _).2 _ |>.mpr
      (List.mem_append_left _ (List.mem_map_of_mem inside))
    have ends : ∀ x ∈ [span.low, span.high], x ∈ picture.grid.xs := fun x here =>
      (distinct_spec _).2 _ |>.mpr
        (List.mem_append_right _ (List.mem_flatMap.mpr ⟨span, inside, here⟩))
    exact ⟨Grid.holds_of_mem (ends _ (by simp)) level, Grid.holds_of_mem (ends _ (by simp)) level⟩
  · intro span inside
    have level : span.level ∈ picture.grid.xs := (distinct_spec _).2 _ |>.mpr
      (List.mem_append_left _ (List.mem_map_of_mem inside))
    have ends : ∀ y ∈ [span.low, span.high], y ∈ picture.grid.ys := fun y here =>
      (distinct_spec _).2 _ |>.mpr
        (List.mem_append_right _ (List.mem_flatMap.mpr ⟨span, inside, here⟩))
    exact ⟨Grid.holds_of_mem level (ends _ (by simp)), Grid.holds_of_mem level (ends _ (by simp))⟩

end OnGrid

section Invariance

variable {segments others : List Segment}

/-- Whether two lists hold the same segments, in whatever order, number and direction. -/
def SameLines (segments others : List Segment) : Prop :=
  ∀ s, (s ∈ segments ∨ s.reverse ∈ segments) ↔ (s ∈ others ∨ s.reverse ∈ others)

theorem SameLines.symm (same : SameLines segments others) : SameLines others segments :=
  fun s => (same s).symm

theorem SameLines.exists_of {P : Segment → Prop} (same : SameLines segments others)
    (either : ∀ s, P s → P s.reverse) (found : ∃ s ∈ segments, P s) : ∃ s ∈ others, P s := by
  obtain ⟨s, inside, holds⟩ := found
  rcases (same s).mp (.inl inside) with there | turned
  · exact ⟨s, there, holds⟩
  · exact ⟨s.reverse, turned, either s holds⟩

theorem SameLines.exists_iff {P : Segment → Prop} (same : SameLines segments others)
    (either : ∀ s, P s → P s.reverse) : (∃ s ∈ segments, P s) ↔ ∃ s ∈ others, P s :=
  ⟨same.exists_of either, same.symm.exists_of either⟩

theorem SameLines.raster_eq (same : SameLines segments others) (glyphs : Glyphs) :
    raster segments glyphs = raster others glyphs := by
  have turned : ∀ s : Segment, s.reverse.isHorizontal = s.isHorizontal ∧
      s.reverse.isUpright = s.isUpright ∧ s.reverse.isKept = s.isKept := by
    intro s
    simp [Segment.isKept, Segment.isUpright, Segment.isHorizontal, Segment.isVertical,
      Segment.reverse, Bool.beq_comm]
  have widths : keptWidths segments = keptWidths others := by
    ext x
    rw [mem_keptWidths, mem_keptWidths]
    exact same.exists_iff fun s holds => ⟨(turned s).2.2.trans holds.1, holds.2.symm⟩
  have heights : keptHeights segments = keptHeights others := by
    ext y
    rw [mem_keptHeights, mem_keptHeights]
    exact same.exists_iff fun s holds => ⟨(turned s).2.2.trans holds.1, holds.2.symm⟩
  have across : ∀ col row, Across segments col row ↔ Across others col row := by
    intro col row
    simp only [Across, rasterColumn, rasterRow, widths, heights]
    refine same.exists_iff fun s ⟨level, here, low, high⟩ => ⟨(turned s).1.trans level, ?_⟩
    simp only [Segment.reverse, y2_eq_of_isHorizontal level, min_comm s.x2, max_comm s.x2]
    exact ⟨here, low, high⟩
  have down : ∀ col row, Down segments col row ↔ Down others col row := by
    intro col row
    simp only [Down, rasterColumn, rasterRow, widths, heights]
    refine same.exists_iff fun s ⟨upright, here, low, high⟩ => ⟨(turned s).2.1.trans upright, ?_⟩
    simp only [Segment.reverse, x2_eq_of_isUpright upright, min_comm s.y2, max_comm s.y2]
    exact ⟨here, low, high⟩
  unfold raster rasterCell
  simp only [widths, heights, across, down]

end Invariance

section Scaling

variable {u : Int}

theorem kind_scale (positive : 0 < u) (s : Segment) :
    (s.scale u).isHorizontal = s.isHorizontal ∧ (s.scale u).isUpright = s.isUpright ∧
      (s.scale u).isKept = s.isKept := by
  simp [Segment.isKept, Segment.isUpright, Segment.isHorizontal, Segment.isVertical,
    Segment.scale, positive.ne', Bool.beq_eq_decide_eq]

theorem keptEnds_scale (positive : 0 < u) {first second : Segment → Int}
    (enlarged : ∀ s : Segment, first (s.scale u) = first s * u ∧ second (s.scale u) = second s * u)
    (segments : List Segment) :
    keptEnds (segments.map (.scale u)) first second =
      (keptEnds segments first second).image (· * u) := by
  ext n
  simp only [mem_keptEnds, List.mem_map, Finset.mem_image]
  constructor
  · rintro ⟨_, ⟨s, inside, rfl⟩, kept, rfl | rfl⟩
    · exact ⟨_, ⟨s, inside, (kind_scale positive s).2.2 ▸ kept, .inl rfl⟩, (enlarged s).1.symm⟩
    · exact ⟨_, ⟨s, inside, (kind_scale positive s).2.2 ▸ kept, .inr rfl⟩, (enlarged s).2.symm⟩
  · rintro ⟨_, ⟨s, inside, kept, rfl | rfl⟩, rfl⟩
    · exact ⟨_, ⟨s, inside, rfl⟩, (kind_scale positive s).2.2.trans kept, .inl (enlarged s).1.symm⟩
    · exact ⟨_, ⟨s, inside, rfl⟩, (kind_scale positive s).2.2.trans kept, .inr (enlarged s).2.symm⟩

theorem keptWidths_scale (positive : 0 < u) (segments : List Segment) :
    keptWidths (segments.map (.scale u)) = (keptWidths segments).image (· * u) :=
  keptEnds_scale positive (fun _ => ⟨rfl, rfl⟩) segments

theorem keptHeights_scale (positive : 0 < u) (segments : List Segment) :
    keptHeights (segments.map (.scale u)) = (keptHeights segments).image (· * u) :=
  keptEnds_scale positive (fun _ => ⟨rfl, rfl⟩) segments

theorem rasterColumn_scale (positive : 0 < u) (segments : List Segment) (x : Int) :
    rasterColumn (segments.map (.scale u)) (x * u) = rasterColumn segments x := by
  rw [rasterColumn, rasterColumn, keptWidths_scale positive, rank_image_mul positive]

theorem rasterRow_scale (positive : 0 < u) (segments : List Segment) (y : Int) :
    rasterRow (segments.map (.scale u)) (y * u) = rasterRow segments y := by
  rw [rasterRow, rasterRow, keptHeights_scale positive, rank_image_mul positive]

theorem across_scale (positive : 0 < u) (segments : List Segment) (col row : Nat) :
    Across (segments.map (.scale u)) col row ↔ Across segments col row := by
  simp only [Across, List.mem_map, exists_exists_and_eq_and, (kind_scale positive _).1]
  simp only [Segment.scale, ← min_mul_of_nonneg _ _ positive.le,
    ← max_mul_of_nonneg _ _ positive.le, rasterColumn_scale positive, rasterRow_scale positive]

theorem down_scale (positive : 0 < u) (segments : List Segment) (col row : Nat) :
    Down (segments.map (.scale u)) col row ↔ Down segments col row := by
  simp only [Down, List.mem_map, exists_exists_and_eq_and, (kind_scale positive _).2.1]
  simp only [Segment.scale, ← min_mul_of_nonneg _ _ positive.le,
    ← max_mul_of_nonneg _ _ positive.le, rasterColumn_scale positive, rasterRow_scale positive]

/-- Enlarging the segments does not change their picture. -/
theorem raster_scale (positive : 0 < u) (segments : List Segment) (glyphs : Glyphs) :
    raster (segments.map (.scale u)) glyphs = raster segments glyphs := by
  have injective : Function.Injective (· * u) :=
    fun _ _ same => Int.eq_of_mul_eq_mul_right positive.ne' same
  unfold raster rasterCell
  simp only [keptWidths_scale positive, keptHeights_scale positive,
    Finset.card_image_of_injective _ injective, across_scale positive, down_scale positive]

end Scaling

section Charsets

variable {segments : List Segment} {col row : Nat}

/-- What is covered lies inside the canvas. -/
theorem across_inside (across : Across segments col row) :
    col < 2 * (keptWidths segments).card + 1 ∧ row < (keptHeights segments).card + 1 := by
  obtain ⟨s, inside, level, rfl, -, high⟩ := across
  obtain ⟨⟨-, right⟩, bottom, -⟩ := ends_kept inside (isKept_of_isHorizontal level)
  rw [y2_eq_of_isHorizontal level, min_self] at bottom
  have col := rank_lt_card right
  have row := rank_lt_card bottom
  rw [rasterColumn] at high
  rw [rasterRow]
  omega

theorem down_inside (down : Down segments col row) :
    col < 2 * (keptWidths segments).card + 1 ∧ row < (keptHeights segments).card + 1 := by
  obtain ⟨s, inside, upright, rfl, -, high⟩ := down
  obtain ⟨⟨left, -⟩, -, top⟩ := ends_kept inside (isKept_of_isUpright upright)
  rw [x2_eq_of_isUpright upright, min_self] at left
  have col := rank_lt_card left
  have row := rank_lt_card top
  rw [rasterRow] at high
  rw [rasterColumn]
  omega

theorem raster_get (segments : List Segment) (glyphs : Glyphs) (col row : Nat) :
    (raster segments glyphs).get col row = rasterCell segments glyphs col row := by
  by_cases inside : col < 2 * (keptWidths segments).card + 1 ∧ row < (keptHeights segments).card + 1
  · exact Canvas.get_tabulate _ inside
  · have across : ¬ Across segments col row := fun across => inside (across_inside across)
    have down : ¬ Down segments col row := fun down => inside (down_inside down)
    have outside : (raster segments glyphs).get col row = ' ' := Canvas.get_of_outside inside
    rw [outside, rasterCell, if_neg across, if_neg down]

variable (charset : Charset)

theorem vertical_visible : charset.glyphs.vertical ≠ ' ' := by
  cases charset <;> decide

theorem raster_plain (segments : List Segment) : (raster segments charset.glyphs).Plain := by
  have glyphs : Text.isBlank charset.glyphs.cross = false ∧
      Text.isBlank charset.glyphs.horizontal = false ∧
      Text.isBlank charset.glyphs.vertical = false := by
    cases charset <;> decide
  intro col row blank
  rw [raster_get] at blank ⊢
  unfold rasterCell at blank ⊢
  split_ifs at blank ⊢ <;> simp_all

theorem rasterCell_eq_cross_iff :
    rasterCell segments charset.glyphs col row = charset.glyphs.cross ↔
      Across segments col row ∧ Down segments col row := by
  have apart : charset.glyphs.horizontal ≠ charset.glyphs.cross ∧
      charset.glyphs.vertical ≠ charset.glyphs.cross ∧ ' ' ≠ charset.glyphs.cross := by
    cases charset <;> decide
  unfold rasterCell
  split_ifs <;> simp_all

/-- A cell that lies on a level and on an upright segment is the place of a meeting. -/
theorem across_down_iff : Across segments col row ∧ Down segments col row ↔
    ∃ point ∈ meetings segments,
      rasterColumn segments point.1 = col ∧ rasterRow segments point.2 = row := by
  constructor
  · rintro ⟨⟨s, inside, level, rfl, left, right⟩, t, inside', upright, rfl, low, high⟩
    obtain ⟨⟨width, -⟩, -, top⟩ := ends_kept inside' (isKept_of_isUpright upright)
    obtain ⟨⟨-, widest⟩, bottom, -⟩ := ends_kept inside (isKept_of_isHorizontal level)
    rw [x2_eq_of_isUpright upright, min_self] at width
    rw [y2_eq_of_isHorizontal level, min_self] at bottom
    have between : min s.x1 s.x2 ≤ t.x1 ∧ t.x1 ≤ max s.x1 s.x2 :=
      ⟨(rank_le_iff width).mp (Nat.le_of_mul_le_mul_left left Nat.two_pos),
        (rank_le_iff widest).mp (Nat.le_of_mul_le_mul_left right Nat.two_pos)⟩
    have between' : min t.y1 t.y2 ≤ s.y1 ∧ s.y1 ≤ max t.y1 t.y2 :=
      ⟨(rank_le_iff bottom).mp low, (rank_le_iff top).mp high⟩
    refine ⟨(t.x1, s.y1), mem_meetings.mpr ?_, rfl, rfl⟩
    refine ⟨s, inside, t, inside', level, upright, rfl, ⟨between, ?_⟩, ?_, between'⟩
    · simp [y2_eq_of_isHorizontal level]
    · simp [x2_eq_of_isUpright upright]
  · rintro ⟨point, meeting, rfl, rfl⟩
    obtain ⟨s, inside, t, inside', level, upright, rfl, ⟨between, -⟩, -, between'⟩ :=
      mem_meetings.mp meeting
    exact ⟨⟨s, inside, level, rfl, Nat.mul_le_mul_left 2 (rank_le_rank _ between.1),
        Nat.mul_le_mul_left 2 (rank_le_rank _ between.2)⟩,
      t, inside', upright, rfl, rank_le_rank _ between'.1, rank_le_rank _ between'.2⟩

theorem meeting_kept {point : Int × Int} (meeting : point ∈ meetings segments) :
    point.1 ∈ keptWidths segments ∧ point.2 ∈ keptHeights segments := by
  obtain ⟨s, inside, t, inside', level, upright, rfl, -⟩ := mem_meetings.mp meeting
  exact ⟨mem_keptWidths.mpr ⟨t, inside', isKept_of_isUpright upright, .inl rfl⟩,
    mem_keptHeights.mpr ⟨s, inside, isKept_of_isHorizontal level, .inl rfl⟩⟩

/-- There are as many crosses in the text as points where a level segment meets an upright one. -/
theorem count_cross (segments : List Segment) :
    (raster segments charset.glyphs).text.toList.count charset.glyphs.cross =
      (meetings segments).card := by
  have visible : Text.isBlank charset.glyphs.cross = false := by cases charset <;> decide
  rw [Canvas.count_text visible]
  symm
  refine Finset.card_bij
    (fun point _ => (rasterColumn segments point.1, rasterRow segments point.2)) ?_ ?_ ?_
  · intro point meeting
    have cell := across_down_iff.mpr ⟨point, meeting, rfl, rfl⟩
    obtain ⟨left, above⟩ := across_inside cell.1
    simp only [Finset.mem_filter, Finset.mem_product, Finset.mem_range, raster_get,
      rasterCell_eq_cross_iff]
    exact ⟨⟨left, above⟩, cell⟩
  · intro point meeting point' meeting' same
    obtain ⟨kept, kept'⟩ := meeting_kept meeting
    obtain ⟨other, other'⟩ := meeting_kept meeting'
    simp only [Prod.mk.injEq, rasterColumn, rasterRow] at same
    exact Prod.ext (rank_inj kept other (by omega)) (rank_inj kept' other' same.2)
  · rintro ⟨col, row⟩ cell
    rw [Finset.mem_filter, raster_get, rasterCell_eq_cross_iff] at cell
    obtain ⟨point, meeting, here, there⟩ := across_down_iff.mp cell.2
    exact ⟨point, meeting, Prod.ext here there⟩

end Charsets

end ChurchScript.Diagram
