import Mathlib.Order.Interval.Set.UnorderedInterval
import ChurchScript.Proofs.Diagram.Geometry

/-!
# Where the lines of a diagram meet

The level lines of a diagram are the bars of its abstractions and applications (`bar?`), the
upright ones the stems of its variables and the joins of its applications (`uprights`). Of two
subterms, one stands inside the other or they share no column (`sites_related`), and a subterm
ends above the bar of an application around it unless it reaches that bar in its first column
(`site_covers_or_above`). So bars never collide, and the bar of an application is met at its
ends only (`bars_never_collide`).
-/
namespace ChurchScript

namespace Term

/-- The subterms properly inside a subterm. -/
def Site.inside (site : Site) : List Site :=
  match site.term with
  | var .. => []
  | abs x _ body => body.sites (x :: site.around) site.before
  | app f a => f.sites site.around site.before ++ a.sites site.around (site.before + f.leaves)

/-- Where two subterms of a term stand to each other. -/
inductive Site.Related (p q : Site) : Prop
  | same : p = q → Related p q
  | inside : p ∈ q.inside → Related p q
  | around : q ∈ p.inside → Related p q
  | left : p.before + p.term.leaves ≤ q.before → Related p q
  | right : q.before + q.term.leaves ≤ p.before → Related p q

section Sites

variable {around : List String} {before : Nat} {site p q : Site}

theorem mem_inside_abs {x : String} {binder : Option Binder} {body : Term} :
    q ∈ Site.inside ⟨around, before, abs x binder body⟩ ↔ q ∈ body.sites (x :: around) before :=
  Iff.rfl

theorem mem_inside_app {f a : Term} : q ∈ Site.inside ⟨around, before, app f a⟩ ↔
    q ∈ f.sites around before ∨ q ∈ a.sites around (before + f.leaves) :=
  List.mem_append

/-- Of two subterms, the later one stands inside the earlier one or to the right of it. -/
theorem sites_ordered (t : Term) (around : List String) (before : Nat) :
    (t.sites around before).Pairwise fun p q =>
      q ∈ p.inside ∨ p.before + p.term.leaves ≤ q.before := by
  induction t generalizing around before with
  | var x index binder => exact List.pairwise_singleton _ _
  | abs x binder body ih =>
    exact List.pairwise_cons.mpr ⟨fun q inside => .inl inside, ih (x :: around) before⟩
  | app f a ihf iha =>
    have sides := List.pairwise_append.mpr ⟨ihf around before, iha around (before + f.leaves), by
      intro p left q right
      obtain ⟨-, -, last, -⟩ := site_inside f left
      obtain ⟨-, first, -, -⟩ := site_inside a right
      exact .inr (last.trans first)⟩
    exact List.pairwise_cons.mpr ⟨fun q inside => .inl inside, sides⟩

theorem sites_related {t : Term} (member : p ∈ t.sites around before)
    (member' : q ∈ t.sites around before) : p.Related q := by
  have symmetric : Std.Symm Site.Related := by
    refine ⟨fun p q related => ?_⟩
    cases related with
    | same eq => exact .same eq.symm
    | inside inner => exact .around inner
    | around inner => exact .inside inner
    | left apart => exact .right apart
    | right apart => exact .left apart
  have pairs : (t.sites around before).Pairwise Site.Related :=
    (sites_ordered t around before).imp fun ordered => ordered.elim .around .left
  exact pairs.forall_of_forall (fun p _ => .same rfl) member member'

/-- A subterm covers all variables of the term, or it ends above the last row. -/
theorem site_covers_or_above (t : Term) (member : site ∈ t.sites around before) :
    site.before = before ∧ site.term.leaves = t.leaves ∨
      site.around.length + site.term.depth < around.length + t.depth := by
  induction t generalizing around before with
  | var x index binder =>
    rw [List.mem_singleton.mp member]
    exact .inl ⟨rfl, rfl⟩
  | abs x binder body ih =>
    rcases List.mem_cons.mp member with rfl | inside
    · exact .inl ⟨rfl, rfl⟩
    · have inner := ih inside
      simp only [List.length_cons, leaves, depth_abs] at inner ⊢
      omega
  | app f a ihf iha =>
    rcases List.mem_cons.mp member with rfl | inside
    · exact .inl ⟨rfl, rfl⟩
    · rw [depth_app]
      rcases List.mem_append.mp inside with left | right
      · obtain ⟨-, -, -, deep⟩ := site_inside f left
        exact .inr (by omega)
      · obtain ⟨-, -, -, deep⟩ := site_inside a right
        exact .inr (by omega)

end Sites

end Term

namespace Diagram

open Term

namespace Segment

def columns (s : Segment) : Set Int := Set.uIcc s.x1 s.x2

def rows (s : Segment) : Set Int := Set.uIcc s.y1 s.y2

/-- Whether an upright line has a point in common with a level one. -/
def Meets (upright level : Segment) : Prop :=
  upright.x1 ∈ level.columns ∧ level.y1 ∈ upright.rows

theorem not_mem_columns {s s' : Segment} (order : s.x1 ≤ s.x2) (order' : s'.x1 ≤ s'.x2)
    (apart : s.x2 < s'.x1) : ∀ x ∈ s.columns, x ∉ s'.columns := by
  intro x here there
  rw [columns, Set.mem_uIcc] at here there
  omega

end Segment

/-- The level line that a subterm draws: that of an abstraction lies above its variables, that
of an application below its two sides. -/
def bar? (site : Site) : Option Segment :=
  let row : Int := site.around.length
  let left : Int := 2 * site.before
  match site.term with
  | .var .. => none
  | .abs _ _ body => some (.horizontal row left (2 * (site.before + body.leaves - 1) + 1))
  | .app f a =>
    some (.horizontal (row + max (f.depth - 1 : Int) (a.depth - 1)) left
      (2 * (site.before + f.leaves)))

/-- The upright lines that a subterm draws: the stem of a variable, or the joins between the bar
of an application and its two sides. -/
def uprights (site : Site) : List Segment :=
  let row : Int := site.around.length
  let left : Int := 2 * site.before
  match site.term with
  | .var x _ _ => [.vertical left row (stemTop x site.around)]
  | .abs .. => []
  | .app f a =>
    let right : Int := 2 * (site.before + f.leaves)
    extensions left right row (f.depth - 1) (a.depth - 1) ++
      drops left right row (f.depth - 1) (a.depth - 1)

section Drawn

variable {site : Site} {s : Segment}

/-- A stem goes up by one row at least. -/
theorem stemTop_lt (x : String) (around : List String) : stemTop x around < around.length := by
  rw [stemTop_eq]
  split
  · simp only [reach]
    omega
  · simp only [reach]
    omega

theorem joint_rows {left right row h1 h2 : Int} (first : 0 ≤ h1) (second : 0 ≤ h2)
    (member : s ∈ extensions left right row h1 h2 ++ drops left right row h1 h2) :
    (row ≤ s.y1 ∧ s.y1 ≤ row + max h1 h2) ∧ (row ≤ s.y2 ∧ s.y2 ≤ row + max h1 h2) := by
  simp only [extensions, drops, ← List.filter_append, List.mem_filter, List.cons_append,
    List.nil_append, List.mem_cons, List.not_mem_nil, or_false] at member
  rcases member.1 with rfl | rfl | rfl | rfl <;> simp only [Segment.vertical] <;> omega

/-- A bar lies over or below the variables of its subterm, and above its last row. -/
theorem bar_bounds (drawn : bar? site = some s) :
    s.isHorizontal ∧ ¬ s.isVertical ∧ 2 * (site.before : Int) ≤ s.x1 ∧ s.x1 < s.x2 ∧
      s.x2 < 2 * (site.before + site.term.leaves) ∧ (site.around.length : Int) ≤ s.y1 ∧
      s.y1 + 2 ≤ site.around.length + site.term.depth := by
  obtain ⟨around, before, term⟩ := site
  cases term with
  | var x index binder => cases drawn
  | abs x binder body =>
    have covered := body.leaves_pos
    have deep := body.depth_pos
    cases drawn
    simp only [Segment.isHorizontal, Segment.isVertical, Segment.horizontal, leaves, depth_abs,
      beq_self_eq_true, beq_iff_eq, true_and]
    omega
  | app f a =>
    have function := f.leaves_pos
    have argument := a.leaves_pos
    have deep := f.depth_pos
    have deep' := a.depth_pos
    cases drawn
    simp only [Segment.isHorizontal, Segment.isVertical, Segment.horizontal, leaves, depth_app,
      beq_self_eq_true, beq_iff_eq, true_and]
    omega

/-- A stem or a join stands in a column of its subterm. It lies above the last row of its
subterm, or it is a stem, which ends there. -/
theorem upright_bounds (drawn : s ∈ uprights site) :
    s.isVertical ∧ ¬ s.isHorizontal ∧ 2 * (site.before : Int) ≤ s.x1 ∧
      s.x1 < 2 * (site.before + site.term.leaves) ∧
      max s.y1 s.y2 < site.around.length + site.term.depth ∧
      (s.x1 = 2 * site.before ∨ max s.y1 s.y2 + 1 < site.around.length + site.term.depth) := by
  obtain ⟨around, before, term⟩ := site
  cases term with
  | var x index binder =>
    have top := stemTop_lt x around
    rw [List.mem_singleton.mp drawn]
    simp only [Segment.isHorizontal, Segment.isVertical, Segment.vertical, leaves, depth_var,
      beq_self_eq_true, beq_iff_eq, true_and, true_or, and_true]
    omega
  | abs x binder body => cases drawn
  | app f a =>
    have function := f.leaves_pos
    have argument := a.leaves_pos
    have deep := f.depth_pos
    have deep' := a.depth_pos
    obtain ⟨upright, proper, column⟩ := joint_verticals drawn
    obtain ⟨first, last⟩ := joint_rows (by omega) (by omega) drawn
    have slanted : ¬ s.isHorizontal := by
      intro level
      exact proper (by rw [Segment.isDegenerate, level, upright]; rfl)
    refine ⟨upright, slanted, ?_⟩
    simp only [leaves, depth_app] at column first last ⊢
    omega

theorem filter_horizontal_drawing (site : Site) :
    (drawing site).filter (·.isHorizontal) = (bar? site).toList := by
  obtain ⟨around, before, term⟩ := site
  have none : ∀ lines ⊆ uprights ⟨around, before, term⟩,
      lines.filter (·.isHorizontal) = [] := fun lines subset =>
    List.filter_eq_nil_iff.mpr fun s inside => (upright_bounds (subset inside)).2.1
  cases term with
  | var x index binder => exact none _ (List.Subset.refl _)
  | abs x binder body => simp [drawing, bar?, Segment.isHorizontal, Segment.horizontal]
  | app f a =>
    simp only [drawing, List.filter_append]
    rw [none _ (List.subset_append_left _ _), none _ (List.subset_append_right _ _)]
    simp [bar?, Segment.isHorizontal, Segment.horizontal]

theorem filter_vertical_drawing (site : Site) :
    (drawing site).filter (·.isVertical) = uprights site := by
  obtain ⟨around, before, term⟩ := site
  have all : ∀ lines ⊆ uprights ⟨around, before, term⟩,
      lines.filter (·.isVertical) = lines := fun lines subset =>
    List.filter_eq_self.mpr fun s inside => (upright_bounds (subset inside)).1
  have covered : ∀ bar, bar? ⟨around, before, term⟩ = some bar →
      [bar].filter (·.isVertical) = [] := by
    intro bar drawn
    simpa using (bar_bounds drawn).2.1
  cases term with
  | var x index binder => exact all _ (List.Subset.refl _)
  | abs x binder body => exact covered _ rfl
  | app f a =>
    simp only [drawing, List.filter_append]
    rw [all _ (List.subset_append_left _ _), all _ (List.subset_append_right _ _),
      covered _ rfl, List.append_nil]
    rfl

end Drawn

section Bars

variable {around : List String} {before : Nat} {t : Term} {p q : Site} {v bar bar' : Segment}

/-- Of two bars in one row, one ends before the other begins. -/
theorem bars_apart (ordered : q ∈ p.inside ∨ p.before + p.term.leaves ≤ q.before)
    (drawn : bar? p = some bar) (drawn' : bar? q = some bar') (level : bar.y1 = bar'.y1) :
    ∀ x ∈ bar.columns, x ∉ bar'.columns := by
  obtain ⟨-, -, left, long, right, first, last⟩ := bar_bounds drawn
  obtain ⟨-, -, left', long', right', first', last'⟩ := bar_bounds drawn'
  rcases ordered with inner | apart
  · -- a bar inside an abstraction lies below the abstraction's, one inside an application above
    exfalso
    obtain ⟨around, before, term⟩ := p
    cases term with
    | var x index binder => cases drawn
    | abs x binder body =>
      obtain ⟨suffix, -, -, -⟩ := site_inside body (mem_inside_abs.mp inner)
      have lower := suffix.length_le
      cases drawn
      simp only [Segment.horizontal, List.length_cons] at level lower
      omega
    | app f a =>
      have upper : q.around.length + q.term.depth ≤ around.length + max f.depth a.depth := by
        rcases mem_inside_app.mp inner with inner | inner
        · obtain ⟨-, -, -, deep⟩ := site_inside f inner
          omega
        · obtain ⟨-, -, -, deep⟩ := site_inside a inner
          omega
      cases drawn
      simp only [Segment.horizontal] at level
      omega
  · exact Segment.not_mem_columns long.le long'.le (by omega)

/-- The bar of an application is met by what stands in its function at the left end only. -/
theorem below_function {f : Term} {row : Int} (member : p ∈ f.sites around before)
    (drawn : v ∈ uprights p) (lower : around.length + f.depth ≤ row + 1) (meets : row ∈ v.rows) :
    v.x1 = 2 * before := by
  obtain ⟨-, -, left, right, last, ends⟩ := upright_bounds drawn
  obtain ⟨-, -, -, deep⟩ := site_inside f member
  rw [Segment.rows, Set.mem_uIcc] at meets
  rcases site_covers_or_above f member with ⟨first, -⟩ | above
  · omega
  · omega

/-- Only stems cross a bar between its ends, and only the bars of abstractions around them. -/
theorem crossing (member : p ∈ t.sites around before) (member' : q ∈ t.sites around before)
    (drawn : v ∈ uprights p) (drawn' : bar? q = some bar) (meets : v.Meets bar)
    (left : v.x1 ≠ bar.x1) (right : v.x1 ≠ bar.x2) :
    p.isVariable ∧ ∃ x binder body, q.term = abs x binder body ∧
      p ∈ body.sites (x :: q.around) q.before := by
  obtain ⟨-, -, from1, to1, -, -⟩ := upright_bounds drawn
  obtain ⟨-, -, from2, long, to2, -, -⟩ := bar_bounds drawn'
  obtain ⟨column, row⟩ := meets
  rw [Segment.columns, Set.mem_uIcc] at column
  cases sites_related member member' with
  | same eq =>
    subst eq
    obtain ⟨around, before, term⟩ := p
    cases term with
    | var x index binder => cases drawn'
    | abs x binder body => cases drawn
    | app f a =>
      cases drawn'
      rcases (joint_verticals drawn).2.2 with end1 | end2
      · exact absurd end1 left
      · exact absurd end2 right
  | inside inner =>
    obtain ⟨around', before', term⟩ := q
    cases term with
    | var x index binder => cases drawn'
    | abs x binder body =>
      refine ⟨?_, x, binder, body, rfl, inner⟩
      -- a join stays below the row of its application, which the abstraction stands above
      obtain ⟨suffix, -, -, -⟩ := site_inside body (mem_inside_abs.mp inner)
      have lower := suffix.length_le
      cases drawn'
      rw [Segment.rows, Set.mem_uIcc] at row
      obtain ⟨inward, before, term⟩ := p
      cases term with
      | var y index mark => rfl
      | abs y mark body => cases drawn
      | app f a =>
        have deep := f.depth_pos
        have deep' := a.depth_pos
        obtain ⟨⟨start, -⟩, stop, -⟩ := joint_rows (by omega) (by omega) drawn
        simp only [Segment.horizontal, List.length_cons] at row lower start stop
        omega
    | app f a =>
      cases drawn'
      rcases mem_inside_app.mp inner with inner | inner
      · refine absurd (below_function inner drawn ?_ row) left
        simp only [Segment.horizontal]
        omega
      · obtain ⟨-, first, -, -⟩ := site_inside a inner
        simp only [Segment.horizontal] at column right
        omega
  | around inner =>
    obtain ⟨around', before', term⟩ := p
    cases term with
    | var x index binder => cases inner
    | abs x binder body => cases drawn
    | app f a =>
      have ends : v.x1 = 2 * before' ∨ v.x1 = 2 * (before' + f.leaves) :=
        (joint_verticals drawn).2.2
      rcases mem_inside_app.mp inner with inner | inner
      · obtain ⟨-, first, last, -⟩ := site_inside f inner
        omega
      · obtain ⟨-, first, last, -⟩ := site_inside a inner
        omega
  | left apart => omega
  | right apart => omega

/-- The level lines of subterms are their bars, in order. -/
theorem filter_horizontal (sites : List Site) :
    (sites.flatMap drawing).filter (·.isHorizontal) = sites.filterMap bar? := by
  rw [List.filter_flatMap, List.filterMap_eq_flatMap_toList]
  exact List.flatMap_congr fun site _ => filter_horizontal_drawing site

/-- The upright lines of subterms are their stems and joins, in order. -/
theorem filter_vertical (sites : List Site) :
    (sites.flatMap drawing).filter (·.isVertical) = sites.flatMap uprights := by
  rw [List.filter_flatMap]
  exact List.flatMap_congr fun site _ => filter_vertical_drawing site

/-- Level lines in one row share no column. -/
theorem lines_apart (t : Term) (around : List String) (before : Nat) :
    ((t.sites around before).flatMap drawing).Pairwise fun s s' =>
      s.isHorizontal → s'.isHorizontal → s.y1 = s'.y1 → ∀ x ∈ s.columns, x ∉ s'.columns := by
  rw [← List.pairwise_filter, filter_horizontal, List.pairwise_filterMap]
  refine (sites_ordered t around before).imp fun ordered bar drawn bar' drawn' => ?_
  exact bars_apart ordered drawn drawn'

end Bars

/-- Bars never collide. The level lines of a diagram are the bars of its abstractions and
applications, the upright ones its stems and joins. Of two level lines in one row none shares a
column with the other. An upright line meets the bar of an application in no other column than
those of its two ends. Where it crosses a bar between its ends, it is the stem of a variable and
the bar that of an abstraction around that variable. -/
theorem bars_never_collide (s : Term) :
    let t := s.resolve
    let lines := (layout t).segments
    let subterms := t.sites [] 0
    lines.filter (·.isHorizontal) = subterms.filterMap bar? ∧
    lines.filter (·.isVertical) = subterms.flatMap uprights ∧
    (∀ i j (bound : i < lines.length) (bound' : j < lines.length), i ≠ j →
      lines[i].isHorizontal → lines[j].isHorizontal → lines[i].y1 = lines[j].y1 →
      ∀ x ∈ lines[i].columns, x ∉ lines[j].columns) ∧
    (∀ site ∈ subterms, ∀ f a bar, site.term = app f a → bar? site = some bar →
      ∀ v ∈ lines, v.isVertical → v.Meets bar → v.x1 = bar.x1 ∨ v.x1 = bar.x2) ∧
    (∀ p ∈ subterms, ∀ q ∈ subterms, ∀ v ∈ uprights p, ∀ bar, bar? q = some bar →
      v.Meets bar → v.x1 ≠ bar.x1 → v.x1 ≠ bar.x2 →
      p.isVariable ∧ ∃ x binder body, q.term = abs x binder body ∧
        p ∈ body.sites (x :: q.around) q.before) := by
  intro t lines subterms
  have closed : lines = subterms.flatMap drawing := congrArg Figure.segments (layout_eq s)
  have level := filter_horizontal subterms
  have upright := filter_vertical subterms
  rw [← closed] at level upright
  refine ⟨level, upright, ?_, ?_, ?_⟩
  · have apart := lines_apart t [] 0
    rw [← closed, List.pairwise_iff_getElem] at apart
    intro i j bound bound' different first second same x here there
    rcases Nat.lt_or_gt_of_ne different with before | behind
    · exact apart i j bound bound' before first second same x here there
    · exact apart j i bound' bound behind second first same.symm x there here
  · intro site member f a bar applied drawn v inside standing meets
    have drawnUpright : v ∈ subterms.flatMap uprights := by
      rw [← upright]
      exact List.mem_filter.mpr ⟨inside, standing⟩
    obtain ⟨p, member', own⟩ := List.mem_flatMap.mp drawnUpright
    by_contra between
    rw [not_or] at between
    obtain ⟨-, x, binder, body, abstracted, -⟩ :=
      crossing member' member own drawn meets between.1 between.2
    rw [applied] at abstracted
    cases abstracted
  · intro p member q member' v own bar drawn meets left right
    exact crossing member member' own drawn meets left right

end Diagram

end ChurchScript
