import Mathlib.Algebra.Order.Field.Rat
import Mathlib.Data.Rat.Cast.Order
import ChurchScript.Proofs.Diagram.Crossings

/-!
# Columns without gaps

All upright lines of a diagram stand in the columns of its variables. In one column they
follow each other without a gap from the top of the stem down to the lowest application that
ends there (`columns_unbroken`). The induction is on the term: an application adds to the first
column of each of its sides, and what it adds begins at the side's root or one row above
(`covered_joins`, `root_bounds`).
-/
namespace ChurchScript.Diagram

open Term

/-- The points of a column that lines cover. -/
def covered (lines : List Segment) (column : Int) : Set ℚ :=
  {y | ∃ s ∈ lines, s.x1 = column ∧ y ∈ Set.uIcc (s.y1 : ℚ) s.y2}

/-- The rows of the bars of applications that end in a column. -/
def barRows (sites : List Site) (column : Int) : Set Int :=
  {row | ∃ site ∈ sites, ∃ f a bar, site.term = app f a ∧ bar? site = some bar ∧
    (bar.x1 = column ∨ bar.x2 = column) ∧ bar.y1 = row}

/-- The row in which a subterm that begins in a row ends in its first column: a variable at
its foot, an application at its bar, and an abstraction where its body does. -/
def root (row : Int) : Term → Int
  | .var .. => row
  | .abs _ _ body => root (row + 1) body
  | .app f a => row + max (f.depth - 1 : Int) (a.depth - 1)

section Covered

variable {lines lines' : List Segment} {column : Int}

theorem covered_append (lines lines' : List Segment) (column : Int) :
    covered (lines ++ lines') column = covered lines column ∪ covered lines' column := by
  ext y
  simp only [covered, List.mem_append, Set.mem_ofPred_eq, Set.mem_union, or_and_right, exists_or]

theorem covered_eq_empty (elsewhere : ∀ s ∈ lines, s.x1 ≠ column) : covered lines column = ∅ := by
  refine Set.eq_empty_of_forall_notMem fun y there => ?_
  obtain ⟨s, inside, here, -⟩ := there
  exact elsewhere s inside here

theorem covered_vertical {top foot : Int} (above : top ≤ foot) (column : Int) :
    covered [.vertical column foot top] column = Set.Icc (top : ℚ) foot := by
  have ordered : (top : ℚ) ≤ foot := Int.cast_le.mpr above
  rw [← Set.uIcc_of_ge ordered]
  ext y
  simp [covered, Segment.vertical]

theorem barRows_append (sites sites' : List Site) (column : Int) :
    barRows (sites ++ sites') column = barRows sites column ∪ barRows sites' column := by
  ext row
  simp only [barRows, List.mem_append, Set.mem_ofPred_eq, Set.mem_union, or_and_right, exists_or]

theorem barRows_eq_empty {site : Site} (other : ∀ f a, site.term ≠ app f a) (column : Int) :
    barRows [site] column = ∅ := by
  refine Set.eq_empty_of_forall_notMem fun row there => ?_
  obtain ⟨_, inside, f, a, -, applied, -⟩ := there
  rw [List.mem_singleton.mp inside] at applied
  exact other f a applied

end Covered

section Joins

variable {left right row h1 h2 : Int}

theorem vertical_isDegenerate (column top bottom : Int) :
    (Segment.vertical column top bottom).isDegenerate = decide (top = bottom) := by
  simp [Segment.vertical, Segment.isDegenerate, Segment.isHorizontal, Segment.isVertical,
    Bool.beq_eq_decide_eq]

/-- What the joins of an application cover below a side of height `h`: all from the last row of
the side down to the bar, unless that is the row of the bar already. -/
theorem covered_joins (apart : left ≠ right) (first : 0 ≤ h1) (second : 0 ≤ h2) {column h : Int}
    (side : column = left ∧ h = h1 ∨ column = right ∧ h = h2) :
    covered (extensions left right row h1 h2 ++ drops left right row h1 h2) column =
      if max (h - 1) 0 < max h1 h2 then
        Set.Icc ((row + max (h - 1) 0 : Int) : ℚ) ((row + max h1 h2 : Int) : ℚ)
      else ∅ := by
  have within : ∀ s ∈ extensions left right row h1 h2 ++ drops left right row h1 h2,
      s.x1 = column → max (h - 1) 0 < max h1 h2 ∧ row + max (h - 1) 0 ≤ min s.y1 s.y2 ∧
        max s.y1 s.y2 ≤ row + max h1 h2 := by
    intro s inside here
    simp only [extensions, drops, ← List.filter_append, List.mem_filter, List.cons_append,
      List.nil_append, List.mem_cons, List.not_mem_nil, or_false] at inside
    obtain ⟨rfl | rfl | rfl | rfl, proper⟩ := inside <;>
      simp only [vertical_isDegenerate, Bool.not_eq_true', decide_eq_false_iff_not] at proper <;>
      simp only [Segment.vertical] at here ⊢ <;> omega
  split
  next above =>
    ext y
    constructor
    · rintro ⟨s, inside, here, between⟩
      obtain ⟨-, low, high⟩ := within s inside here
      have low' : ((row + max (h - 1) 0 : Int) : ℚ) ≤ ((min s.y1 s.y2 : Int) : ℚ) := by
        exact_mod_cast low
      have high' : ((max s.y1 s.y2 : Int) : ℚ) ≤ ((row + max h1 h2 : Int) : ℚ) := by
        exact_mod_cast high
      rw [Int.cast_min] at low'
      rw [Int.cast_max] at high'
      exact ⟨low'.trans between.1, between.2.trans high'⟩
    · rintro inside
      refine ⟨.vertical column (row + max h1 h2) (row + max (h - 1) 0), ?_, rfl, ?_⟩
      · refine List.mem_append_right _ (List.mem_filter.mpr ⟨?_, ?_⟩)
        · rcases side with ⟨rfl, rfl⟩ | ⟨rfl, rfl⟩
          · exact List.mem_cons_self
          · exact List.mem_cons_of_mem _ List.mem_cons_self
        · rw [vertical_isDegenerate]
          simp only [Bool.not_eq_true', decide_eq_false_iff_not]
          omega
      · exact Set.Icc_subset_uIcc' inside
  next level => exact covered_eq_empty fun s inside here => level (within s inside here).1

/-- The joins lengthen what is covered below a side, down to the bar. -/
theorem covered_lengthened (apart : left ≠ right) (first : 0 ≤ h1) (second : 0 ≤ h2)
    {column h top bottom : Int} (side : column = left ∧ h = h1 ∨ column = right ∧ h = h2)
    (above : top ≤ row + max (h - 1) 0) (near : row + max (h - 1) 0 ≤ bottom)
    (low : bottom ≤ row + h) :
    covered (extensions left right row h1 h2 ++ drops left right row h1 h2) column ∪
      Set.Icc (top : ℚ) bottom = Set.Icc (top : ℚ) ((row + max h1 h2 : Int) : ℚ) := by
  rw [covered_joins apart first second side]
  split
  next further =>
    have reaches : bottom ≤ row + max h1 h2 := by omega
    rw [Set.union_comm, Set.Icc_union_Icc', min_eq_left, max_eq_right]
    all_goals norm_cast
    omega
  next level =>
    have same : bottom = row + max h1 h2 := by omega
    rw [same, Set.empty_union]

end Joins

theorem root_bounds (t : Term) (row : Int) :
    row + max (t.depth - 2 : Int) 0 ≤ root row t ∧ root row t < row + t.depth := by
  induction t generalizing row with
  | var x index binder => simp [root]
  | abs x binder body ih =>
    have inner := ih (row + 1)
    have deep := body.depth_pos
    simp only [root, depth_abs]
    omega
  | app f a _ _ =>
    have deep := f.depth_pos
    have deep' := a.depth_pos
    simp only [root, depth_app]
    omega

section Runs

variable {around : List String} {before : Nat} {p : Site} {x : String}

/-- What subterms draw in the column of a variable: one stretch without a gap from the top of
its stem to a row, which is that of the lowest application that ends there, or of the foot of
the stem if there is none. -/
structure Run (sites : List Site) (p : Site) (x : String) (bottom : Int) : Prop where
  unbroken : covered (sites.flatMap uprights) (2 * p.before) =
    Set.Icc (stemTop x p.around : ℚ) bottom
  lowest : barRows sites (2 * p.before) = ∅ ∧ bottom = p.around.length ∨
    IsGreatest (barRows sites (2 * p.before)) bottom

theorem covered_outside (t : Term) (around : List String) (before : Nat) {column : Int}
    (outside : column < 2 * before ∨ 2 * (before + t.leaves) ≤ column) :
    covered ((t.sites around before).flatMap uprights) column = ∅ := by
  refine covered_eq_empty fun s drawn here => ?_
  obtain ⟨site, member, own⟩ := List.mem_flatMap.mp drawn
  obtain ⟨-, first, last, -⟩ := site_inside t member
  obtain ⟨-, -, left, right, -, -⟩ := upright_bounds own
  omega

theorem barRows_outside (t : Term) (around : List String) (before : Nat) {column : Int}
    (outside : column < 2 * before ∨ 2 * (before + t.leaves) ≤ column) :
    barRows (t.sites around before) column = ∅ := by
  refine Set.eq_empty_of_forall_notMem fun row there => ?_
  obtain ⟨site, member, f, a, bar, -, drawn, ends, -⟩ := there
  obtain ⟨-, first, last, -⟩ := site_inside t member
  obtain ⟨-, -, left, long, right, -, -⟩ := bar_bounds drawn
  omega

/-- A stem begins above the last row of the term. -/
theorem stemTop_above {t : Term} {index : Option Nat} {binder : Option Binder}
    (member : p ∈ t.sites around before) (leaf : p.term = var x index binder) :
    stemTop x p.around ≤ around.length + max (t.depth - 2 : Int) 0 := by
  obtain ⟨-, -, -, deep⟩ := site_inside t member
  have top := stemTop_lt x p.around
  rw [leaf, depth_var] at deep
  omega

theorem uprights_app (around : List String) (before : Nat) (f a : Term) :
    uprights ⟨around, before, app f a⟩ =
      extensions (2 * before) (2 * (before + f.leaves)) around.length (f.depth - 1) (a.depth - 1) ++
        drops (2 * before) (2 * (before + f.leaves)) around.length (f.depth - 1) (a.depth - 1) :=
  rfl

/-- The row of an application's bar, and its ends. -/
theorem barRows_application (around : List String) (before : Nat) (f a : Term) (column : Int) :
    barRows [⟨around, before, app f a⟩] column =
      {row | row = root around.length (app f a) ∧
        (2 * (before : Int) = column ∨ 2 * (before + f.leaves : Int) = column)} := by
  ext row
  constructor
  · rintro ⟨site, member, g, b, bar, -, drawn, ends, rfl⟩
    obtain rfl := List.mem_singleton.mp member
    cases drawn
    exact ⟨rfl, ends⟩
  · rintro ⟨rfl, ends⟩
    exact ⟨_, List.mem_singleton_self _, f, a, _, rfl, rfl, ends, rfl⟩

/-- A side of an application in which the column of a variable is unbroken. In the side's first
column the application goes on down to its bar, in others it adds nothing. -/
theorem Run.join {f a side : Term} {first : Nat} {bottom : Int} {index : Option Nat}
    {binder : Option Binder} (run : Run (side.sites around first) p x bottom)
    (ends : p.before = first → bottom = root around.length side)
    (member : p ∈ side.sites around first) (leaf : p.term = var x index binder)
    (position : side = f ∧ first = before ∨ side = a ∧ first = before + f.leaves)
    (lines : covered (((app f a).sites around before).flatMap uprights) (2 * p.before) =
      covered (uprights ⟨around, before, app f a⟩) (2 * p.before) ∪
        covered ((side.sites around first).flatMap uprights) (2 * p.before))
    (bars : barRows ((app f a).sites around before) (2 * p.before) =
      barRows [⟨around, before, app f a⟩] (2 * p.before) ∪
        barRows (side.sites around first) (2 * p.before)) :
    ∃ lower, Run ((app f a).sites around before) p x lower ∧
      (p.before = first → lower = root around.length (app f a)) := by
  have positive := f.leaves_pos
  have own := p.term.leaves_pos
  have deep := f.depth_pos
  have deep' := a.depth_pos
  obtain ⟨-, start, stop, -⟩ := site_inside side member
  rw [run.unbroken] at lines
  rw [barRows_application] at bars
  by_cases here : p.before = first
  · refine ⟨root around.length (app f a), ⟨?_, .inr ?_⟩, fun _ => rfl⟩
    · have bounds := root_bounds side around.length
      have top := stemTop_above member leaf
      have apart : (2 * before : Int) ≠ 2 * (before + f.leaves) := by omega
      have heights : (2 * p.before : Int) = 2 * before ∧ (side.depth - 1 : Int) = f.depth - 1 ∨
          (2 * p.before : Int) = 2 * (before + f.leaves) ∧
            (side.depth - 1 : Int) = a.depth - 1 := by
        rcases position with ⟨rfl, rfl⟩ | ⟨rfl, rfl⟩
        · exact .inl ⟨by rw [here], rfl⟩
        · exact .inr ⟨by rw [here, Nat.cast_add], rfl⟩
      rw [lines, ends here, uprights_app]
      exact covered_lengthened apart (by omega) (by omega) heights (by omega) (by omega) (by omega)
    · rw [bars]
      refine ⟨.inl ⟨rfl, by omega⟩, fun row there => ?_⟩
      rcases there with ⟨rfl, -⟩ | ⟨site, inside, g, b, bar, -, drawn, -, rfl⟩
      · exact le_rfl
      · obtain ⟨-, -, -, -, -, -, last⟩ := bar_bounds drawn
        obtain ⟨-, -, -, deeper⟩ := site_inside side inside
        simp only [root]
        rcases position with ⟨rfl, -⟩ | ⟨rfl, -⟩ <;> omega
  · have left : 2 * (before : Int) ≠ 2 * p.before := by
      rcases position with ⟨rfl, rfl⟩ | ⟨rfl, rfl⟩ <;> omega
    have right : 2 * (before + f.leaves : Int) ≠ 2 * p.before := by
      rcases position with ⟨rfl, rfl⟩ | ⟨rfl, rfl⟩ <;> omega
    have nothing : covered (uprights ⟨around, before, app f a⟩) (2 * p.before) = ∅ := by
      refine covered_eq_empty fun s drawn column => ?_
      rcases (joint_verticals drawn).2.2 with leftEnd | rightEnd
      · exact left (leftEnd.symm.trans column)
      · exact right (rightEnd.symm.trans column)
    refine ⟨bottom, ⟨by rw [lines, nothing, Set.empty_union], ?_⟩, fun same => absurd same here⟩
    have none : {row | row = root around.length (app f a) ∧
        (2 * (before : Int) = 2 * p.before ∨ 2 * (before + f.leaves : Int) = 2 * p.before)} =
        (∅ : Set Int) :=
      Set.eq_empty_of_forall_notMem fun row there => there.2.elim left right
    rw [bars, none, Set.empty_union]
    exact run.lowest

/-- The column of every variable of a term is unbroken, and the first one ends at the root. -/
theorem exists_run (t : Term) {index : Option Nat} {binder : Option Binder}
    (member : p ∈ t.sites around before) (leaf : p.term = var x index binder) :
    ∃ bottom, Run (t.sites around before) p x bottom ∧
      (p.before = before → bottom = root around.length t) := by
  induction t generalizing around before with
  | var y _ _ =>
    obtain rfl := List.mem_singleton.mp member
    cases leaf
    refine ⟨around.length, ⟨?_, .inl ⟨?_, rfl⟩⟩, fun _ => rfl⟩
    · exact covered_vertical (stemTop_lt x around).le (2 * before)
    · exact barRows_eq_empty (by simp) _
  | abs y mark body ih =>
    rcases List.mem_cons.mp member with rfl | inside
    · cases leaf
    · obtain ⟨bottom, run, first⟩ := ih inside
      have bars : barRows ((abs y mark body).sites around before) (2 * p.before) =
          barRows (body.sites (y :: around) before) (2 * p.before) := by
        rw [sites, ← List.singleton_append, barRows_append, barRows_eq_empty (by simp),
          Set.empty_union]
      refine ⟨bottom, ⟨run.unbroken, ?_⟩, ?_⟩
      · rw [bars]
        exact run.lowest
      · intro here
        rw [first here, root, List.length_cons, Nat.cast_add, Nat.cast_one]
  | app f a ihf iha =>
    rcases List.mem_cons.mp member with rfl | inside
    · cases leaf
    · have lines : covered (((app f a).sites around before).flatMap uprights) (2 * p.before) =
          covered (uprights ⟨around, before, app f a⟩) (2 * p.before) ∪
            (covered ((f.sites around before).flatMap uprights) (2 * p.before) ∪
              covered ((a.sites around (before + f.leaves)).flatMap uprights) (2 * p.before)) := by
        rw [sites, List.flatMap_cons, List.flatMap_append, covered_append, covered_append]
      have bars : barRows ((app f a).sites around before) (2 * p.before) =
          barRows [⟨around, before, app f a⟩] (2 * p.before) ∪
            (barRows (f.sites around before) (2 * p.before) ∪
              barRows (a.sites around (before + f.leaves)) (2 * p.before)) := by
        rw [sites, ← List.singleton_append, barRows_append, barRows_append]
      have own := p.term.leaves_pos
      rcases List.mem_append.mp inside with left | right
      · obtain ⟨bottom, run, first⟩ := ihf left
        obtain ⟨-, -, stop, -⟩ := site_inside f left
        have beyond : (2 * p.before : Int) < 2 * ((before + f.leaves : Nat) : Int) := by omega
        rw [covered_outside a around _ (.inl beyond), Set.union_empty] at lines
        rw [barRows_outside a around _ (.inl beyond), Set.union_empty] at bars
        exact run.join first left leaf (.inl ⟨rfl, rfl⟩) lines bars
      · obtain ⟨bottom, run, first⟩ := iha right
        obtain ⟨-, start, -, -⟩ := site_inside a right
        have function := f.leaves_pos
        rw [covered_outside f around before (.inr (by omega)), Set.empty_union] at lines
        rw [barRows_outside f around before (.inr (by omega)), Set.empty_union] at bars
        obtain ⟨lower, joined, -⟩ := run.join first right leaf (.inr ⟨rfl, rfl⟩) lines bars
        exact ⟨lower, joined, fun here => by omega⟩

/-- The first variable of a term stands in its first column. -/
theorem exists_first (t : Term) (around : List String) (before : Nat) :
    ∃ p ∈ t.sites around before, p.isVariable ∧ p.before = before := by
  induction t generalizing around before with
  | var x index binder => exact ⟨_, List.mem_singleton_self _, rfl, rfl⟩
  | abs x binder body ih =>
    obtain ⟨p, member, first⟩ := ih (x :: around) before
    exact ⟨p, List.mem_cons_of_mem _ member, first⟩
  | app f a ihf _ =>
    obtain ⟨p, member, first⟩ := ihf around before
    exact ⟨p, List.mem_cons_of_mem _ (List.mem_append_left _ member), first⟩

theorem exists_variable (leaf : p.isVariable) : ∃ x index binder, p.term = var x index binder := by
  obtain ⟨around, before, term⟩ := p
  cases term with
  | var x index binder => exact ⟨x, index, binder, rfl⟩
  | abs x binder body => cases leaf
  | app f a => cases leaf

variable {t f a : Term} {around' : List String} {before' : Nat}

/-- The sides of an application are among the subterms of the term that it stands in. -/
theorem sides_subset (member : ⟨around, before, app f a⟩ ∈ t.sites around' before') :
    f.sites around before ⊆ t.sites around' before' ∧
      a.sites around (before + f.leaves) ⊆ t.sites around' before' := by
  have inside := (sites_contiguous t member).subset
  exact ⟨fun p left => inside (List.mem_cons_of_mem _ (List.mem_append_left _ left)),
    fun p right => inside (List.mem_cons_of_mem _ (List.mem_append_right _ right))⟩

/-- From the end of an application's bar its column leads up to the root of the side. -/
theorem covered_to_root {side : Term} {first : Nat}
    (member : ⟨around, before, app f a⟩ ∈ t.sites around' before')
    (position : side = f ∧ first = before ∨ side = a ∧ first = before + f.leaves) :
    root around.length side ≤ root around.length (app f a) ∧
      Set.Icc (root around.length side : ℚ) (root around.length (app f a)) ⊆
        covered ((t.sites around' before').flatMap uprights) (2 * first) := by
  have deep := f.depth_pos
  have deep' := a.depth_pos
  have bounds := root_bounds side around.length
  have whole := root_bounds (app f a) around.length
  have inside : side.sites around first ⊆ t.sites around' before' := by
    obtain ⟨left, right⟩ := sides_subset member
    rcases position with ⟨rfl, rfl⟩ | ⟨rfl, rfl⟩
    · exact left
    · exact right
  obtain ⟨p, own, leaf, rfl⟩ := exists_first side around first
  obtain ⟨x, index, binder, leaf⟩ := exists_variable leaf
  obtain ⟨bottom, run, -⟩ := exists_run t (inside own) leaf
  have top := stemTop_above own leaf
  have ends : root around.length (app f a) ∈ barRows (t.sites around' before') (2 * p.before) := by
    refine ⟨_, member, f, a, _, rfl, rfl, ?_, rfl⟩
    rcases position with ⟨rfl, same⟩ | ⟨rfl, same⟩
    · exact .inl (by rw [same]; rfl)
    · exact .inr (by rw [same]; rfl)
  have reaches : root around.length (app f a) ≤ bottom := by
    rcases run.lowest with ⟨none, -⟩ | greatest
    · rw [none] at ends
      cases ends
    · exact greatest.2 ends
  refine ⟨?_, ?_⟩
  · rw [depth_app] at whole
    rcases position with ⟨rfl, -⟩ | ⟨rfl, -⟩ <;> omega
  · rw [run.unbroken]
    exact Set.Icc_subset_Icc (Int.cast_le.mpr (by omega)) (Int.cast_le.mpr reaches)

end Runs

/-- Applications are joined to both of their sides without gaps. All upright lines of a diagram
stand in the columns of its variables. In such a column they cover one interval, from the top of
the variable's stem down to the lowest bar of an application that ends in the column, or to the
foot of the stem if none does. So from either end of the bar of an application a line leads up to
the root of its function or of its argument. -/
theorem columns_unbroken (s : Term) :
    let t := s.resolve
    let lines := (layout t).segments
    let upright := lines.filter (·.isVertical)
    let subterms := t.sites [] 0
    lines = subterms.flatMap drawing ∧
    lines.filter (·.isHorizontal) = subterms.filterMap bar? ∧
    (∀ v ∈ upright, ∃ p ∈ subterms, p.isVariable ∧ v.x1 = 2 * p.before) ∧
    (∀ p ∈ subterms, p.isVariable → ∃ foot top bottom : Int,
      drawing p = [.vertical (2 * p.before) foot top] ∧ top < foot ∧
      covered upright (2 * p.before) = Set.Icc (top : ℚ) bottom ∧
      (barRows subterms (2 * p.before) = ∅ ∧ bottom = foot ∨
        IsGreatest (barRows subterms (2 * p.before)) bottom)) ∧
    (∀ around before f a, ⟨around, before, app f a⟩ ∈ subterms →
      ∃ bar, bar? ⟨around, before, app f a⟩ = some bar ∧
        root around.length f ≤ bar.y1 ∧ root around.length a ≤ bar.y1 ∧
        Set.Icc (root around.length f : ℚ) bar.y1 ⊆ covered upright bar.x1 ∧
        Set.Icc (root around.length a : ℚ) bar.y1 ⊆ covered upright bar.x2) := by
  intro t lines upright subterms
  have closed : lines = subterms.flatMap drawing := congrArg Figure.segments (layout_eq s)
  have standing : upright = subterms.flatMap uprights := by
    rw [← filter_vertical subterms, ← closed]
  refine ⟨closed, by rw [closed, filter_horizontal], ?_, ?_, ?_⟩
  · intro v inside
    rw [standing] at inside
    obtain ⟨site, member, drawn⟩ := List.mem_flatMap.mp inside
    obtain ⟨around, before, term⟩ := site
    cases term with
    | var x index binder => exact ⟨_, member, rfl, by rw [List.mem_singleton.mp drawn]; rfl⟩
    | abs x binder body => cases drawn
    | app f a =>
      obtain ⟨left, right⟩ := sides_subset member
      rcases (joint_verticals drawn).2.2 with start | stop
      · obtain ⟨p, own, leaf, first⟩ := exists_first f around before
        exact ⟨p, left own, leaf, by rw [start, first]⟩
      · obtain ⟨p, own, leaf, first⟩ := exists_first a around (before + f.leaves)
        exact ⟨p, right own, leaf, by rw [stop, first, Nat.cast_add]⟩
  · intro p member leaf
    obtain ⟨x, index, binder, leaf⟩ := exists_variable leaf
    obtain ⟨bottom, run, -⟩ := exists_run t member leaf
    have stem : drawing p = [.vertical (2 * p.before) p.around.length (stemTop x p.around)] := by
      simp only [drawing, leaf]
    exact ⟨p.around.length, stemTop x p.around, bottom, stem, stemTop_lt x p.around,
      by rw [standing]; exact run.unbroken, run.lowest⟩
  · intro around before f a member
    obtain ⟨above, function⟩ := covered_to_root member (.inl ⟨rfl, rfl⟩)
    obtain ⟨above', argument⟩ := covered_to_root member (.inr ⟨rfl, rfl⟩)
    rw [standing]
    exact ⟨_, rfl, above, above', function, argument⟩

end ChurchScript.Diagram
