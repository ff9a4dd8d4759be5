import ChurchScript.Proofs.Diagram.Geometry
import ChurchScript.Proofs.Term.Renaming

/-!
# A diagram is a term up to bound names

A diagram shows how far each stem reaches and no names, so terms with the same skeleton
have the same diagram (`place_eq_of_skeleton`). The other way round, the lines of a diagram
can be taken apart again into those of its sides. What comes first tells an abstraction from
an application, and the columns tell a function from its argument. As long as every variable
has an index, its skeleton can be read off the figure (`skeleton_eq_of_place`).
-/
namespace ChurchScript

namespace Skeleton

/-- Whether a term has no free variables. -/
def NoFree : Skeleton → Prop
  | free _ => False
  | bound _ => True
  | abs body => body.NoFree
  | app f a => f.NoFree ∧ a.NoFree

end Skeleton

theorem Term.nameless_noFree (t : Term) (names : List String)
    (closed : t.freeOccurrences names = []) : (t.nameless names).NoFree := by
  induction t generalizing names with
  | var x index binder =>
    have inside : x ∈ names := by
      by_contra outside
      simp [freeOccurrences, outside] at closed
    simp [nameless, inside, Skeleton.NoFree]
  | abs x binder body ih => exact ih (x :: names) closed
  | app f a ihf iha =>
    obtain ⟨function, argument⟩ := List.append_eq_nil_iff.mp closed
    exact ⟨ihf names function, iha names argument⟩

namespace Diagram

open Term

section Extent

theorem place_width (t : Term) (x y : Int) : (place x y t).width = 2 * t.leaves - 1 := by
  induction t generalizing x y with
  | var name index binder => rfl
  | abs name binder body ih => exact ih x (y + 1)
  | app f a ihf iha =>
    simp only [place, ihf, iha, leaves]
    omega

theorem place_height (t : Term) (x y : Int) : (place x y t).height = t.depth - 1 := by
  induction t generalizing x y with
  | var name index binder => simp [place]
  | abs name binder body ih =>
    simp only [place, ih, depth_abs]
    omega
  | app f a ihf iha =>
    simp only [place, ihf, iha, depth_app]
    omega

/-- Every line starts in a column of the figure. -/
theorem place_columns (t : Term) {x y : Int} {s : Segment} (drawn : s ∈ (place x y t).segments) :
    x ≤ s.x1 ∧ s.x1 < x + 2 * t.leaves := by
  induction t generalizing x y with
  | var name index binder =>
    rw [List.mem_singleton.mp drawn]
    simp only [Segment.vertical, leaves]
    omega
  | abs name binder body ih =>
    have covered := body.leaves_pos
    rcases List.mem_cons.mp drawn with rfl | inside
    · simp only [Segment.horizontal, leaves]
      omega
    · exact ih inside
  | app f a ihf iha =>
    have function := f.leaves_pos
    have argument := a.leaves_pos
    simp only [place, place_width, List.mem_append, leaves] at drawn ⊢
    rcases drawn with (joined | left) | right
    · have column := joint_column joined
      omega
    · have inside := ihf left
      omega
    · have inside := iha right
      omega

end Extent

/-- Terms with the same skeleton have the same figure. -/
theorem place_eq_of_skeleton (t : Term) {u : Term} (same : t.skeleton = u.skeleton) (x y : Int) :
    place x y t = place x y u := by
  induction t generalizing u x y with
  | var name index binder =>
    cases u with
    | var name' index' binder' =>
      cases index with
      | none =>
        cases index' with
        | none => rfl
        | some j => cases same
      | some i =>
        cases index' with
        | none => cases same
        | some j =>
          cases same
          rfl
    | abs name' binder' body => cases index <;> cases same
    | app f a => cases index <;> cases same
  | abs name binder body ih =>
    cases u with
    | var name' index' binder' => cases index' <;> cases same
    | abs name' binder' body' =>
      have inner := ih (Skeleton.abs.inj same) x (y + 1)
      simp only [place, inner]
    | app f a => cases same
  | app f a ihf iha =>
    cases u with
    | var name' index' binder' => cases index' <;> cases same
    | abs name' binder' body => cases same
    | app f' a' =>
      obtain ⟨functions, arguments⟩ := Skeleton.app.inj same
      have left := ihf functions x y
      simp only [place, left, iha arguments]

section TakingApart

variable {x m m' y h1 h2 h1' h2' : Int} {rest rest' : List Segment}

theorem extensions_of_lt (shorter : h1 < h2) (left right row : Int) :
    extensions left right row h1 h2 = [.vertical left (row + h1) (row + h2)] := by
  have level : max h1 h2 = h2 := by omega
  have apart : row + h1 ≠ row + h2 := by omega
  simp [extensions, level, Segment.vertical, Segment.isDegenerate, Segment.isHorizontal,
    Segment.isVertical, apart]

theorem extensions_of_gt (shorter : h2 < h1) (left right row : Int) :
    extensions left right row h1 h2 = [.vertical right (row + h2) (row + h1)] := by
  have level : max h1 h2 = h1 := by omega
  have apart : row + h2 ≠ row + h1 := by omega
  simp [extensions, level, Segment.vertical, Segment.isDegenerate, Segment.isHorizontal,
    Segment.isVertical, apart]

theorem extensions_self (left right row h : Int) : extensions left right row h h = [] := by
  simp [extensions, Segment.vertical, Segment.isDegenerate, Segment.isHorizontal,
    Segment.isVertical]

/-- An application's own lines show the heights of its sides and where the second one
stands. -/
theorem joint_inj (right : x < m) (right' : x < m') (bars : max h1 h2 = max h1' h2')
    (same : joint x m y h1 h2 ++ rest = joint x m' y h1' h2' ++ rest') :
    m = m' ∧ h1 = h1' ∧ h2 = h2' ∧ rest = rest' := by
  have agree : m = m' ∧ h1 = h1' ∧ h2 = h2' := by
    simp only [joint_eq, List.append_assoc] at same
    rcases lt_trichotomy h1 h2 with lt | rfl | gt <;>
      rcases lt_trichotomy h1' h2' with lt' | rfl | gt' <;>
      simp only [extensions_of_lt, extensions_of_gt, extensions_self, *,
        List.cons_append, List.nil_append, Segment.horizontal, Segment.vertical,
        List.cons.injEq, Segment.mk.injEq] at same <;> omega
  obtain ⟨rfl, rfl, rfl⟩ := agree
  exact ⟨rfl, rfl, rfl, List.append_cancel_left same⟩

/-- An abstraction starts with a bar over all its columns, an application with no such bar. -/
theorem joint_ne_bar {width : Int} (right : x < m) (inside : m < x + width) :
    joint x m y h1 h2 ++ rest ≠ .horizontal y x (x + width) :: rest' := by
  intro same
  simp only [joint_eq, List.append_assoc] at same
  rcases lt_trichotomy h1 h2 with lt | rfl | gt <;>
    simp only [extensions_of_lt, extensions_of_gt, extensions_self, *, List.cons_append,
      List.nil_append, Segment.horizontal, Segment.vertical, List.cons.injEq,
      Segment.mk.injEq] at same <;> omega

/-- Lines of two sides, one to the left of a column and one from it on, can be told apart. -/
theorem append_inj_of_columns {left left' right right' : List Segment}
    (before : ∀ s ∈ left, s.x1 < m) (before' : ∀ s ∈ left', s.x1 < m)
    (behind : ∀ s ∈ right, m ≤ s.x1) (behind' : ∀ s ∈ right', m ≤ s.x1)
    (same : left ++ right = left' ++ right') : left = left' ∧ right = right' := by
  have kept {l r : List Segment} (first : ∀ s ∈ l, s.x1 < m) (second : ∀ s ∈ r, m ≤ s.x1) :
      (l ++ r).filter (·.x1 < m) = l := by
    rw [List.filter_append, List.filter_eq_self.mpr (by simpa using first),
      List.filter_eq_nil_iff.mpr (by simpa using second), List.append_nil]
  have lefts : left = left' := by
    rw [← kept before behind, ← kept before' behind', same]
  subst lefts
  exact ⟨rfl, List.append_cancel_left same⟩

end TakingApart

section Constructors

variable {x y : Int} {body body' f f' a a' : Term} {name name' : String}
  {binder binder' : Option Binder}

theorem leaves_of_place {t u : Term} (same : place x y t = place x y u) : t.leaves = u.leaves := by
  have widths : (2 * t.leaves - 1 : Int) = 2 * u.leaves - 1 := by
    rw [← place_width t x y, ← place_width u x y, same]
  omega

theorem depth_of_place {t u : Term} (same : place x y t = place x y u) : t.depth = u.depth := by
  have heights : (t.depth - 1 : Int) = u.depth - 1 := by
    rw [← place_height t x y, ← place_height u x y, same]
  omega

theorem place_ext {t u : Term} (leaves : t.leaves = u.leaves) (depths : t.depth = u.depth)
    (segments : (place x y t).segments = (place x y u).segments) : place x y t = place x y u := by
  have widths : (place x y t).width = (place x y u).width := by
    rw [place_width, place_width, leaves]
  have heights : (place x y t).height = (place x y u).height := by
    rw [place_height, place_height, depths]
  generalize place x y t = left at segments widths heights
  generalize place x y u = right at segments widths heights
  cases left
  cases right
  exact Figure.mk.injEq .. ▸ ⟨segments, widths, heights⟩

theorem place_abs_inj
    (same : place x y (abs name binder body) = place x y (abs name' binder' body')) :
    place x (y + 1) body = place x (y + 1) body' := by
  have leaves := leaves_of_place same
  simp only [Term.leaves] at leaves
  have depths := depth_of_place same
  rw [depth_abs, depth_abs] at depths
  have segments := congrArg Figure.segments same
  simp only [place, List.cons.injEq] at segments
  exact place_ext leaves (Nat.succ.inj depths) segments.2

theorem place_app_ne_abs : place x y (app f a) ≠ place x y (abs name binder body) := by
  intro same
  have covered := a.leaves_pos
  have function := f.leaves_pos
  have widths := leaves_of_place same
  have segments := congrArg Figure.segments same
  simp only [place, List.append_assoc] at segments
  simp only [leaves] at widths
  refine joint_ne_bar ?_ ?_ segments
  · rw [place_width]
    omega
  · rw [place_width, place_width]
    omega

theorem place_app_inj (same : place x y (app f a) = place x y (app f' a')) :
    place x y f = place x y f' ∧
      place (x + 2 * f.leaves) y a = place (x + 2 * f.leaves) y a' := by
  have depths := depth_of_place same
  have leaves := leaves_of_place same
  have segments := congrArg Figure.segments same
  have middle (t : Term) : x + (2 * t.leaves - 1) + 1 = x + 2 * t.leaves := by omega
  simp only [place, place_width, place_height, middle, List.append_assoc] at segments
  have right := f.leaves_pos
  have right' := f'.leaves_pos
  rw [depth_app, depth_app] at depths
  obtain ⟨columns, function, argument, sides⟩ :=
    joint_inj (by omega) (by omega) (by omega) segments
  rw [← columns] at sides
  obtain ⟨lefts, rights⟩ := append_inj_of_columns (fun s drawn => (place_columns f drawn).2)
    (fun s drawn => columns ▸ (place_columns f' drawn).2)
    (fun s drawn => (place_columns a drawn).1) (fun s drawn => (place_columns a' drawn).1) sides
  simp only [Term.leaves] at leaves
  exact ⟨place_ext (by omega) (by omega) lefts, place_ext (by omega) (by omega) rights⟩

end Constructors

/-- The skeleton of a term without free variables can be read off its figure. -/
theorem skeleton_eq_of_place (t u : Term) {x y : Int} (bound : t.skeleton.NoFree)
    (bound' : u.skeleton.NoFree) (same : place x y t = place x y u) :
    t.skeleton = u.skeleton := by
  have depths := depth_of_place same
  induction t generalizing u x y with
  | var name index binder =>
    cases u with
    | var name' index' binder' =>
      match index, index', bound, bound' with
      | some i, some j, _, _ =>
        have equal : i = j := by simpa [place, Segment.vertical, reach] using same
        exact congrArg Skeleton.bound equal
    | abs name' binder' body =>
      have deep := body.depth_pos
      simp only [depth_var, depth_abs] at depths
      omega
    | app f a =>
      have deep := f.depth_pos
      simp only [depth_var, depth_app] at depths
      omega
  | abs name binder body ih =>
    cases u with
    | var name' index' binder' =>
      have deep := body.depth_pos
      simp only [depth_var, depth_abs] at depths
      omega
    | abs name' binder' body' =>
      have inner := place_abs_inj same
      exact congrArg Skeleton.abs (ih body' bound bound' inner (depth_of_place inner))
    | app f a => exact absurd same.symm place_app_ne_abs
  | app f a ihf iha =>
    cases u with
    | var name' index' binder' =>
      have deep := f.depth_pos
      simp only [depth_var, depth_app] at depths
      omega
    | abs name' binder' body => exact absurd same place_app_ne_abs
    | app f' a' =>
      obtain ⟨left, right⟩ := place_app_inj same
      exact congrArg₂ Skeleton.app (ihf f' bound.1 bound'.1 left (depth_of_place left))
        (iha a' bound.2 bound'.2 right (depth_of_place right))

/-- A diagram is a term up to bound names. Terms that differ in these only have the same
diagram, whether names made of digits are bound or stand for numerals. If all variables are
bound once numerals are in place, the figure determines the term up to bound names. -/
theorem diagram_determines_term (t u : Term) (bare : t.Unannotated) (bare' : u.Unannotated) :
    (AlphaEquivalent t u →
      layout t.expandNumerals.resolve = layout u.expandNumerals.resolve) ∧
    (t.expandNumerals.freeVariables = [] → u.expandNumerals.freeVariables = [] →
      layout t.expandNumerals.resolve = layout u.expandNumerals.resolve →
      AlphaEquivalent t.expandNumerals u.expandNumerals) := by
  constructor
  · intro equivalent
    apply place_eq_of_skeleton
    have expanded (v : Term) : v.expandNumerals.nameless [] = (v.nameless []).expand :=
      expandUnder_nameless v []
    rw [resolve_skeleton, resolve_skeleton, expanded, expanded, equivalent.nameless_eq]
  · intro closed closed' same
    have noFree := nameless_noFree _ [] (freeOccurrences_of_freeVariables closed)
    have noFree' := nameless_noFree _ [] (freeOccurrences_of_freeVariables closed')
    rw [← resolve_skeleton] at noFree noFree'
    have skeletons := skeleton_eq_of_place _ _ noFree noFree' same
    rw [resolve_skeleton, resolve_skeleton] at skeletons
    exact alphaEquivalent_of_nameless _ (bare.expandUnder []) (bare'.expandUnder []) skeletons

/-- An abstraction over a name made of digits, with a number in its body that stays free. -/
def numberedTerm : Term := lam "3" (app (.name "3") (.name "2"))

/-- The same with another bound name. -/
def letteredTerm : Term := lam "x" (app (.name "x") (.name "2"))

theorem numbered_diagram_determines :
    AlphaEquivalent numberedTerm letteredTerm ∧
    layout numberedTerm.expandNumerals.resolve = layout letteredTerm.expandNumerals.resolve ∧
    numberedTerm.expandNumerals.freeVariables = [] ∧
    letteredTerm.expandNumerals.freeVariables = [] ∧
    AlphaEquivalent numberedTerm.expandNumerals letteredTerm.expandNumerals := by
  have equivalent : AlphaEquivalent numberedTerm letteredTerm :=
    .abs (by decide : "z" ∉ _) (by decide) (.app (.name "z") (.name "2"))
  have closed : numberedTerm.expandNumerals.freeVariables = [] := by decide
  have closed' : letteredTerm.expandNumerals.freeVariables = [] := by decide
  obtain ⟨forward, back⟩ := diagram_determines_term numberedTerm letteredTerm
    (by simp [numberedTerm, Unannotated]) (by simp [letteredTerm, Unannotated])
  exact ⟨equivalent, forward equivalent, closed, closed', back closed closed' (forward equivalent)⟩

end Diagram
end ChurchScript
