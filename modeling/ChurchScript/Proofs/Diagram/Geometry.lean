import Mathlib.Algebra.Order.Ring.Int
import Mathlib.Data.List.TakeWhile
import ChurchScript.Diagram.Layout
import ChurchScript.Proofs.Term.Depth
import ChurchScript.Proofs.Term.Skeleton

/-!
# Where the lines of a diagram lie

Every subterm draws lines of its own, and where they lie follows from where it stands: the
abstractions around it give the row, the variables to the left of it the column
(`drawing`). A diagram is what its subterms draw, each before those inside it
(`place_eq`), so the stem of a variable ends on the bar of its abstraction, and all lines
lie within the extent of the figure.
-/
namespace ChurchScript

namespace Term

/-- The number of occurrences of variables. -/
def leaves : Term → Nat
  | var .. => 1
  | abs _ _ body => body.leaves
  | app f a => f.leaves + a.leaves

theorem leaves_pos (t : Term) : 0 < t.leaves := by
  induction t with
  | var x index binder => exact Nat.one_pos
  | abs x binder body ih => exact ih
  | app f a ihf iha => exact Nat.add_pos_left ihf _

/-- A subterm where it stands in a term: the names of the abstractions around it,
innermost first, and the number of variables to the left of it. -/
structure Site where
  around : List String
  before : Nat
  term : Term
  deriving DecidableEq, Repr

def Site.isVariable (site : Site) : Bool :=
  match site.term with
  | var .. => true
  | _ => false

/-- All subterms of a term that stands below abstractions and to the right of variables,
each before the subterms inside it, and from left to right. -/
def sites (around : List String) (before : Nat) : Term → List Site
  | var x index binder => [⟨around, before, var x index binder⟩]
  | abs x binder body =>
    ⟨around, before, abs x binder body⟩ :: body.sites (x :: around) before
  | app f a =>
    ⟨around, before, app f a⟩ :: (f.sites around before ++ a.sites around (before + f.leaves))

section Sites

variable {around : List String} {before : Nat} {site : Site}

/-- Variables are numbered from left to right. -/
theorem variables_numbered (t : Term) (around : List String) (before : Nat) :
    ((t.sites around before).filter Site.isVariable).map Site.before =
      List.range' before t.leaves := by
  induction t generalizing around before with
  | var x index binder => rfl
  | abs x binder body ih => simpa [sites, Site.isVariable, leaves] using ih (x :: around) before
  | app f a ihf iha =>
    have left := ihf around before
    have right := iha around (before + f.leaves)
    simp only [sites, Site.isVariable, List.filter_cons_of_neg, Bool.false_eq_true,
      not_false_eq_true, List.filter_append, List.map_append, leaves, ← List.range'_append_1]
    rw [← left, ← right]

/-- The subterms of a subterm stand next to each other among those of the term. -/
theorem sites_contiguous (t : Term) (member : site ∈ t.sites around before) :
    site.term.sites site.around site.before <:+: t.sites around before := by
  induction t generalizing around before with
  | var x index binder =>
    obtain rfl := List.mem_singleton.mp member
    exact List.infix_rfl
  | abs x binder body ih =>
    rcases List.mem_cons.mp member with rfl | inside
    · exact List.infix_rfl
    · exact List.infix_cons (ih inside)
  | app f a ihf iha =>
    rcases List.mem_cons.mp member with rfl | inside
    · exact List.infix_rfl
    · rcases List.mem_append.mp inside with left | right
      · exact List.infix_cons ((ihf left).trans (List.prefix_append _ _).isInfix)
      · exact List.infix_cons ((iha right).trans (List.suffix_append _ _).isInfix)

/-- A subterm covers no more than the term it stands in: no other variables, and no deeper
rows. -/
theorem site_inside (t : Term) (member : site ∈ t.sites around before) :
    around <:+ site.around ∧ before ≤ site.before ∧
      site.before + site.term.leaves ≤ before + t.leaves ∧
      site.around.length + site.term.depth ≤ around.length + t.depth := by
  induction t generalizing around before with
  | var x index binder =>
    rw [List.mem_singleton.mp member]
    simp
  | abs x binder body ih =>
    rcases List.mem_cons.mp member with rfl | inside
    · simp
    · obtain ⟨outer, first, last, deep⟩ := ih inside
      refine ⟨(List.suffix_cons x around).trans outer, first, last, ?_⟩
      simp only [List.length_cons, depth_abs] at deep ⊢
      omega
  | app f a ihf iha =>
    rcases List.mem_cons.mp member with rfl | inside
    · simp
    · rcases List.mem_append.mp inside with left | right
      · obtain ⟨outer, first, last, deep⟩ := ihf left
        refine ⟨outer, first, ?_, ?_⟩
        · simp only [leaves]
          omega
        · simp only [depth_app]
          omega
      · obtain ⟨outer, first, last, deep⟩ := iha right
        refine ⟨outer, by omega, ?_, ?_⟩
        · simp only [leaves]
          omega
        · simp only [depth_app]
          omega

/-- A name of an abstraction around a subterm, in the term itself, leads to the nearest one
of that name: the subterm stands in its body, and none between has the name. -/
theorem exists_nearest (t : Term) (member : site ∈ t.sites around before) {inner : List String}
    (split : site.around = inner ++ around) {x : String} (bound : x ∈ inner) :
    ∃ between outer first binder body, site.around = between ++ x :: outer ∧ x ∉ between ∧
      ⟨outer, first, abs x binder body⟩ ∈ t.sites around before ∧
      site ∈ body.sites (x :: outer) first := by
  induction t generalizing around before inner with
  | var y index binder =>
    rw [List.mem_singleton.mp member, List.self_eq_append_left] at split
    rw [split] at bound
    cases bound
  | abs y binder body ih =>
    rcases List.mem_cons.mp member with rfl | inside
    · rw [List.self_eq_append_left] at split
      rw [split] at bound
      cases bound
    · obtain ⟨rest, further⟩ := (site_inside body inside).1
      have outermost : inner = rest ++ [y] := by
        have both : inner ++ around = rest ++ [y] ++ around := by
          rw [← split, ← further, List.append_cons]
        exact List.append_cancel_right both
      by_cases nearer : x ∈ rest
      · obtain ⟨between, outer, first, mark, scope, nearest⟩ := ih inside further.symm nearer
        exact ⟨between, outer, first, mark, scope, nearest.1, nearest.2.1,
          List.mem_cons_of_mem _ nearest.2.2.1, nearest.2.2.2⟩
      · have here : x = y := by simpa [outermost, nearer] using bound
        exact ⟨rest, around, before, binder, body, by rw [here, further], nearer,
          by simp [here, sites], by rw [here]; exact inside⟩
  | app f a ihf iha =>
    rcases List.mem_cons.mp member with rfl | inside
    · rw [List.self_eq_append_left] at split
      rw [split] at bound
      cases bound
    · rcases List.mem_append.mp inside with left | right
      · obtain ⟨between, outer, first, mark, scope, nearest⟩ := ihf left split bound
        exact ⟨between, outer, first, mark, scope, nearest.1, nearest.2.1,
          by simp [sites, nearest.2.2.1], nearest.2.2.2⟩
      · obtain ⟨between, outer, first, mark, scope, nearest⟩ := iha right split bound
        exact ⟨between, outer, first, mark, scope, nearest.1, nearest.2.1,
          by simp [sites, nearest.2.2.1], nearest.2.2.2⟩

theorem freeOccurrences_of_freeVariables {t : Term} (closed : t.freeVariables = []) :
    t.freeOccurrences [] = [] := by
  refine List.eq_nil_iff_forall_not_mem.mpr fun x free => ?_
  have listed : x ∈ t.freeVariables := List.mem_eraseDups.mpr free
  rw [closed] at listed
  cases listed

theorem bound_of_closed (t : Term) (closed : t.freeOccurrences around = []) {x : String}
    {index : Option Nat} {binder : Option Binder} (member : site ∈ t.sites around before)
    (leaf : site.term = var x index binder) : x ∈ site.around := by
  induction t generalizing around before with
  | var y _ _ =>
    rw [List.mem_singleton.mp member] at leaf ⊢
    cases leaf
    by_contra outside
    simp [freeOccurrences, outside] at closed
  | abs y _ body ih =>
    rcases List.mem_cons.mp member with rfl | inside
    · cases leaf
    · exact ih closed inside
  | app f a ihf iha =>
    obtain ⟨function, argument⟩ := List.append_eq_nil_iff.mp closed
    rcases List.mem_cons.mp member with rfl | inside
    · cases leaf
    · rcases List.mem_append.mp inside with left | right
      · exact ihf function left
      · exact iha argument right

end Sites

/-- Whether every index of a term is the one that the names of the abstractions around say. -/
def Indexed (around : List String) : Term → Prop
  | var x index _ => index = if x ∈ around then some (around.idxOf x) else none
  | abs x _ body => body.Indexed (x :: around)
  | app f a => f.Indexed around ∧ a.Indexed around

theorem annotate_indexed (t : Term) (enclosing : Enclosing) (next : UInt32) :
    (t.annotate enclosing next).1.Indexed (enclosing.map Prod.fst) := by
  induction t generalizing enclosing next with
  | var x index binder =>
    have found := find_index x enclosing
    unfold annotate
    cases nearest : enclosing.find? x with
    | none => exact (nearest ▸ found : (none : Option (Nat × Binder)).map Prod.fst = _)
    | some entry => exact (nearest ▸ found : (some entry).map Prod.fst = _)
  | abs x binder body ih =>
    cases binder with
    | none => exact ih ((x, ⟨next.toNat⟩) :: enclosing) (next + 1)
    | some binder => exact ih ((x, binder) :: enclosing) next
  | app f a ihf iha => exact ⟨ihf _ _, iha _ _⟩

theorem resolve_indexed (t : Term) : t.resolve.Indexed [] :=
  t.annotate_indexed [] _

end Term

namespace Diagram

open Term

/-- The row in which the stem of a variable ends: the number of abstractions around its
own, or one row above the variable if none has its name. -/
def stemTop (x : String) (around : List String) : Int :=
  match around.dropWhile (· ≠ x) with
  | _ :: outer => outer.length
  | [] => around.length - 1

/-- The lines down to the bar of an application from the sides, of heights `h1` and `h2`
below `row`, that do not reach it. -/
def extensions (left right row h1 h2 : Int) : List Segment :=
  [Segment.vertical left (row + h1) (row + max h1 h2),
    .vertical right (row + h2) (row + max h1 h2)].filter (!·.isDegenerate)

/-- The lines from the bar of an application up to the roots of its sides, as far as these
do not lie on the bar. -/
def drops (left right row h1 h2 : Int) : List Segment :=
  [Segment.vertical left (row + max h1 h2) (row + max (h1 - 1) 0),
    .vertical right (row + max h1 h2) (row + max (h2 - 1) 0)].filter (!·.isDegenerate)

/-- The lines that a subterm draws by itself. A variable has a stem in its column. An
abstraction has a bar over its variables, an application one below both of its sides, from
the first variable of its function to the first of its argument. -/
def drawing (site : Site) : List Segment :=
  let row : Int := site.around.length
  let left : Int := 2 * site.before
  match site.term with
  | .var x _ _ => [.vertical left row (stemTop x site.around)]
  | .abs _ _ body => [.horizontal row left (2 * (site.before + body.leaves - 1) + 1)]
  | .app f a =>
    let right : Int := 2 * (site.before + f.leaves)
    let h1 : Int := f.depth - 1
    let h2 : Int := a.depth - 1
    extensions left right row h1 h2 ++ [.horizontal (row + max h1 h2) left right] ++
      drops left right row h1 h2

section Stems

variable {x : String}

theorem stemTop_of_bound {between : List String} (others : x ∉ between) (outer : List String) :
    stemTop x (between ++ x :: outer) = outer.length := by
  have skipped : (between ++ x :: outer).dropWhile (· ≠ x) = x :: outer := by
    rw [List.dropWhile_append_of_pos]
    · simp
    · intro y member
      simpa using fun same : y = x => others (same ▸ member)
  rw [stemTop, skipped]

theorem stemTop_of_free {around : List String} (free : x ∉ around) :
    stemTop x around = around.length - 1 := by
  have skipped : around.dropWhile (· ≠ x) = [] := by
    rw [List.dropWhile_eq_nil_iff]
    intro y member
    simpa using fun same : y = x => free (same ▸ member)
  rw [stemTop, skipped]

/-- The stem reaches as far as the index says. -/
theorem stemTop_eq (x : String) (around : List String) :
    stemTop x around = around.length -
      reach (if x ∈ around then some (around.idxOf x) else none) := by
  by_cases bound : x ∈ around
  · obtain ⟨between, outer, rfl, others⟩ := List.eq_append_cons_of_mem bound
    rw [stemTop_of_bound others, if_pos bound, List.idxOf_append_of_notMem others]
    simp only [reach, List.idxOf_cons_self, List.length_append, List.length_cons]
    omega
  · rw [stemTop_of_free bound, if_neg bound]
    rfl

theorem stemTop_nonneg {around : List String} (bound : x ∈ around) : 0 ≤ stemTop x around := by
  obtain ⟨between, outer, rfl, others⟩ := List.eq_append_cons_of_mem bound
  rw [stemTop_of_bound others]
  exact Int.natCast_nonneg _

theorem stemTop_bounds (x : String) (around : List String) :
    -1 ≤ stemTop x around ∧ stemTop x around ≤ around.length := by
  by_cases bound : x ∈ around
  · obtain ⟨between, outer, rfl, others⟩ := List.eq_append_cons_of_mem bound
    rw [stemTop_of_bound others]
    simp only [List.length_append, List.length_cons]
    omega
  · rw [stemTop_of_free bound]
    omega

end Stems

section Joints

variable {left right row h1 h2 : Int}

/-- A root that does not reach the bar is extended to it. -/
theorem joint_eq (left right row h1 h2 : Int) :
    joint left right row h1 h2 = extensions left right row h1 h2 ++
      [.horizontal (row + max h1 h2) left right] ++ drops left right row h1 h2 := by
  have extended (x h : Int) (below : h ≤ max h1 h2) :
      (if h < max h1 h2 then [Segment.vertical x (row + h) (row + max h1 h2)] else []) =
        [Segment.vertical x (row + h) (row + max h1 h2)].filter (!·.isDegenerate) := by
    by_cases short : h < max h1 h2
    · have apart : row + h ≠ row + max h1 h2 := by omega
      simp [short, Segment.vertical, Segment.isDegenerate, Segment.isHorizontal, apart]
    · have level : h = max h1 h2 := by omega
      simp [← level, Segment.vertical, Segment.isDegenerate, Segment.isHorizontal,
        Segment.isVertical]
  rw [joint, extended left h1 (le_max_left _ _), extended right h2 (le_max_right _ _),
    ← List.filter_append]
  rfl

/-- No more than one side is too short for the bar. -/
theorem length_extensions_le (left right row h1 h2 : Int) :
    (extensions left right row h1 h2).length ≤ 1 := by
  rcases le_total h1 h2 with second | first
  · simp [extensions, Segment.vertical, Segment.isDegenerate, Segment.isHorizontal,
      Segment.isVertical, second, List.filter_cons]
    split <;> simp
  · simp [extensions, Segment.vertical, Segment.isDegenerate, Segment.isHorizontal,
      Segment.isVertical, first, List.filter_cons]
    split <;> simp

theorem length_drops_le (left right row h1 h2 : Int) :
    (drops left right row h1 h2).length ≤ 2 :=
  List.length_filter_le _ _

/-- The lines beside the bar are upright, no mere points, and stand at its two ends. -/
theorem joint_verticals {s : Segment}
    (member : s ∈ extensions left right row h1 h2 ++ drops left right row h1 h2) :
    s.isVertical ∧ ¬ s.isDegenerate ∧ (s.x1 = left ∨ s.x1 = right) := by
  simp only [extensions, drops, ← List.filter_append, List.mem_filter, List.cons_append,
    List.nil_append, List.mem_cons, List.not_mem_nil, or_false] at member
  obtain ⟨four, proper⟩ := member
  refine ⟨?_, by simpa using proper, ?_⟩
  · rcases four with rfl | rfl | rfl | rfl <;> simp [Segment.vertical, Segment.isVertical]
  · rcases four with rfl | rfl | rfl | rfl <;> simp [Segment.vertical]

theorem joint_column {s : Segment} (member : s ∈ joint left right row h1 h2) :
    s.x1 = left ∨ s.x1 = right := by
  simp only [joint_eq, List.append_assoc, List.mem_append, List.mem_singleton] at member
  rcases member with extension | rfl | drop
  · exact (joint_verticals (List.mem_append_left _ extension)).2.2
  · exact .inl rfl
  · exact (joint_verticals (List.mem_append_right _ drop)).2.2

/-- Besides its bar, an application draws at most three lines. -/
theorem joint_shape (left right row h1 h2 : Int) :
    ∃ verticals : List Segment,
      (extensions left right row h1 h2 ++ [Segment.horizontal (row + max h1 h2) left right] ++
        drops left right row h1 h2).Perm (.horizontal (row + max h1 h2) left right :: verticals) ∧
      verticals.length ≤ 3 ∧
      ∀ s ∈ verticals, s.isVertical ∧ ¬ s.isDegenerate ∧ (s.x1 = left ∨ s.x1 = right) := by
  refine ⟨extensions left right row h1 h2 ++ drops left right row h1 h2, ?_, ?_,
    fun s => joint_verticals⟩
  · rw [List.append_assoc]
    exact List.perm_middle
  · have first := length_extensions_le left right row h1 h2
    have last := length_drops_le left right row h1 h2
    rw [List.length_append]
    omega

end Joints

/-- The figure of a term that stands below abstractions and to the right of variables. -/
theorem place_eq (t : Term) {around : List String} (before : Nat) (indexed : t.Indexed around) :
    place (2 * before) around.length t =
      ⟨(t.sites around before).flatMap drawing, 2 * t.leaves - 1, t.depth - 1⟩ := by
  induction t generalizing around before with
  | var x index binder =>
    have top : (around.length : Int) - reach index = stemTop x around := by
      rw [stemTop_eq, ← show index = _ from indexed]
    simp [place, sites, drawing, leaves, top]
  | abs x binder body ih =>
    have inner := ih before indexed
    have covered := body.leaves_pos
    simp only [List.length_cons, Nat.cast_add, Nat.cast_one] at inner
    simp only [place, inner, sites, List.flatMap_cons, drawing, leaves, depth_abs,
      List.singleton_append, Figure.mk.injEq, List.cons.injEq, and_true, true_and]
    refine ⟨?_, ?_⟩
    · simp only [Segment.horizontal, Segment.mk.injEq, and_true, true_and]
      omega
    · omega
  | app f a ihf iha =>
    have left := ihf before indexed.1
    have right := iha (before + f.leaves) indexed.2
    have covered := f.leaves_pos
    have middle : 2 * (before : Int) + (2 * f.leaves - 1) + 1 =
        2 * ((before + f.leaves : Nat) : Int) := by
      omega
    simp only [place, left, middle, right, sites, List.flatMap_cons, List.flatMap_append, drawing,
      joint_eq, leaves, depth_app, Figure.mk.injEq]
    refine ⟨?_, ?_, ?_⟩
    · push_cast
      simp only [List.append_assoc]
    · omega
    · omega

theorem layout_eq (t : Term) :
    layout t.resolve =
      ⟨(t.resolve.sites [] 0).flatMap drawing, 2 * t.resolve.leaves - 1, t.resolve.depth - 1⟩ :=
  place_eq t.resolve 0 t.resolve_indexed

/-- Whether both ends of a line lie from column 0 to column `width` and from row `top` to
row `bottom`. -/
def Segment.Within (s : Segment) (width top bottom : Int) : Prop :=
  (0 ≤ s.x1 ∧ s.x1 ≤ width) ∧ (0 ≤ s.x2 ∧ s.x2 ≤ width) ∧
    (top ≤ s.y1 ∧ s.y1 ≤ bottom) ∧ (top ≤ s.y2 ∧ s.y2 ≤ bottom)

theorem drawing_within {site : Site} {leaves depth : Nat} {top : Int}
    (wide : site.before + site.term.leaves ≤ leaves)
    (deep : site.around.length + site.term.depth ≤ depth) (origin : top ≤ 0)
    (stem : ∀ x index binder, site.term = var x index binder → top ≤ stemTop x site.around)
    {s : Segment} (drawn : s ∈ drawing site) : s.Within (2 * leaves - 1) top (depth - 1) := by
  obtain ⟨around, before, term⟩ := site
  cases term with
  | var x index binder =>
    have above : top ≤ stemTop x around := stem x index binder rfl
    have below := (stemTop_bounds x around).2
    simp only [Term.leaves, depth_var] at wide deep
    rw [List.mem_singleton.mp drawn]
    simp only [Segment.Within, Segment.vertical]
    omega
  | abs x binder body =>
    have covered := body.leaves_pos
    simp only [Term.leaves, depth_abs] at wide deep
    rw [List.mem_singleton.mp drawn]
    simp only [Segment.Within, Segment.horizontal]
    omega
  | app f a =>
    have covered := a.leaves_pos
    have function := f.depth_pos
    have argument := a.depth_pos
    simp only [Term.leaves, depth_app] at wide deep
    simp only [drawing, extensions, drops, List.mem_append, List.mem_filter, List.mem_cons,
      List.not_mem_nil, or_false] at drawn
    simp only [Segment.Within]
    rcases drawn with (⟨rfl | rfl, -⟩ | rfl) | ⟨rfl | rfl, -⟩ <;>
      simp only [Segment.vertical, Segment.horizontal] <;> omega

/-- The stem of a bound variable ends on the bar of the nearest abstraction of its name, in
whose body it stands. -/
theorem stem_ends_on_bar (t : Term) {around : List String} {before : Nat} {x : String}
    {index : Option Nat} {binder : Option Binder}
    (member : ⟨around, before, var x index binder⟩ ∈ t.sites [] 0) (bound : x ∈ around) :
    ∃ between outer first mark body, around = between ++ x :: outer ∧ x ∉ between ∧
      ⟨outer, first, abs x mark body⟩ ∈ t.sites [] 0 ∧
      ⟨around, before, var x index binder⟩ ∈ body.sites (x :: outer) first ∧
      stemTop x around = outer.length ∧ first ≤ before ∧ before < first + body.leaves := by
  obtain ⟨between, outer, first, mark, body, split, others, stands, inside⟩ :=
    exists_nearest t member (List.append_nil _).symm bound
  obtain ⟨-, left, right, -⟩ := site_inside body inside
  have top : stemTop x around = outer.length := by
    rw [show around = between ++ x :: outer from split, stemTop_of_bound others]
  exact ⟨between, outer, first, mark, body, split, others, stands, inside, top, left, right⟩

/-- A diagram in closed form. Its width and height follow from the number of variables and
from the depth of the term, and its lines are those that its subterms draw, in this order.
Variables are numbered from the left, and a subterm covers those from its first number on. An
application has at most three lines beside its bar. A stem ends on the bar of the abstraction
that binds the variable, and no line leaves the extent of the figure but the stem of a free
variable, by one row. -/
theorem layout_closed_form (s : Term) :
    let t := s.resolve
    let figure := layout t
    figure.width = 2 * t.leaves - 1 ∧ figure.height = t.depth - 1 ∧
    figure.segments = (t.sites [] 0).flatMap drawing ∧
    ((t.sites [] 0).filter Site.isVariable).map Site.before = List.range t.leaves ∧
    (∀ site ∈ t.sites [] 0, site.term.sites site.around site.before <:+: t.sites [] 0 ∧
      ((site.term.sites site.around site.before).filter Site.isVariable).map Site.before =
        List.range' site.before site.term.leaves) ∧
    (∀ around before f a, ⟨around, before, app f a⟩ ∈ t.sites [] 0 →
      ∃ verticals : List Segment,
        (drawing ⟨around, before, app f a⟩).Perm
          (.horizontal (around.length + max (f.depth - 1 : Int) (a.depth - 1)) (2 * before)
            (2 * (before + f.leaves)) :: verticals) ∧
        verticals.length ≤ 3 ∧
        ∀ v ∈ verticals, v.isVertical ∧ ¬ v.isDegenerate ∧
          (v.x1 = 2 * before ∨ v.x1 = 2 * (before + f.leaves))) ∧
    (∀ around before x index binder,
      ⟨around, before, var x index binder⟩ ∈ t.sites [] 0 → x ∈ around →
      ∃ between outer first mark body, around = between ++ x :: outer ∧ x ∉ between ∧
        ⟨outer, first, abs x mark body⟩ ∈ t.sites [] 0 ∧
        ⟨around, before, var x index binder⟩ ∈ body.sites (x :: outer) first ∧
        drawing ⟨around, before, var x index binder⟩ =
          [.vertical (2 * before) around.length outer.length] ∧
        drawing ⟨outer, first, abs x mark body⟩ =
          [.horizontal outer.length (2 * first) (2 * (first + body.leaves - 1) + 1)] ∧
        first ≤ before ∧ before ≤ first + body.leaves - 1) ∧
    (∀ segment ∈ figure.segments, segment.Within figure.width (-1) figure.height) ∧
    (t.freeVariables = [] →
      ∀ segment ∈ figure.segments, segment.Within figure.width 0 figure.height) := by
  intro t figure
  have closed : figure = ⟨(t.sites [] 0).flatMap drawing, 2 * t.leaves - 1, t.depth - 1⟩ :=
    layout_eq s
  rw [closed]
  refine ⟨rfl, rfl, rfl, ?_, ?_, ?_, ?_, ?_, ?_⟩
  · rw [List.range_eq_range']
    exact variables_numbered t [] 0
  · intro site member
    exact ⟨sites_contiguous t member, variables_numbered site.term site.around site.before⟩
  · intro around before f a _
    exact joint_shape _ _ _ _ _
  · intro around before x index binder member bound
    obtain ⟨between, outer, first, mark, body, split, others, stands, inside, top, left, right⟩ :=
      stem_ends_on_bar t member bound
    exact ⟨between, outer, first, mark, body, split, others, stands, inside,
      by simp only [drawing, top], rfl, left, by omega⟩
  · intro segment drawn
    obtain ⟨site, member, line⟩ := List.mem_flatMap.mp drawn
    obtain ⟨-, -, wide, deep⟩ := site_inside t member
    exact drawing_within (by omega) (by simpa using deep) (by decide)
      (fun x _ _ _ => (stemTop_bounds x site.around).1) line
  · intro noFree segment drawn
    have occurrences := freeOccurrences_of_freeVariables noFree
    obtain ⟨site, member, line⟩ := List.mem_flatMap.mp drawn
    obtain ⟨-, -, wide, deep⟩ := site_inside t member
    exact drawing_within (by omega) (by simpa using deep) le_rfl
      (fun x _ _ leaf => stemTop_nonneg (bound_of_closed t occurrences member leaf)) line

end Diagram

end ChurchScript
