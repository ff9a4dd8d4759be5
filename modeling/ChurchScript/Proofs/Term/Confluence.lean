import ChurchScript.Proofs.Term.Reduction

/-!
# Confluence of beta reduction

Two reductions of one term can be brought together again, so a term reduces to one
normal form at most (`Normal.unique`). A parallel step contracts any of the redexes
that a term has, all at once. Whichever it contracts, the term with all of them
contracted (`development`) is one parallel step away.
-/
namespace ChurchScript.Skeleton

section Shifting

variable {inner outer : Nat}

theorem shift_shift (s : Skeleton) (order : inner ≤ outer) :
    (s.shift outer).shift inner = (s.shift inner).shift (outer + 1) := by
  induction s generalizing inner outer with
  | free x => rfl
  | bound index => grind [shift]
  | abs body ih => simp only [shift, ih (Nat.succ_le_succ order)]
  | app f a ihf iha => simp only [shift, ihf order, iha order]

/-- Shifting inside the variable that is replaced. -/
theorem subst_shift_inside (s a : Skeleton) (order : inner ≤ outer) :
    (s.subst outer a).shift inner = (s.shift inner).subst (outer + 1) (a.shift inner) := by
  induction s generalizing inner outer a with
  | free x => rfl
  | bound index => grind [shift, subst]
  | abs body ih =>
    simp only [shift, subst, ih _ (Nat.succ_le_succ order), shift_shift a (Nat.zero_le inner)]
  | app f b ihf ihb => simp only [shift, subst, ihf _ order, ihb _ order]

/-- Shifting outside the variable that is replaced. -/
theorem subst_shift_outside (s a : Skeleton) (order : inner ≤ outer) :
    (s.subst inner a).shift outer = (s.shift (outer + 1)).subst inner (a.shift outer) := by
  induction s generalizing inner outer a with
  | free x => rfl
  | bound index => grind [shift, subst]
  | abs body ih =>
    simp only [shift, subst, ih _ (Nat.succ_le_succ order), shift_shift a (Nat.zero_le outer)]
  | app f b ihf ihb => simp only [shift, subst, ihf _ order, ihb _ order]

/-- Two replacements in either order. -/
theorem subst_subst (s a b : Skeleton) (order : inner ≤ outer) :
    (s.subst inner a).subst outer b =
      (s.subst (outer + 1) (b.shift inner)).subst inner (a.subst outer b) := by
  induction s generalizing inner outer a b with
  | free x => rfl
  | bound index => grind [subst, subst_shift]
  | abs body ih =>
    simp only [subst, ih _ _ (Nat.succ_le_succ order), shift_shift b (Nat.zero_le inner),
      subst_shift_inside a b (Nat.zero_le outer)]
  | app f c ihf ihc => simp only [subst, ihf _ _ order, ihc _ _ order]

end Shifting

/-- Contracts any of the redexes of a term at once. -/
inductive Parallel : Skeleton → Skeleton → Prop
  | free (x : String) : Parallel (free x) (free x)
  | bound (index : Nat) : Parallel (bound index) (bound index)
  | abs {b b' : Skeleton} : Parallel b b' → Parallel (abs b) (abs b')
  | app {f f' a a' : Skeleton} : Parallel f f' → Parallel a a' → Parallel (app f a) (app f' a')
  | beta {b b' a a' : Skeleton} : Parallel b b' → Parallel a a' →
      Parallel (app (abs b) a) (b'.subst 0 a')

namespace Parallel

variable {s s' a a' : Skeleton}

theorem refl (s : Skeleton) : Parallel s s := by
  induction s with
  | free x => exact free x
  | bound index => exact bound index
  | abs body ih => exact abs ih
  | app f a ihf iha => exact app ihf iha

theorem of_step (step : Step s s') : Parallel s s' := by
  induction step with
  | beta body a => exact beta (refl body) (refl a)
  | function a _ ih => exact app ih (refl a)
  | argument f _ ih => exact app (refl f) ih
  | body _ ih => exact abs ih

theorem reduces (parallel : Parallel s s') : Reduces s s' := by
  induction parallel with
  | free x => exact .refl
  | bound index => exact .refl
  | abs _ ih => exact ih.abs
  | app _ _ ihf iha => exact ihf.app iha
  | beta _ _ ihb iha => exact (ihb.abs.app iha).trans (Reduces.beta rfl)

theorem shift (parallel : Parallel s s') (cutoff : Nat) :
    Parallel (s.shift cutoff) (s'.shift cutoff) := by
  induction parallel generalizing cutoff with
  | free x => exact refl _
  | bound index => exact refl _
  | abs _ ih => exact abs (ih (cutoff + 1))
  | app _ _ ihf iha => exact app (ihf cutoff) (iha cutoff)
  | @beta b b' a a' _ _ ihb iha =>
    rw [subst_shift_outside b' a' (Nat.zero_le cutoff)]
    exact beta (ihb (cutoff + 1)) (iha cutoff)

theorem subst (parallel : Parallel s s') (argument : Parallel a a') (depth : Nat) :
    Parallel (s.subst depth a) (s'.subst depth a') := by
  induction parallel generalizing a a' depth with
  | free x => exact refl _
  | bound index =>
    simp only [Skeleton.subst]
    split_ifs
    · exact refl _
    · exact argument
    · exact refl _
  | abs _ ih => exact abs (ih (argument.shift 0) (depth + 1))
  | app _ _ ihf iha => exact app (ihf argument depth) (iha argument depth)
  | @beta b b' c c' _ _ ihb ihc =>
    rw [subst_subst b' c' a' (Nat.zero_le depth)]
    exact beta (ihb (argument.shift 0) (depth + 1)) (ihc argument depth)

end Parallel

/-- A term with all of its redexes contracted. -/
def development : Skeleton → Skeleton
  | free x => free x
  | bound index => bound index
  | abs body => abs body.development
  | app (abs body) a => body.development.subst 0 a.development
  | app f a => app f.development a.development

/-- Redexes that a parallel step left can be contracted in the next one. -/
theorem Parallel.development {s s' : Skeleton} (parallel : Parallel s s') :
    Parallel s' s.development := by
  induction parallel with
  | free x => exact refl _
  | bound index => exact refl _
  | abs _ ih => exact abs ih
  | beta _ _ ihb iha => exact ihb.subst iha 0
  | app function _ ihf iha =>
    cases function with
    | free x => exact app ihf iha
    | bound index => exact app ihf iha
    | app _ _ => exact app ihf iha
    | beta _ _ => exact app ihf iha
    | abs _ =>
      -- The redex was not contracted, so the function is still an abstraction.
      cases ihf with
      | abs body => exact beta body iha

theorem reduces_iff_parallel {s s' : Skeleton} :
    Reduces s s' ↔ Relation.ReflTransGen Parallel s s' := by
  constructor
  · intro steps
    exact steps.lift id fun _ _ => Parallel.of_step
  · intro steps
    induction steps with
    | refl => exact .refl
    | tail _ step ih => exact ih.trans step.reduces

theorem Reduces.join {s left right : Skeleton} (toLeft : Reduces s left)
    (toRight : Reduces s right) : ∃ common, Reduces left common ∧ Reduces right common := by
  have diamond (t u v : Skeleton) (first : Parallel t u) (second : Parallel t v) :
      ∃ w, Relation.ReflGen Parallel u w ∧ Relation.ReflTransGen Parallel v w :=
    ⟨t.development, .single first.development, .single second.development⟩
  obtain ⟨common, fromLeft, fromRight⟩ := Relation.church_rosser diamond
    (reduces_iff_parallel.mp toLeft) (reduces_iff_parallel.mp toRight)
  exact ⟨common, reduces_iff_parallel.mpr fromLeft, reduces_iff_parallel.mpr fromRight⟩

def isAbs : Skeleton → Bool
  | abs _ => true
  | _ => false

/-- A term without redexes. -/
def Normal : Skeleton → Prop
  | free _ => True
  | bound _ => True
  | abs body => body.Normal
  | app f a => f.isAbs = false ∧ f.Normal ∧ a.Normal

namespace Normal

theorem not_step {s s' : Skeleton} (normal : s.Normal) : ¬ Step s s' := by
  intro step
  induction step with
  | beta body a => cases normal.1
  | function a _ ih => exact ih normal.2.1
  | argument f _ ih => exact ih normal.2.2
  | body _ ih => exact ih normal

theorem eq_of_reduces {s s' : Skeleton} (normal : s.Normal) (reduces : Reduces s s') : s' = s := by
  cases reduces.cases_head with
  | inl same => exact same.symm
  | inr step =>
    obtain ⟨_, first, _⟩ := step
    exact absurd first normal.not_step

/-- A term reduces to at most one normal form. -/
theorem unique {s n n' : Skeleton} (normal : n.Normal) (normal' : n'.Normal)
    (reduces : Reduces s n) (reduces' : Reduces s n') : n = n' := by
  obtain ⟨common, left, right⟩ := reduces.join reduces'
  rw [← normal.eq_of_reduces left, normal'.eq_of_reduces right]

end Normal

end ChurchScript.Skeleton
