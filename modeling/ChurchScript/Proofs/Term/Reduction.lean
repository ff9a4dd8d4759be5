import Mathlib.Data.List.Basic
import Mathlib.Logic.Relation
import ChurchScript.Proofs.Term.Skeleton

/-!
# Beta reduction

Reduction of skeletons: substitution, one step anywhere in a term, and any number
of steps. Terms without variables that lead outside are left alone by shifting
and substituting, so a function of several parameters takes such arguments one
after the other (`fill`).
-/
namespace ChurchScript.Skeleton

/-- Makes room for one more abstraction around the innermost `cutoff` ones. -/
def shift (cutoff : Nat) : Skeleton → Skeleton
  | free x => free x
  | bound index => bound (if index < cutoff then index else index + 1)
  | abs body => abs (body.shift (cutoff + 1))
  | app f a => app (f.shift cutoff) (a.shift cutoff)

/-- Puts a term in place of the variable that leads `depth` abstractions outside, which
takes that abstraction away. -/
def subst : Skeleton → Nat → Skeleton → Skeleton
  | free x, _, _ => free x
  | bound index, depth, a =>
    if index < depth then bound index else if index = depth then a else bound (index - 1)
  | abs body, depth, a => abs (body.subst (depth + 1) (a.shift 0))
  | app f b, depth, a => app (f.subst depth a) (b.subst depth a)

/-- One step of beta reduction, anywhere in a term. -/
inductive Step : Skeleton → Skeleton → Prop
  | beta (body a : Skeleton) : Step (app (abs body) a) (body.subst 0 a)
  | function {f f' : Skeleton} (a : Skeleton) : Step f f' → Step (app f a) (app f' a)
  | argument (f : Skeleton) {a a' : Skeleton} : Step a a' → Step (app f a) (app f a')
  | body {b b' : Skeleton} : Step b b' → Step (abs b) (abs b')

/-- Any number of steps. -/
abbrev Reduces : Skeleton → Skeleton → Prop := Relation.ReflTransGen Step

namespace Reduces

theorem beta {body a result : Skeleton} (contracted : body.subst 0 a = result) :
    Reduces (app (abs body) a) result :=
  contracted ▸ .single (.beta body a)

theorem app {f f' a a' : Skeleton} (function : Reduces f f') (argument : Reduces a a') :
    Reduces (.app f a) (.app f' a') :=
  (function.lift (Skeleton.app · a) fun _ _ => Step.function a).trans
    (argument.lift (Skeleton.app f') fun _ _ => Step.argument f')

theorem abs {b b' : Skeleton} (body : Reduces b b') : Reduces (.abs b) (.abs b') :=
  body.lift Skeleton.abs fun _ _ => Step.body

end Reduces

/-- A term put under an abstraction whose variable is then replaced comes back. -/
@[simp] theorem subst_shift (s a : Skeleton) (depth : Nat) :
    (s.shift depth).subst depth a = s := by
  induction s generalizing depth a with
  | free x => rfl
  | bound index =>
    simp only [shift, subst]
    by_cases inside : index < depth
    · simp [inside]
    · have above : ¬ index + 1 < depth := by omega
      have other : index + 1 ≠ depth := by omega
      simp [inside, above, other]
  | abs body ih => simp [shift, subst, ih]
  | app f b ihf ihb => simp [shift, subst, ihf, ihb]

/-- Every bound variable leads at most `depth` abstractions outside. -/
def ClosedAt (depth : Nat) : Skeleton → Prop
  | free _ => True
  | bound index => index < depth
  | abs body => body.ClosedAt (depth + 1)
  | app f a => f.ClosedAt depth ∧ a.ClosedAt depth

abbrev Closed (s : Skeleton) : Prop := s.ClosedAt 0

theorem ClosedAt.shift {s : Skeleton} {depth cutoff : Nat} (closed : s.ClosedAt depth)
    (inside : depth ≤ cutoff) : s.shift cutoff = s := by
  induction s generalizing depth cutoff with
  | free x => rfl
  | bound index =>
    have below : index < cutoff := Nat.lt_of_lt_of_le closed inside
    simp [Skeleton.shift, below]
  | abs body ih => exact congrArg Skeleton.abs (ih closed (Nat.succ_le_succ inside))
  | app f a ihf iha => simp [Skeleton.shift, ihf closed.1 inside, iha closed.2 inside]

theorem ClosedAt.subst {s : Skeleton} {depth level : Nat} (closed : s.ClosedAt depth)
    (inside : depth ≤ level) (a : Skeleton) : s.subst level a = s := by
  induction s generalizing depth level a with
  | free x => rfl
  | bound index =>
    have below : index < level := Nat.lt_of_lt_of_le closed inside
    simp [Skeleton.subst, below]
  | abs body ih => exact congrArg Skeleton.abs (ih closed (Nat.succ_le_succ inside) _)
  | app f b ihf ihb => simp [Skeleton.subst, ihf closed.1 inside, ihb closed.2 inside]

@[simp] theorem shift_of_closed {s : Skeleton} (closed : s.Closed) (cutoff : Nat) :
    s.shift cutoff = s :=
  closed.shift (Nat.zero_le cutoff)

@[simp] theorem subst_of_closed {s : Skeleton} (closed : s.Closed) (depth : Nat) (a : Skeleton) :
    s.subst depth a = s :=
  closed.subst (Nat.zero_le depth) a

/-- A term applied to arguments, from left to right. -/
def apps (f : Skeleton) (arguments : List Skeleton) : Skeleton :=
  arguments.foldl app f

/-- As many abstractions around a term. -/
def lams : Nat → Skeleton → Skeleton
  | 0, body => body
  | n + 1, body => abs (lams n body)

/-- The body of a function with its arguments in place, the first argument for the
outermost abstraction. -/
def fill : List Skeleton → Skeleton → Skeleton
  | [], body => body
  | a :: rest, body => fill rest (body.subst rest.length a)

section Arguments

variable {arguments : List Skeleton}

theorem Reduces.apps {f f' : Skeleton} (function : Reduces f f') (arguments : List Skeleton) :
    Reduces (f.apps arguments) (f'.apps arguments) := by
  induction arguments generalizing f f' with
  | nil => exact function
  | cons a rest ih => exact ih (function.app .refl)

theorem subst_lams {a : Skeleton} (closed : a.Closed) (n depth : Nat) (body : Skeleton) :
    (lams n body).subst depth a = lams n (body.subst (depth + n) a) := by
  induction n generalizing depth with
  | zero => rfl
  | succ n ih =>
    rw [lams, Skeleton.subst, shift_of_closed closed, ih, lams, Nat.add_right_comm]
    rfl

/-- A function applied to as many closed arguments as it has parameters. -/
theorem lams_apps_reduces (arguments : List Skeleton) (closed : ∀ a ∈ arguments, a.Closed)
    (body : Skeleton) :
    Reduces ((lams arguments.length body).apps arguments) (fill arguments body) := by
  induction arguments generalizing body with
  | nil => exact .refl
  | cons a rest ih =>
    have first : Reduces (app (lams (rest.length + 1) body) a)
        (lams rest.length (body.subst rest.length a)) := by
      apply Reduces.beta
      rw [subst_lams (closed a (by simp)), Nat.zero_add]
    exact (first.apps rest).trans (ih (fun b member => closed b (by simp [member])) _)

theorem fill_app (f a : Skeleton) :
    fill arguments (app f a) = app (fill arguments f) (fill arguments a) := by
  induction arguments generalizing f a with
  | nil => rfl
  | cons b rest ih => exact ih _ _

theorem fill_of_closed {s : Skeleton} (closed : s.Closed) : fill arguments s = s := by
  induction arguments with
  | nil => rfl
  | cons a rest ih => rw [fill, subst_of_closed closed, ih]

/-- The innermost abstraction takes the last argument. -/
theorem fill_bound (closed : ∀ a ∈ arguments, a.Closed) {index : Nat} {a : Skeleton}
    (found : arguments.reverse[index]? = some a) : fill arguments (bound index) = a := by
  induction arguments with
  | nil => simp at found
  | cons b rest ih =>
    have others : ∀ c ∈ rest, c.Closed := fun c member => closed c (by simp [member])
    rw [List.reverse_cons] at found
    rw [fill, Skeleton.subst]
    rcases Nat.lt_trichotomy index rest.length with inner | outermost | outside
    · rw [List.getElem?_append_left (by simpa using inner)] at found
      rw [if_pos inner]
      exact ih others found
    · subst outermost
      have here : b = a := by simpa using found
      rw [if_neg (Nat.lt_irrefl _), if_pos rfl, ← here]
      exact fill_of_closed (closed b (by simp))
    · rw [List.getElem?_eq_none (by simp; omega)] at found
      cases found

end Arguments

end ChurchScript.Skeleton

namespace ChurchScript.Term

/-- Names that are bound inside do not depend on the names around. -/
theorem nameless_append (t : Term) (inner outer : List String)
    (closed : t.freeOccurrences inner = []) : t.nameless (inner ++ outer) = t.nameless inner := by
  induction t generalizing inner with
  | var x index binder =>
    have inside : x ∈ inner := by
      by_contra outside
      simp [freeOccurrences, outside] at closed
    simp [nameless, inside, List.idxOf_append_of_mem inside]
  | abs x binder body ih => exact congrArg Skeleton.abs (ih (x :: inner) closed)
  | app f a ihf iha =>
    obtain ⟨left, right⟩ := List.append_eq_nil_iff.mp closed
    simp only [nameless, ihf inner left, iha inner right]

theorem nameless_closedAt (t : Term) (names : List String) :
    (t.nameless names).ClosedAt names.length := by
  induction t generalizing names with
  | var x index binder =>
    unfold nameless
    split
    · exact List.idxOf_lt_length_of_mem ‹_›
    · trivial
  | abs x binder body ih => exact ih (x :: names)
  | app f a ihf iha => exact ⟨ihf names, iha names⟩

end ChurchScript.Term
