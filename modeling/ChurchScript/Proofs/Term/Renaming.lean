import Mathlib.Data.Fintype.EquivFin
import ChurchScript.Proofs.Term.Reduction
import ChurchScript.Term.Numeral

/-!
# Terms up to the names of their abstractions

Two abstractions say the same if their bodies do once both bound names are replaced by a
name that occurs in neither (`AlphaEquivalent`). For terms without annotations this is
the same as having one skeleton (`alphaEquivalent_iff`), so a skeleton is a term up to
its bound names. Putting numerals in place of free numbers does not depend on these names
either (`expandUnder_nameless`).
-/
namespace ChurchScript

namespace Skeleton

/-- Puts numerals in place of the free names that stand for one. -/
def expand : Skeleton → Skeleton
  | free x =>
    match Term.numeralValue? x with
    | some n => (Term.numeral n).nameless []
    | none => free x
  | bound index => bound index
  | abs body => abs body.expand
  | app f a => app f.expand a.expand

end Skeleton

namespace Term

/-- Every name that occurs in a term, of a variable or of an abstraction. -/
def occurring : Term → List String
  | var x _ _ => [x]
  | abs x _ body => x :: body.occurring
  | app f a => f.occurring ++ a.occurring

/-- Replaces the free occurrences of a name by another name. -/
def rename (x z : String) : Term → Term
  | var y index binder => if y = x then name z else var y index binder
  | abs y binder body => if y = x then abs y binder body else abs y binder (body.rename x z)
  | app f a => app (f.rename x z) (a.rename x z)

/-- Whether a term carries neither indices nor marks. -/
def Unannotated : Term → Prop
  | var _ index binder => index = none ∧ binder = none
  | abs _ binder body => binder = none ∧ body.Unannotated
  | app f a => f.Unannotated ∧ a.Unannotated

/-- Terms without annotations that differ in their bound names only. -/
inductive AlphaEquivalent : Term → Term → Prop
  | name (x : String) : AlphaEquivalent (name x) (name x)
  | abs {x y z : String} {body body' : Term} : z ∉ body.occurring → z ∉ body'.occurring →
      AlphaEquivalent (body.rename x z) (body'.rename y z) →
      AlphaEquivalent (lam x body) (lam y body')
  | app {f f' a a' : Term} : AlphaEquivalent f f' → AlphaEquivalent a a' →
      AlphaEquivalent (app f a) (app f' a')

section Names

variable {z : String}

/-- The skeleton of a term depends on what its names mean and on nothing else. -/
theorem nameless_congr (t : Term) {names names' : List String}
    (same : ∀ y ∈ t.occurring, (name y).nameless names = (name y).nameless names') :
    t.nameless names = t.nameless names' := by
  induction t generalizing names names' with
  | var y index binder => exact same y (by simp [occurring])
  | abs y binder body ih =>
    refine congrArg Skeleton.abs (ih fun w member => ?_)
    have outside := same w (by simp [occurring, member])
    by_cases here : w = y
    · simp [nameless, here]
    · simp only [nameless] at outside ⊢
      grind
  | app f a ihf iha =>
    have left := ihf fun w member => same w (by simp [occurring, member])
    have right := iha fun w member => same w (by simp [occurring, member])
    simp only [nameless, left, right]

/-- A name that occurs nowhere else can stand for the name of an enclosing abstraction. -/
theorem nameless_rename (t : Term) (x : String) (fresh : z ∉ t.occurring)
    (inner names : List String) (notOld : x ∉ inner) (notNew : z ∉ inner) :
    (t.rename x z).nameless (inner ++ z :: names) = t.nameless (inner ++ x :: names) := by
  induction t generalizing inner with
  | var y index binder =>
    have other : z ≠ y := by simpa [occurring] using fresh
    by_cases old : y = x
    · simp [rename, old, nameless, List.idxOf_append_of_notMem notOld,
        List.idxOf_append_of_notMem notNew]
    · by_cases inside : y ∈ inner
      · simp [rename, old, nameless, inside, List.idxOf_append_of_mem inside]
      · simp [rename, old, nameless, inside, other.symm, List.idxOf_append_of_notMem inside,
          Ne.symm old, other]
  | abs y binder body ih =>
    simp only [occurring, List.mem_cons, not_or] at fresh
    by_cases old : y = x
    · -- the abstraction shadows the name, so neither of the two is looked up
      simp only [rename, if_pos old, nameless]
      refine congrArg Skeleton.abs (nameless_congr body fun w member => ?_)
      have other : w ≠ z := fun h => fresh.2 (h ▸ member)
      simp only [nameless]
      grind
    · simp only [rename, if_neg old, nameless]
      exact congrArg Skeleton.abs (ih fresh.2 (y :: inner)
        (by simp [Ne.symm old, notOld]) (by simp [fresh.1, notNew]))
  | app f a ihf iha =>
    simp only [occurring, List.mem_append, not_or] at fresh
    simp only [rename, nameless, ihf fresh.1 inner notOld notNew, iha fresh.2 inner notOld notNew]

theorem rename_nodes (t : Term) (x z : String) : (t.rename x z).nodes = t.nodes := by
  induction t with
  | var y index binder =>
    unfold rename
    split <;> rfl
  | abs y binder body ih =>
    unfold rename
    split
    · rfl
    · simp [nodes, ih]
  | app f a ihf iha => simp [rename, nodes, ihf, iha]

theorem Unannotated.rename {t : Term} (bare : t.Unannotated) (x z : String) :
    (t.rename x z).Unannotated := by
  induction t with
  | var y index binder =>
    unfold Term.rename
    split
    · exact ⟨rfl, rfl⟩
    · exact bare
  | abs y binder body ih =>
    unfold Term.rename
    split
    · exact bare
    · exact ⟨bare.1, ih bare.2⟩
  | app f a ihf iha => exact ⟨ihf bare.1, iha bare.2⟩

end Names

theorem AlphaEquivalent.nameless_eq {t u : Term} (equivalent : AlphaEquivalent t u)
    (names : List String) : t.nameless names = u.nameless names := by
  induction equivalent generalizing names with
  | name x => rfl
  | @abs x y z body body' fresh fresh' _ ih =>
    have left := nameless_rename body x fresh [] names (by simp) (by simp)
    have right := nameless_rename body' y fresh' [] names (by simp) (by simp)
    exact congrArg Skeleton.abs (left.symm.trans ((ih (z :: names)).trans right))
  | app _ _ ihf iha => simp only [nameless, ihf names, iha names]

/-- Terms with the same skeleton differ in their bound names only. The induction is on
the number of nodes, which renaming a body does not change. -/
theorem alphaEquivalent_of_nameless (t : Term) {u : Term} {names : List String}
    (bare : t.Unannotated) (bare' : u.Unannotated) (same : t.nameless names = u.nameless names) :
    AlphaEquivalent t u := by
  induction size : t.nodes using Nat.strong_induction_on generalizing t u names with
  | _ size ih =>
    subst size
    match t, u, bare, bare', same with
    | var x _ _, var y _ _, ⟨rfl, rfl⟩, ⟨rfl, rfl⟩, same =>
      have named : x = y := by
        simp only [nameless] at same
        grind [List.idxOf_inj]
      exact named ▸ .name x
    | abs x _ body, abs y _ body', ⟨rfl, bare⟩, ⟨rfl, bare'⟩, same =>
      obtain ⟨z, fresh⟩ := Infinite.exists_notMem_finset
        (body.occurring ++ body'.occurring).toFinset
      simp only [List.mem_toFinset, List.mem_append, not_or] at fresh
      have left := nameless_rename body x fresh.1 [] names (by simp) (by simp)
      have right := nameless_rename body' y fresh.2 [] names (by simp) (by simp)
      have bodies : body.nameless (x :: names) = body'.nameless (y :: names) :=
        Skeleton.abs.inj same
      refine .abs fresh.1 fresh.2 (ih _ ?_ (body.rename x z) (bare.rename x z) (bare'.rename y z)
        (left.trans (bodies.trans right.symm)) rfl)
      simp only [rename_nodes, nodes]
      omega
    | app f a, app f' a', bare, bare', same =>
      obtain ⟨functions, arguments⟩ := Skeleton.app.inj same
      refine .app (ih _ ?_ f bare.1 bare'.1 functions rfl) (ih _ ?_ a bare.2 bare'.2 arguments rfl)
      · simp only [nodes]
        omega
      · simp only [nodes]
        omega
    | var x _ _, abs _ _ _, _, _, same | var x _ _, app _ _, _, _, same =>
      simp only [nameless] at same
      split at same <;> cases same
    | abs _ _ _, var x _ _, _, _, same | app _ _, var x _ _, _, _, same =>
      simp only [nameless] at same
      split at same <;> cases same
    | abs _ _ _, app _ _, _, _, same | app _ _, abs _ _ _, _, _, same => cases same

/-- Terms without annotations differ in their bound names only if their skeletons are the
same. -/
theorem alphaEquivalent_iff {t u : Term} (bare : t.Unannotated) (bare' : u.Unannotated) :
    AlphaEquivalent t u ↔ t.nameless [] = u.nameless [] :=
  ⟨fun equivalent => equivalent.nameless_eq [], alphaEquivalent_of_nameless t bare bare'⟩

section Numerals

theorem numeral_freeOccurrences (n : Nat) (bound : List String) :
    (numeral n).freeOccurrences bound = [] := by
  change (iterate (name "f") (name "x") n).freeOccurrences ("x" :: "f" :: bound) = []
  induction n with
  | zero => rfl
  | succ n ih => simp [iterate, freeOccurrences, ih]

theorem numeral_unannotated (n : Nat) : (numeral n).Unannotated := by
  refine ⟨rfl, rfl, ?_⟩
  induction n with
  | zero => exact ⟨rfl, rfl⟩
  | succ n ih => exact ⟨⟨rfl, rfl⟩, ih⟩

theorem Unannotated.expandUnder {t : Term} (bare : t.Unannotated) (bound : List String) :
    (t.expandUnder bound).Unannotated := by
  induction t generalizing bound with
  | var x index binder =>
    unfold Term.expandUnder
    split
    · split
      · exact bare
      · exact numeral_unannotated _
    · exact bare
  | abs x binder body ih => exact ⟨bare.1, ih bare.2 (x :: bound)⟩
  | app f a ihf iha => exact ⟨ihf bare.1 bound, iha bare.2 bound⟩

/-- A name counts as a number where it is free, whatever the bound names are. -/
theorem expandUnder_nameless (t : Term) (names : List String) :
    (t.expandUnder names).nameless names = (t.nameless names).expand := by
  induction t generalizing names with
  | var x index binder =>
    unfold expandUnder
    by_cases inside : x ∈ names
    · cases numeralValue? x <;> simp [nameless, inside, Skeleton.expand]
    · cases value : numeralValue? x with
      | none => simp [nameless, inside, Skeleton.expand, value]
      | some n =>
        have closed := nameless_append (numeral n) [] names (numeral_freeOccurrences n [])
        rw [List.nil_append] at closed
        simp [nameless, inside, Skeleton.expand, value, closed]
  | abs x binder body ih => exact congrArg Skeleton.abs (ih (x :: names))
  | app f a ihf iha => simp only [expandUnder, nameless, Skeleton.expand, ihf, iha]

end Numerals

end Term
end ChurchScript
