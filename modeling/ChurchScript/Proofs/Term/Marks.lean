import Mathlib.Data.List.ReduceOption
import ChurchScript.Proofs.Term.Resolution

/-!
# The marks of abstractions

An abstraction without a mark takes the next unused number, in the order in which the
abstractions are met, and one with a mark keeps it (`annotate_marks`). The numbers start behind
every mark that the term carries anywhere, so marks that are told apart stay so, as long as the
numbers do not come back to zero (`marks_fresh_and_stable`). A term that is resolved is left as
it is.
-/
namespace ChurchScript

namespace Term

/-- The marks of the abstractions, each before those inside it. -/
def marks : Term → List (Option Binder)
  | var .. => []
  | abs _ mark body => mark :: body.marks
  | app f a => f.marks ++ a.marks

/-- The number of abstractions without a mark. -/
def missing (marks : List (Option Binder)) : Nat := marks.count none

/-- Puts the numbers from `next` on, as words of 32 bits, in place of the marks that are
missing. -/
def fill (next : Nat) : List (Option Binder) → List Binder
  | [] => []
  | some mark :: rest => mark :: fill next rest
  | none :: rest => ⟨next % 2 ^ 32⟩ :: fill (next + 1) rest

section Fill

variable {next : Nat} {marks : List (Option Binder)}

@[simp] theorem missing_some (mark : Binder) (marks : List (Option Binder)) :
    missing (some mark :: marks) = missing marks := by
  simp [missing]

@[simp] theorem missing_none (marks : List (Option Binder)) :
    missing (none :: marks) = missing marks + 1 := by
  simp [missing]

@[simp] theorem missing_append (marks marks' : List (Option Binder)) :
    missing (marks ++ marks') = missing marks + missing marks' := by
  simp [missing]

theorem missing_le (marks : List (Option Binder)) : missing marks ≤ marks.length :=
  List.count_le_length

theorem fill_append (next : Nat) (marks marks' : List (Option Binder)) :
    fill next (marks ++ marks') = fill next marks ++ fill (next + missing marks) marks' := by
  induction marks generalizing next with
  | nil => rfl
  | cons mark rest ih =>
    cases mark with
    | some mark => simp [fill, ih]
    | none => simp [fill, ih, Nat.add_assoc, Nat.add_comm 1]

theorem fill_of_none (bare : ∀ mark ∈ marks, mark = none) (next : Nat) :
    fill next marks = (List.range' next marks.length).map fun n => ⟨n % 2 ^ 32⟩ := by
  induction marks generalizing next with
  | nil => rfl
  | cons mark rest ih =>
    obtain ⟨rfl, others⟩ := List.forall_mem_cons.mp bare
    simp [fill, ih others, List.range'_succ]

/-- A mark that was there is kept, and a number that was put in is not below the first. -/
theorem fill_settles (room : next + missing marks ≤ 2 ^ 32) :
    List.Forall₂ (fun mark filled => match mark with
      | some kept => filled = kept
      | none => next ≤ filled.id) marks (fill next marks) := by
  induction marks generalizing next with
  | nil => exact .nil
  | cons mark rest ih =>
    cases mark with
    | some mark =>
      rw [missing_some] at room
      exact .cons rfl (ih room)
    | none =>
      rw [missing_none] at room
      have number : next % 2 ^ 32 = next := Nat.mod_eq_of_lt (by omega)
      refine .cons number.ge ((ih (by omega)).imp fun mark filled settled => ?_)
      cases mark with
      | some kept => exact settled
      | none => exact Nat.le_of_succ_le settled

theorem mem_fill (room : next + missing marks ≤ 2 ^ 32) {filled : Binder}
    (member : filled ∈ fill next marks) : filled ∈ marks.reduceOption ∨ next ≤ filled.id := by
  induction marks generalizing next with
  | nil => cases member
  | cons mark rest ih =>
    cases mark with
    | some mark =>
      rw [missing_some] at room
      rcases List.mem_cons.mp member with rfl | behind
      · simp
      · rcases ih room behind with kept | above
        · simp [kept]
        · exact .inr above
    | none =>
      rw [missing_none] at room
      rcases List.mem_cons.mp member with rfl | behind
      · exact .inr (Nat.mod_eq_of_lt (by omega)).ge
      · rcases ih (by omega) behind with kept | above
        · simp [kept]
        · exact .inr (Nat.le_of_succ_le above)

/-- Marks that are told apart stay so, if all of them are below the first number. -/
theorem fill_nodup (room : next + missing marks ≤ 2 ^ 32)
    (distinct : marks.reduceOption.Nodup) (below : ∀ mark ∈ marks.reduceOption, mark.id < next) : (fill next marks).Nodup := by
  induction marks generalizing next with
  | nil => exact List.nodup_nil
  | cons mark rest ih =>
    cases mark with
    | some mark =>
      rw [missing_some] at room
      rw [List.reduceOption_cons_of_some] at distinct below
      obtain ⟨here, others⟩ := List.forall_mem_cons.mp below
      refine List.nodup_cons.mpr ⟨fun member => ?_, ih room distinct.of_cons others⟩
      rcases mem_fill room member with kept | above
      · exact (List.nodup_cons.mp distinct).1 kept
      · omega
    | none =>
      rw [missing_none] at room
      rw [List.reduceOption_cons_of_none] at distinct below
      have number : next % 2 ^ 32 = next := Nat.mod_eq_of_lt (by omega)
      have later : next + 1 + missing rest ≤ 2 ^ 32 := by omega
      rw [fill, number]
      refine List.nodup_cons.mpr ⟨fun member => ?_, ih later distinct fun mark kept => ?_⟩
      · rcases mem_fill later member with kept | above
        · exact absurd (below _ kept) (lt_irrefl next)
        · exact absurd above (Nat.not_succ_le_self next)
      · exact (below mark kept).trans (Nat.lt_succ_self next)

end Fill

section Annotating

variable {enclosing : Enclosing}

/-- One walk puts numbers in place of the missing marks, and goes on behind them. -/
theorem annotate_marks (t : Term) (enclosing : Enclosing) (next : Nat) :
    (t.annotate enclosing (UInt32.ofNat next)).1.marks = (fill next t.marks).map some ∧
      (t.annotate enclosing (UInt32.ofNat next)).2 = UInt32.ofNat (next + missing t.marks) := by
  induction t generalizing enclosing next with
  | var x index mark =>
    unfold annotate
    cases enclosing.find? x with
    | none => exact ⟨rfl, rfl⟩
    | some nearest => exact ⟨rfl, rfl⟩
  | abs x mark body ih =>
    cases mark with
    | none =>
      have number : (UInt32.ofNat next).toNat = next % 2 ^ 32 := UInt32.toNat_ofNat'
      have behind : UInt32.ofNat next + 1 = UInt32.ofNat (next + 1) := (UInt32.ofNat_add next 1).symm
      obtain ⟨inside, after⟩ := ih ((x, ⟨next % 2 ^ 32⟩) :: enclosing) (next + 1)
      rw [Nat.add_right_comm, Nat.add_assoc, ← missing_none] at after
      simp only [annotate, marks, fill, number, behind, inside, after, List.map_cons, and_self]
    | some mark =>
      obtain ⟨inside, after⟩ := ih ((x, mark) :: enclosing) next
      simp only [annotate, marks, fill, inside, after, missing_some, List.map_cons, and_self]
  | app f a ihf iha =>
    obtain ⟨function, between⟩ := ihf enclosing next
    obtain ⟨argument, after⟩ := iha enclosing (next + missing f.marks)
    simp only [annotate, marks, function, between, argument, after, fill_append, missing_append,
      Nat.add_assoc, List.map_append, and_self]

/-- An annotated term is left as it is, whatever number comes next. -/
theorem annotate_annotate (t : Term) (enclosing : Enclosing) (next next' : UInt32) :
    (t.annotate enclosing next).1.annotate enclosing next' =
      ((t.annotate enclosing next).1, next') := by
  induction t generalizing enclosing next next' with
  | var x index mark =>
    cases found : enclosing.find? x with
    | none => simp [annotate, found]
    | some nearest => simp [annotate, found]
  | abs x mark body ih =>
    cases mark with
    | none => simp [annotate, ih]
    | some mark => simp [annotate, ih]
  | app f a ihf iha => simp [annotate, ihf, iha]

end Annotating

/-- The first number behind every mark that a term carries. -/
def unused (t : Term) : Nat := t.maxBinder.elim 0 fun last => last.id + 1

theorem beyond_eq (t : Term) : MarkSupply.beyond t = ⟨UInt32.ofNat t.unused⟩ := by
  unfold MarkSupply.beyond unused
  cases t.maxBinder with
  | none => rfl
  | some last => rfl

theorem lt_unused {t : Term} {mark : Binder} (member : mark ∈ t.binders) : mark.id < t.unused := by
  unfold unused maxBinder
  have inside : mark.id ∈ t.binders.map Binder.id := List.mem_map_of_mem member
  cases greatest : (t.binders.map Binder.id).max? with
  | none =>
    rw [List.max?_eq_none_iff] at greatest
    rw [greatest] at inside
    cases inside
  | some last => exact Nat.lt_succ_of_le ((List.max?_eq_some_iff.mp greatest).2 _ inside)

theorem mem_binders_of_mem_marks {t : Term} {mark : Binder} (member : some mark ∈ t.marks) :
    mark ∈ t.binders := by
  induction t with
  | var x index stale => cases member
  | abs x preset body ih =>
    rcases List.mem_cons.mp member with rfl | inside
    · simp [binders]
    · simp [binders, ih inside]
  | app f a ihf iha =>
    rw [binders, List.mem_append]
    rcases List.mem_append.mp member with inside | inside
    · exact .inl (ihf inside)
    · exact .inr (iha inside)

theorem resolve_marks (t : Term) :
    t.resolve.marks = (fill t.unused t.marks).map some := by
  rw [resolve, MarkSupply.resolve, beyond_eq]
  exact (annotate_marks t [] t.unused).1

theorem resolve_resolve (t : Term) : t.resolve.resolve = t.resolve := by
  have again := annotate_annotate t [] (MarkSupply.beyond t).next (MarkSupply.beyond t.resolve).next
  exact (Prod.ext_iff.mp again).1

/-- What becomes of the mark of an abstraction: it is kept, or there was none and it gets one
that occurs nowhere in the term. -/
inductive Settled (t : Term) : Option Binder → Option Binder → Prop
  | kept (mark : Binder) : Settled t (some mark) (some mark)
  | fresh {mark : Binder} : mark ∉ t.binders → Settled t none (some mark)

theorem resolve_settled {t : Term} (room : t.unused + missing t.marks ≤ 2 ^ 32) :
    List.Forall₂ (Settled t) t.marks t.resolve.marks := by
  rw [resolve_marks, List.forall₂_map_right_iff]
  refine (fill_settles room).imp fun mark filled settled => ?_
  cases mark with
  | some kept =>
    cases settled
    exact .kept filled
  | none => exact .fresh fun member => absurd settled (Nat.not_le.mpr (lt_unused member))

theorem mem_binders_of_mem_reduceOption {t : Term} {mark : Binder}
    (member : mark ∈ t.marks.reduceOption) : mark ∈ t.binders :=
  mem_binders_of_mem_marks (List.reduceOption_mem_iff.mp member)

theorem resolve_marks_nodup {t : Term} (room : t.unused + missing t.marks ≤ 2 ^ 32)
    (distinct : t.marks.reduceOption.Nodup) : t.resolve.marks.Nodup := by
  rw [resolve_marks]
  exact List.Nodup.map (Option.some_injective _) (fill_nodup room distinct fun mark member =>
    lt_unused (mem_binders_of_mem_reduceOption member))

end Term

namespace MarkSupply

/-- Annotates terms in turn, with the marks of one supply. -/
def resolveAll (supply : MarkSupply) : List Term → List Term
  | [] => []
  | t :: rest => (supply.resolve t).1 :: resolveAll (supply.resolve t).2 rest

theorem resolveAll_marks (next : Nat) (terms : List Term) :
    (resolveAll ⟨UInt32.ofNat next⟩ terms).flatMap Term.marks =
      (Term.fill next (terms.flatMap Term.marks)).map some := by
  induction terms generalizing next with
  | nil => rfl
  | cons t rest ih =>
    obtain ⟨here, after⟩ := t.annotate_marks [] next
    simp only [resolveAll, resolve, List.flatMap_cons, here, after, ih, Term.fill_append,
      List.map_append]

theorem resolveAll_plain (supply : MarkSupply) (terms : List Term) :
    (supply.resolveAll terms).map Term.plain = terms.map Term.plain := by
  induction terms generalizing supply with
  | nil => rfl
  | cons t rest ih => simp only [resolveAll, resolve, List.map_cons, ih, t.annotate_plain]

end MarkSupply

namespace Term

theorem numbered_nodup_iff (n : Nat) :
    ((List.range n).map fun k => some (Binder.mk (k % 2 ^ 32))).Nodup ↔ n ≤ 2 ^ 32 := by
  rw [List.nodup_map_iff_inj_on List.nodup_range]
  constructor
  · intro injective
    by_contra many
    have same := injective 0 (List.mem_range.mpr (by omega)) (2 ^ 32)
      (List.mem_range.mpr (by omega)) rfl
    omega
  · intro few k inside l inside' same
    rw [List.mem_range] at inside inside'
    simp only [Option.some.injEq, Binder.mk.injEq] at same
    omega

/-- An abstraction with a mark between two without, and a variable with a stale mark. -/
def partlyMarked : Term :=
  lam "x" (abs "y" (some ⟨4⟩) (app (lam "x" (name "x")) (var "z" none (some ⟨7⟩))))

end Term
end ChurchScript
