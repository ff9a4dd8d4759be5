import ChurchScript.Proofs.Term.Depth

/-!
# The traversal that measures a term

The depth of a term is found by a loop over the subterms still to visit. Every round visits
one node (`pending_next`), so the loop ends after as many rounds as there are nodes, and what
it has found then is the depth by recursion over the term (`depth_eq_height`).
-/
namespace ChurchScript.Term

/-- The number of nodes on the longest path from the root, by recursion. -/
def height : Term → Nat
  | var .. => 1
  | abs _ _ body => 1 + body.height
  | app f a => 1 + max f.height a.height

/-- What the loop holds between two rounds: the deepest level so far, and the subterms still
to visit, each with its own level. -/
structure Traversal where
  best : Nat
  work : List (Term × Nat)

namespace Traversal

/-- The loop before its first round. -/
def start (t : Term) : Traversal := ⟨0, [(t, 1)]⟩

/-- One round: takes a subterm, and leaves its own parts to visit next. -/
def next? : Traversal → Option Traversal
  | ⟨_, []⟩ => none
  | ⟨best, (var .., level) :: rest⟩ => some ⟨max best level, rest⟩
  | ⟨best, (abs _ _ body, level) :: rest⟩ =>
    some ⟨max best level, (body, level + 1) :: rest⟩
  | ⟨best, (app f a, level) :: rest⟩ =>
    some ⟨max best level, (a, level + 1) :: (f, level + 1) :: rest⟩

/-- The loop ends after a number of rounds with a result. -/
inductive Ends : Traversal → Nat → Nat → Prop
  | done {state : Traversal} (ended : state.next? = none) : Ends state 0 state.best
  | round {state after : Traversal} {rounds result : Nat} (taken : state.next? = some after)
      (rest : Ends after rounds result) : Ends state (rounds + 1) result

variable {state after : Traversal}

/-- A round visits one node. -/
theorem pending_next (taken : state.next? = some after) :
    pending state.work = pending after.work + 1 := by
  unfold next? at taken
  split at taken <;> cases taken <;> simp only [pending, nodes] <;> omega

/-- A round changes what is known of the depth, but not what will be found. -/
theorem deepest_next (taken : state.next? = some after) :
    deepest state.best state.work = deepest after.best after.work := by
  unfold next? at taken
  split at taken <;> cases taken <;> rw [deepest]

theorem work_eq_nil_of_next (ended : state.next? = none) : state.work = [] := by
  obtain ⟨best, _ | ⟨⟨t, level⟩, rest⟩⟩ := state
  · rfl
  · cases t <;> cases ended

/-- However the loop is run, it ends after a round for every node still to visit. -/
theorem Ends.eq {rounds result : Nat} (ends : Ends state rounds result) :
    rounds = pending state.work ∧ result = deepest state.best state.work := by
  induction ends with
  | done ended => rw [work_eq_nil_of_next ended, pending, deepest]; exact ⟨rfl, rfl⟩
  | round taken rest ih =>
    rw [pending_next taken, deepest_next taken]
    exact ⟨congrArg Nat.succ ih.1, ih.2⟩

/-- The loop ends: the nodes still to visit become fewer. -/
theorem exists_ends (state : Traversal) : ∃ rounds result, Ends state rounds result := by
  cases taken : state.next? with
  | none => exact ⟨0, state.best, .done taken⟩
  | some after =>
    have fewer := pending_next taken
    obtain ⟨rounds, result, ends⟩ := exists_ends after
    exact ⟨rounds + 1, result, .round taken ends⟩
termination_by pending state.work

end Traversal

theorem depth_eq_height (t : Term) : t.depth = t.height := by
  induction t with
  | var x index binder => exact depth_var ..
  | abs x binder body ih => rw [depth_abs, ih, height, Nat.add_comm]
  | app f a function argument => rw [depth_app, function, argument, height, Nat.add_comm]

/-- The loop that measures a term ends, after one round for each node and in no other way, and
the depth it gives back is the one by recursion. -/
theorem depth_loop_ends (t : Term) :
    t.depth = t.height ∧
      ∀ rounds result : Nat, Traversal.Ends (.start t) rounds result ↔
        rounds = t.nodes ∧ result = t.height := by
  refine ⟨depth_eq_height t, fun rounds result => ⟨fun ends => ?_, ?_⟩⟩
  · obtain ⟨visited, found⟩ := ends.eq
    exact ⟨visited, found.trans (depth_eq_height t)⟩
  · rintro ⟨rfl, rfl⟩
    obtain ⟨rounds, result, ends⟩ := Traversal.exists_ends (.start t)
    obtain ⟨visited, found⟩ := ends.eq
    have count : rounds = t.nodes := visited
    have depth : result = t.height := found.trans (depth_eq_height t)
    exact depth ▸ count ▸ ends

end ChurchScript.Term
