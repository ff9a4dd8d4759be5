import ChurchScript.Proofs.Script.Recursion

/-!
# What a declared function reaches

The names that a function refers to, by itself or through the functions that it refers
to. Two tables that declare the same for all of these names have the same references
among them, and so the same recursive functions.
-/
namespace ChurchScript.Script.FunctionTable

variable {table table' : FunctionTable} {start f g x : String}

/-- A declared function refers to a name. -/
def Refers (table : FunctionTable) (f x : String) : Prop :=
  ∃ func, table.find? f = some func ∧ x ∈ func.references []

/-- A name is referred to in any number of steps. -/
abbrev Reaches (table : FunctionTable) : String → String → Prop :=
  Relation.ReflTransGen table.Refers

theorem Reaches.refer {func : Func} (reached : table.Reaches start f)
    (found : table.find? f = some func) (refers : x ∈ func.references []) :
    table.Reaches start x :=
  reached.tail ⟨func, found, refers⟩

theorem leads_iff_refers :
    table.Leads f g ↔ table.Refers f g ∧ (table.find? g).isSome = true := by
  unfold Leads callees Refers
  cases found : table.find? f with
  | none => simp
  | some func => simp [List.mem_filter]

/-- Two tables declare the same for every name that is reached from a name. -/
def SameFrom (start : String) (table table' : FunctionTable) : Prop :=
  ∀ x, table.Reaches start x → table.find? x = table'.find? x

namespace SameFrom

theorem refers_iff (same : SameFrom start table table') (reached : table.Reaches start f) :
    table.Refers f x ↔ table'.Refers f x := by
  unfold Refers
  rw [same f reached]

theorem reaches (same : SameFrom start table table') (reached : table'.Reaches start x) :
    table.Reaches start x := by
  induction reached with
  | refl => exact .refl
  | tail _ last ih => exact ih.tail ((same.refers_iff ih).mpr last)

theorem symm (same : SameFrom start table table') : SameFrom start table' table :=
  fun x reached => (same x (same.reaches reached)).symm

/-- All that a path through declared functions passes is reached. -/
theorem leads_path (same : SameFrom start table table') (reached : table.Reaches start f)
    (path : Relation.TransGen table.Leads f g) : Relation.TransGen table'.Leads f g := by
  have step {a b : String} (inside : table.Reaches start a) (leads : table.Leads a b) :
      table'.Leads a b ∧ table.Reaches start b := by
    obtain ⟨refers, declared⟩ := leads_iff_refers.mp leads
    have next := inside.tail refers
    rw [same b next] at declared
    exact ⟨leads_iff_refers.mpr ⟨(same.refers_iff inside).mp refers, declared⟩, next⟩
  have along : Relation.TransGen table'.Leads f g ∧ table.Reaches start g := by
    induction path with
    | single leads => exact (step reached leads).imp_left .single
    | tail _ leads ih => exact (step ih.2 leads).imp_left ih.1.tail
  exact along.1

/-- What is reached is recursive in both tables or in none: a way back to it passes only
what is reached, too. -/
theorem recursive_iff (same : SameFrom start table table') (reached : table.Reaches start f) :
    f ∈ table.callGraph.recursive ↔ f ∈ table'.callGraph.recursive := by
  rw [mem_recursive_iff, mem_recursive_iff]
  exact ⟨same.leads_path reached, same.symm.leads_path (same.symm.reaches reached)⟩

end SameFrom

end ChurchScript.Script.FunctionTable
