import ChurchScript.Proofs.Script.Reachability

/-!
# Cycles of the call graph

A function is recursive if a path of references through declared functions leads back to
it. The same functions are found by way of the strongly connected components of the call
graph: those with more than one node, and those whose node refers to itself. Neither
depends on the order of the declarations.
-/
namespace ChurchScript.Script

namespace CallGraph

variable {graph : CallGraph}

def Edge (graph : CallGraph) (f g : String) : Prop := g ∈ graph.successors f

instance (graph : CallGraph) (f g : String) : Decidable (graph.Edge f g) :=
  inferInstanceAs (Decidable (g ∈ graph.successors f))

/-- Each of two nodes can be reached from the other. -/
def Connected (graph : CallGraph) (f g : String) : Prop :=
  Relation.ReflTransGen graph.Edge f g ∧ Relation.ReflTransGen graph.Edge g f

/-- The strongly connected components of a graph, each as a list of its nodes. -/
structure IsComponents (graph : CallGraph) (components : List (List String)) : Prop where
  covers : ∀ f ∈ graph.nodes, ∃ component ∈ components, f ∈ component
  nodup : ∀ component ∈ components, component.Nodup
  connected : ∀ component ∈ components, ∀ f ∈ component, ∀ g, g ∈ component ↔ graph.Connected f g

/-- A component that a path can go round in. -/
def IsCyclic (graph : CallGraph) (component : List String) : Prop :=
  1 < component.length ∨ ∃ f, component.head? = some f ∧ graph.Edge f f

/-- Another node that is connected to a node lies on a path back to it. -/
theorem Connected.cycle {f g : String} (connected : graph.Connected f g) (different : f ≠ g) :
    Relation.TransGen graph.Edge f f := by
  obtain ⟨there, back⟩ := connected
  have first := (Relation.reflTransGen_iff_eq_or_transGen.mp there).resolve_left different.symm
  exact first.trans_left back

/-- The first step of a path back to a node leads to a node that is connected to it. -/
theorem exists_connected_of_cycle {f : String} (cycle : Relation.TransGen graph.Edge f f) :
    ∃ g, graph.Edge f g ∧ graph.Connected f g := by
  obtain ⟨g, first, back⟩ := Relation.TransGen.head'_iff.mp cycle
  exact ⟨g, first, .single first, back⟩

theorem exists_ne_of_one_lt {component : List String} (nodup : component.Nodup)
    (several : 1 < component.length) (f : String) : ∃ g ∈ component, f ≠ g := by
  match component, nodup, several with
  | a :: b :: rest, nodup, _ =>
    have different : a ≠ b := fun same => (List.nodup_cons.mp nodup).1 (by simp [same])
    by_cases first : f = a
    · exact ⟨b, by simp, first ▸ different⟩
    · exact ⟨a, by simp, first⟩

/-- A node lies on a cycle exactly if its component is cyclic. -/
theorem IsComponents.cyclic_iff {components : List (List String)}
    (are : graph.IsComponents components) {component : List String}
    (member : component ∈ components) {f : String} (inside : f ∈ component) :
    graph.IsCyclic component ↔ Relation.TransGen graph.Edge f f := by
  have connected := are.connected component member f inside
  constructor
  · rintro (several | ⟨g, first, loop⟩)
    · obtain ⟨g, other, different⟩ := exists_ne_of_one_lt (are.nodup component member) several f
      exact ((connected g).mp other).cycle different
    · have around := (connected g).mp (List.mem_of_head? first)
      exact .trans_right around.1 (.trans_left (.single loop) around.2)
  · intro cycle
    obtain ⟨g, first, around⟩ := exists_connected_of_cycle cycle
    have other := (connected g).mpr around
    match component, inside, other with
    | [_], inside, other =>
      obtain rfl := List.mem_singleton.mp inside
      obtain rfl := List.mem_singleton.mp other
      exact .inr ⟨g, rfl, first⟩
    | _ :: _ :: _, _, _ => exact .inl (by simp)

end CallGraph

namespace FunctionTable

variable {table table' : FunctionTable}

theorem edge_iff_leads {f g : String} : table.callGraph.Edge f g ↔ table.Leads f g :=
  ⟨leads_of_edge, fun leads => (callGraph_edges f g leads).1⟩

theorem edge_eq_leads : table.callGraph.Edge = table.Leads :=
  funext₂ fun _ _ => propext edge_iff_leads

/-- The recursive functions are the nodes of the cyclic components. -/
theorem mem_recursive_iff_component {components : List (List String)}
    (are : table.callGraph.IsComponents components) (f : String) :
    f ∈ table.callGraph.recursive ↔
      ∃ component ∈ components, table.callGraph.IsCyclic component ∧ f ∈ component := by
  rw [mem_recursive_iff, ← edge_eq_leads]
  constructor
  · intro cycle
    obtain ⟨g, _, last⟩ := Relation.TransGen.tail'_iff.mp cycle
    have node := (callGraph_edges g f (edge_iff_leads.mp last)).2
    obtain ⟨component, member, inside⟩ := are.covers f node
    exact ⟨component, member, (are.cyclic_iff member inside).mpr cycle, inside⟩
  · rintro ⟨component, member, cyclic, inside⟩
    exact (are.cyclic_iff member inside).mp cyclic

theorem leads_congr (same : ∀ x, table'.find? x = table.find? x) : table'.Leads = table.Leads := by
  funext f g
  rw [leads_iff_refers, leads_iff_refers, Refers, Refers, same f, same g]

/-- Tables with the same functions have the same recursive functions. -/
theorem mem_recursive_congr (same : ∀ x, table'.find? x = table.find? x) (f : String) :
    f ∈ table'.callGraph.recursive ↔ f ∈ table.callGraph.recursive := by
  rw [mem_recursive_iff, mem_recursive_iff, leads_congr same]

/-- A function is found to be recursive exactly if a path of one or more references, each to
a declared function, leads from it to itself; equally, exactly if it lies in a strongly
connected component of several functions or of one that refers to itself. Another order of
the same declarations changes nothing. -/
theorem recursive_iff_on_cycle (table : FunctionTable) :
    (∀ f, f ∈ table.callGraph.recursive ↔ Relation.TransGen
      (fun f g => (∃ func, table.find? f = some func ∧ g ∈ func.references []) ∧
        (table.find? g).isSome = true) f f) ∧
    (∀ components, table.callGraph.IsComponents components → ∀ f,
      f ∈ table.callGraph.recursive ↔
        ∃ component ∈ components, table.callGraph.IsCyclic component ∧ f ∈ component) ∧
    (∀ table' : FunctionTable, (∀ x, table'.find? x = table.find? x) → ∀ f,
      f ∈ table'.callGraph.recursive ↔ f ∈ table.callGraph.recursive) := by
  refine ⟨fun f => ?_, fun components => mem_recursive_iff_component,
    fun table' => mem_recursive_congr⟩
  have leads : table.Leads = fun f g =>
      (∃ func, table.find? f = some func ∧ g ∈ func.references []) ∧
        (table.find? g).isSome = true :=
    funext₂ fun f g => propext leads_iff_refers
  rw [mem_recursive_iff, leads]

section Sample

def callOf (f : String) : Func :=
  ⟨none, [.identifier "n"], .block [.ret (some (.call (.identifier f) [.identifier "n"]))]⟩

/-- Two functions that call each other, and one that only leads to them. -/
def evenOdd : FunctionTable :=
  ⟨[("main", callOf "even"), ("even", callOf "odd"), ("odd", callOf "even")]⟩

theorem evenOdd_graph :
    evenOdd.callGraph = ⟨[("main", ["even"]), ("even", ["odd"]), ("odd", ["even"])]⟩ := by
  decide +kernel

theorem evenOdd_edge {f g : String} (edge : evenOdd.callGraph.Edge f g) :
    f = "main" ∧ g = "even" ∨ f = "even" ∧ g = "odd" ∨ f = "odd" ∧ g = "even" := by
  rw [evenOdd_graph] at edge
  unfold CallGraph.Edge CallGraph.successors at edge
  simp only [List.lookup_cons] at edge
  grind

theorem evenOdd_even : evenOdd.callGraph.Edge "even" "odd" := by
  rw [evenOdd_graph]
  decide

theorem evenOdd_odd : evenOdd.callGraph.Edge "odd" "even" := by
  rw [evenOdd_graph]
  decide

/-- The two functions lead to each other and to nothing else. -/
theorem evenOdd_path {f g : String} (inside : f ∈ ["odd", "even"])
    (path : Relation.ReflTransGen evenOdd.callGraph.Edge f g) : g ∈ ["odd", "even"] := by
  induction path with
  | refl => exact inside
  | tail _ last ih =>
    rcases evenOdd_edge last with ⟨rfl, rfl⟩ | ⟨rfl, rfl⟩ | ⟨rfl, rfl⟩
    · simp at ih
    · simp
    · simp

theorem evenOdd_connected {f g : String} (first : f ∈ ["odd", "even"])
    (second : g ∈ ["odd", "even"]) : Relation.ReflTransGen evenOdd.callGraph.Edge f g := by
  simp only [List.mem_cons, List.not_mem_nil, or_false] at first second
  rcases first with rfl | rfl <;> rcases second with rfl | rfl
  · exact .refl
  · exact .single evenOdd_odd
  · exact .single evenOdd_even
  · exact .refl

theorem evenOdd_components : evenOdd.callGraph.IsComponents [["odd", "even"], ["main"]] where
  covers f node := by
    rw [evenOdd_graph] at node
    simp only [CallGraph.nodes, List.map_cons, List.map_nil] at node
    grind
  nodup := by decide
  connected component member f inside g := by
    rcases List.mem_pair.mp member with rfl | rfl
    · exact ⟨fun other => ⟨evenOdd_connected inside other, evenOdd_connected other inside⟩,
        fun around => evenOdd_path inside around.1⟩
    · obtain rfl := List.mem_singleton.mp inside
      rw [List.mem_singleton]
      constructor
      · rintro rfl
        exact ⟨.refl, .refl⟩
      · intro around
        -- nothing leads to the third function
        cases around.2 with
        | refl => rfl
        | tail _ last => simpa using evenOdd_edge last

theorem evenOdd_recursive :
    evenOdd.callGraph.IsComponents [["odd", "even"], ["main"]] ∧
      "even" ∈ evenOdd.callGraph.recursive ∧ "odd" ∈ evenOdd.callGraph.recursive ∧
      "main" ∉ evenOdd.callGraph.recursive := by
  have iff := (recursive_iff_on_cycle evenOdd).2.1 _ evenOdd_components
  refine ⟨evenOdd_components, ?_, ?_, ?_⟩
  · exact (iff "even").mpr ⟨["odd", "even"], by simp, .inl (by simp), by simp⟩
  · exact (iff "odd").mpr ⟨["odd", "even"], by simp, .inl (by simp), by simp⟩
  · intro recursive
    obtain ⟨component, member, cyclic, inside⟩ := (iff "main").mp recursive
    rcases List.mem_pair.mp member with rfl | rfl
    · simp at inside
    · rcases cyclic with several | ⟨f, first, loop⟩
      · simp at several
      · cases first
        simpa using evenOdd_edge loop

end Sample

end FunctionTable

end ChurchScript.Script
