import Mathlib.Logic.Relation
import ChurchScript.Proofs.Script.Measures

/-!
# Recursive functions

The walk over the call graph finds every function that leads back to itself, by
however many steps: what it returns is closed under successors, since a node is
put behind it only together with its successors in the work still to do. It finds
no other functions (`mem_recursive_iff`).
-/
namespace ChurchScript.Script

namespace CallGraph

variable {graph : CallGraph}

theorem mem_reachable_of_work {unvisited work : List String} {node : String}
    (waiting : node ∈ work) (fresh : node ∈ unvisited) :
    node ∈ graph.reachable unvisited work := by
  fun_induction reachable graph unvisited work with
  | case1 => simp at waiting
  | case2 unvisited first rest inside _ _ ih =>
    by_cases same : node = first
    · simp [same]
    · have later : node ∈ rest := (List.mem_cons.mp waiting).resolve_left same
      refine List.mem_cons_of_mem _ (ih ?_ ?_)
      · exact List.mem_append_right _ later
      · exact (List.mem_erase_of_ne same).mpr fresh
  | case3 unvisited first rest outside ih =>
    have different : node ≠ first := fun same => outside (same ▸ fresh)
    exact ih ((List.mem_cons.mp waiting).resolve_left different) fresh

/-- A successor of a node that is found is found, if it was not visited before. -/
theorem mem_reachable_of_successor {unvisited work : List String} {node next : String}
    (found : node ∈ graph.reachable unvisited work) (edge : next ∈ graph.successors node)
    (fresh : next ∈ unvisited) : next ∈ graph.reachable unvisited work := by
  fun_induction reachable graph unvisited work with
  | case1 => simp at found
  | case2 unvisited first rest inside _ _ ih =>
    by_cases same : next = first
    · simp [same]
    · have left : next ∈ unvisited.erase first := (List.mem_erase_of_ne same).mpr fresh
      refine List.mem_cons_of_mem _ ?_
      rcases List.mem_cons.mp found with rfl | later
      · exact mem_reachable_of_work (List.mem_append_left _ edge) left
      · exact ih later left
  | case3 unvisited first rest outside ih => exact ih found fresh

/-- All nodes on a path from a node are found from it, as long as they are nodes of the
graph. -/
theorem mem_reachable_of_path {Edge : String → String → Prop}
    (edges : ∀ a b, Edge a b → b ∈ graph.successors a ∧ b ∈ graph.nodes) {start node : String}
    (path : Relation.TransGen Edge start node) :
    node ∈ graph.reachable graph.nodes (graph.successors start) := by
  induction path with
  | single edge =>
    obtain ⟨next, inside⟩ := edges _ _ edge
    exact mem_reachable_of_work next inside
  | tail _ edge ih =>
    obtain ⟨next, inside⟩ := edges _ _ edge
    exact mem_reachable_of_successor ih next inside

/-- A node that is found can be reached from one of those in the work. -/
theorem path_of_mem_reachable {unvisited work : List String} {node : String}
    (found : node ∈ graph.reachable unvisited work) :
    ∃ start ∈ work, Relation.ReflTransGen (fun a b => b ∈ graph.successors a) start node := by
  fun_induction reachable graph unvisited work with
  | case1 => simp at found
  | case2 unvisited first rest inside _ _ ih =>
    rcases List.mem_cons.mp found with rfl | later
    · exact ⟨node, by simp, .refl⟩
    · obtain ⟨start, waiting, path⟩ := ih later
      rcases List.mem_append.mp waiting with next | behind
      · exact ⟨first, by simp, .head next path⟩
      · exact ⟨start, by simp [behind], path⟩
  | case3 unvisited first rest outside ih =>
    obtain ⟨start, waiting, path⟩ := ih found
    exact ⟨start, by simp [waiting], path⟩

end CallGraph

namespace FunctionTable

variable {table : FunctionTable}

/-- A declared function refers to another one. -/
def Leads (table : FunctionTable) (f g : String) : Prop := g ∈ table.callees f

theorem mem_names_of_find {f : String} {func : Func} (found : table.find? f = some func) :
    f ∈ table.names := by
  exact List.mem_eraseDups.mpr (List.mem_map_of_mem (mem_of_find found))

theorem lookup_map_of_mem {names : List String} {callees : String → List String} {f : String}
    (member : f ∈ names) :
    (names.map fun name => (name, callees name)).lookup f = some (callees f) := by
  induction names with
  | nil => simp at member
  | cons first rest ih =>
    rw [List.map_cons, List.lookup_cons]
    by_cases same : f = first
    · simp [same]
    · rw [beq_false_of_ne same]
      exact ih ((List.mem_cons.mp member).resolve_left same)

/-- A reference to a declared function leads to it. -/
theorem leads_of_reference {f x : String} {func : Func} (found : table.find? f = some func)
    (refers : x ∈ func.references []) (declared : (table.find? x).isSome = true) :
    table.Leads f x := by
  unfold Leads callees
  rw [found]
  exact List.mem_filter.mpr ⟨refers, declared⟩

theorem callGraph_edges (f g : String) (leads : table.Leads f g) :
    g ∈ table.callGraph.successors f ∧ g ∈ table.callGraph.nodes := by
  have nodes : table.callGraph.nodes = table.names := by
    simp [callGraph, CallGraph.nodes, Function.comp_def]
  unfold Leads callees at leads
  cases found : table.find? f with
  | none => simp [found] at leads
  | some func =>
    rw [found] at leads
    obtain ⟨refers, declared⟩ := List.mem_filter.mp leads
    obtain ⟨other, foundOther⟩ := Option.isSome_iff_exists.mp declared
    refine ⟨?_, nodes ▸ mem_names_of_find foundOther⟩
    rw [CallGraph.successors, callGraph, lookup_map_of_mem (mem_names_of_find found)]
    simpa [callees, found] using leads

theorem leads_of_edge {f g : String} (edge : g ∈ table.callGraph.successors f) :
    table.Leads f g := by
  unfold CallGraph.successors callGraph at edge
  by_cases member : f ∈ table.names
  · rwa [lookup_map_of_mem member] at edge
  · have missing : (table.names.map fun name => (name, table.callees name)).lookup f = none := by
      refine List.lookup_eq_none_iff.mpr fun entry inside => ?_
      obtain ⟨name, named, rfl⟩ := List.mem_map.mp inside
      simpa using fun same : f = name => member (same ▸ named)
    rw [missing] at edge
    cases edge

/-- A function that leads back to itself is recursive. -/
theorem recursive_of_path {f : String} (cycle : Relation.TransGen table.Leads f f) :
    f ∈ table.callGraph.recursive := by
  have found := CallGraph.mem_reachable_of_path callGraph_edges cycle
  obtain ⟨g, _, last⟩ := Relation.TransGen.tail'_iff.mp cycle
  refine List.mem_filter.mpr ⟨(callGraph_edges g f last).2, ?_⟩
  exact List.contains_iff_mem.mpr found

/-- The recursive functions are those that lead back to themselves. -/
theorem mem_recursive_iff {f : String} :
    f ∈ table.callGraph.recursive ↔ Relation.TransGen table.Leads f f := by
  refine ⟨fun recursive => ?_, recursive_of_path⟩
  have found := List.contains_iff_mem.mp (List.mem_filter.mp recursive).2
  obtain ⟨g, first, path⟩ := CallGraph.path_of_mem_reachable found
  exact .head' (leads_of_edge first) (path.lift id fun _ _ => leads_of_edge)

end FunctionTable

end ChurchScript.Script
