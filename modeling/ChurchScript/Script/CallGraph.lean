import ChurchScript.Script.References

/-!
# Call graph

A function leads to every declared function that it refers to. A function that
leads back to itself in one or more steps is recursive.
-/
namespace ChurchScript.Script

/-- The declared functions in source order. Of several with one name the last
counts. -/
structure FunctionTable where
  declarations : List (String × Func)

namespace FunctionTable

def find? (table : FunctionTable) (name : String) : Option Func :=
  table.declarations.reverse.lookup name

def names (table : FunctionTable) : List String :=
  (table.declarations.map Prod.fst).eraseDups

/-- The declared functions that a declared function refers to. -/
def callees (table : FunctionTable) (name : String) : List String :=
  match table.find? name with
  | some func => (func.references []).filter fun callee => (table.find? callee).isSome
  | none => []

end FunctionTable

def Program.table (program : Program) : FunctionTable :=
  ⟨program.functions⟩

/-- Nodes, each with the nodes that it leads to. -/
structure CallGraph where
  edges : List (String × List String)
  deriving DecidableEq, Repr

namespace CallGraph

def nodes (graph : CallGraph) : List String :=
  graph.edges.map Prod.fst

def successors (graph : CallGraph) (node : String) : List String :=
  (graph.edges.lookup node).getD []

/-- The nodes in `unvisited` that can be reached from those in `work` by way of such
nodes, in the order of a walk that goes into depth first. -/
def reachable (graph : CallGraph) (unvisited work : List String) : List String :=
  match work with
  | [] => []
  | node :: rest =>
    if h : node ∈ unvisited then
      have := List.length_pos_of_mem h
      have := List.length_erase_of_mem h
      node :: graph.reachable (unvisited.erase node) (graph.successors node ++ rest)
    else graph.reachable unvisited rest
termination_by (unvisited.length, work.length)
decreasing_by
  · exact Prod.Lex.left _ _ (by omega)
  · exact Prod.Lex.right _ (by simp)

/-- The nodes that lead back to themselves. -/
def recursive (graph : CallGraph) : List String :=
  graph.nodes.filter fun node =>
    (graph.reachable graph.nodes (graph.successors node)).contains node

end CallGraph

def FunctionTable.callGraph (table : FunctionTable) : CallGraph :=
  ⟨table.names.map fun name => (name, table.callees name)⟩

end ChurchScript.Script
