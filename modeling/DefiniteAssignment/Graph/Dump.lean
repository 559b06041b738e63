import DefiniteAssignment.Guarantee.Report
/-!
# Dumps of graphs and dominators

The text of a control flow graph, and that of the dominators of its nodes with the tree that they
form. Both are lists of lines.
-/

namespace DefiniteAssignment

/-- The names of nodes in brackets. -/
def Report.nodeList (nodes : List Nat) : String :=
  nameList (nodes.map nodeName)

namespace Graph

/-- The lines of a graph: its nodes in post order, the successors of every node, the predecessors of
every node, and the nodes without successors. -/
def dump (g : Graph) : List String :=
  let nodes := List.range g.size
  ["cfg_postorder:"] ++ g.reversePostOrder.reverse.map Report.nodeName ++
  ["edges:"] ++
    nodes.map (fun n => Report.nodeName n ++ " -> " ++ Report.nodeList (g.succ n)) ++
  ["predecessors:"] ++
    nodes.map (fun n => Report.nodeName n ++ ": " ++ Report.nodeList (g.pred n)) ++
  ["exits: " ++ Report.nodeList g.exits]

end Graph

namespace Dominators

/-- The nodes whose immediate dominator is a given one, ascending, for each node. -/
def childTable (d : Dominators) : Array (List Nat) :=
  (List.range d.size).foldr
    (fun n table =>
      match d.immediateDominator? n with
      | some up => table.modify up (n :: ·)
      | none => table)
    (Array.replicate d.size [])

/-- The line of a node in the tree: its name and those of its children. -/
def treeLine (n : Nat) (children : List Nat) : String :=
  Report.nodeName n ++ ":" ++ String.join (children.map fun m => " " ++ Report.nodeName m)

/-- The lines of the tree below a node, the node's own first. No branch of a tree of `fuel` nodes is
longer than that. -/
def preorder (table : Array (List Nat)) : Nat → Nat → List String
  | 0, _ => []
  | fuel + 1, n =>
    let children := table[n]?.getD []
    treeLine n children :: children.flatMap (preorder table fuel)

/-- The lines of the tree from the entry down. -/
def preorderLines (g : Graph) (d : Dominators) : List String :=
  match g.entry with
  | some entry => preorder d.childTable g.size entry
  | none => []

/-- The lines of the dominators: the tree, then the dominators of every node. -/
def dump (g : Graph) (d : Dominators) : List String :=
  ["domtree_preorder \x7b"] ++ preorderLines g d ++ ["\x7d", "dominators:"] ++
    (List.range g.size).map fun n =>
      Report.nodeName n ++ ": " ++ Report.nodeList (d.dominatorsOf n)

end Dominators

end DefiniteAssignment
