import DefiniteAssignment.Graph.Traversal
import DefiniteAssignment.Program.Inst
/-!
# Control flow graphs

A control flow graph has one node for each instruction. A node knows the text of its instruction
and the places the instruction writes and reads; analyses look at nothing else.

A graph is made by `Builder.build`, which refuses edges and entries that name no node. What it
accepts satisfies the conditions that are part of the type `Graph`, so that whoever holds a graph
need not check them again.
-/

namespace DefiniteAssignment

/-- A node: the text of an instruction, the block it stands in, and the places it writes and
reads. -/
structure Node where
  text : String
  block : Option Nat
  defs : List Place
  uses : List Place
  deriving DecidableEq

/-- Why a graph was refused. -/
inductive GraphError where
  /-- An edge, or the entry taken as an edge to itself, names a node that is not there. -/
  | unknownNode (source target size : Nat)
  /-- A branch names a block that is not there. -/
  | unknownBlock (block : Nat) (target : UInt32)
  /-- A block has no instruction that control could go to. -/
  | emptyBlock (block : Nat)
  /-- There are nodes but no entry. -/
  | noEntry
  deriving DecidableEq

/-- A control flow graph. It has an entry exactly if it has nodes. The nodes that can be reached
from the entry are worked out once and kept. -/
structure Graph where
  nodes : Array Node
  edges : EdgeTables nodes.size
  entry : Option Nat
  reachable : Array Bool := edges.successors.reachableFrom entry
  entry_lt : ∀ e ∈ entry, e < nodes.size
  isSome_entry : 0 < nodes.size → entry.isSome
  reachable_eq : reachable = edges.successors.reachableFrom entry := by rfl

namespace Node

/-- The node of an instruction. -/
def ofInst (inst : Inst) : Node :=
  ⟨inst.toString, none, inst.defs, inst.uses⟩

/-- The locals a node writes. -/
def localDefs (node : Node) : List String :=
  node.defs.filterMap Place.local?

/-- The locals a node reads. -/
def localUses (node : Node) : List String :=
  node.uses.filterMap Place.local?

end Node

namespace GraphError

/-- The error as it is shown to a user. -/
def message : GraphError → String
  | unknownNode source target size =>
    "edge " ++ toString source ++ " -> " ++ toString target ++
      " references a node outside the graph (" ++ toString size ++ " nodes)"
  | unknownBlock block target =>
    "block" ++ toString block ++ " branches to block" ++ toString target.toNat ++
      ", which does not exist"
  | emptyBlock block => "block" ++ toString block ++ " has no instructions"
  | noEntry => "no entry node designated"

end GraphError

namespace Graph

/-- The graph without nodes. -/
def empty : Graph where
  nodes := #[]
  edges := .empty _
  entry := none
  entry_lt := by simp
  isSome_entry := by simp

/-- The number of nodes. -/
def size (g : Graph) : Nat :=
  g.nodes.size

/-- The targets of the edges out of each node. -/
def successors (g : Graph) : Adjacency :=
  g.edges.successors

/-- The sources of the edges into each node. -/
def predecessors (g : Graph) : Adjacency :=
  g.edges.predecessors

/-- The targets of the edges out of a node, ascending. -/
def succ (g : Graph) (n : Nat) : List Nat :=
  g.successors.next n

/-- The sources of the edges into a node, ascending. -/
def pred (g : Graph) (n : Nat) : List Nat :=
  g.predecessors.next n

/-- Whether control can get from the entry to a node; false for a number that is no node. -/
def isReachable (g : Graph) (n : Nat) : Bool :=
  g.reachable[n]? == some true

/-- The sources of those edges into a node that control can take. -/
def reachablePred (g : Graph) (n : Nat) : List Nat :=
  (g.pred n).filter g.isReachable

/-- The nodes without successors, ascending. -/
def exits (g : Graph) : List Nat :=
  (List.range g.size).filter fun n => (g.succ n).isEmpty

/-- The reachable nodes in reverse post order. -/
def reversePostOrder (g : Graph) : List Nat :=
  g.successors.reversePostOrderFrom g.entry

/-- The locals that any node writes or reads, ascending. -/
def locals (g : Graph) : List String :=
  Ascending.ofList (g.nodes.toList.flatMap fun node => node.localDefs ++ node.localUses)

/-- Each node has a list of targets. -/
theorem size_successors (g : Graph) : g.successors.size = g.nodes.size :=
  g.edges.size_successors

/-- The targets of a node are strictly ascending, so that each edge is listed once. -/
theorem pairwise_successors (g : Graph) (u : Nat) : (g.successors.next u).Pairwise (· < ·) :=
  g.edges.pairwise_successors u

/-- Edges lead to nodes. -/
theorem successor_lt (g : Graph) (u : Nat) : ∀ v ∈ g.successors.next u, v < g.nodes.size :=
  g.edges.successor_lt u

variable {g : Graph}

/-- The predecessors of a node are the sources of the edges into it. -/
theorem mem_pred {u v : Nat} : u ∈ g.pred v ↔ v ∈ g.succ u :=
  g.edges.mem_predecessors u v

/-- The predecessors of a node are strictly ascending. -/
theorem pairwise_pred (n : Nat) : (g.pred n).Pairwise (· < ·) :=
  g.edges.pairwise_predecessors n

end Graph

/-- A graph in the making: its nodes, its edges in the order in which they came, and its entry. -/
structure Builder where
  nodes : Array Node := #[]
  edges : Array (Nat × Nat) := #[]
  entry : Option Nat := none

namespace Builder

/-- Adds a node; its number is the number of nodes before. -/
def addNode (b : Builder) (node : Node) : Builder :=
  { b with nodes := b.nodes.push node }

/-- Adds an edge. Its ends are looked at only when the graph is built. -/
def addEdge (b : Builder) (source target : Nat) : Builder :=
  { b with edges := b.edges.push (source, target) }

/-- Makes a node the entry, in place of an earlier one. -/
def setEntry (b : Builder) (entry : Nat) : Builder :=
  { b with entry := some entry }

/-- Adds an edge to the edges so far, if both of its ends are nodes. -/
def enter {n : Nat} (edges : EdgeTables n) (edge : Nat × Nat) : Except GraphError (EdgeTables n) :=
  if h : edge.1 < n ∧ edge.2 < n then .ok (edges.insert h.1 h.2)
  else .error (.unknownNode edge.1 edge.2 n)

/-- The graph of the nodes and edges, or the first thing that is wrong with it: a missing entry, an
entry that is no node, or an edge with an end that is no node. Without nodes there is nothing that
could be wrong. -/
def build (b : Builder) : Except GraphError Graph :=
  if b.nodes.isEmpty then .ok Graph.empty
  else
    match b.entry with
    | none => .error .noEntry
    | some entry =>
      if hlt : entry < b.nodes.size then do
        -- The first edge that is refused ends the loop and is the one reported.
        let edges ← b.edges.toList.foldlM enter (EdgeTables.empty b.nodes.size)
        return {
          nodes := b.nodes
          edges
          entry := some entry
          entry_lt := by simpa using hlt
          isSome_entry := by simp }
      else .error (.unknownNode entry entry b.nodes.size)

end Builder

end DefiniteAssignment
