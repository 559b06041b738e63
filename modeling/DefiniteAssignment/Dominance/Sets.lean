import DefiniteAssignment.BitSet
import DefiniteAssignment.Flow.Solver
/-!
# Dominator sets

A node dominates another if control cannot get to the other without passing it. The dominators of
the nodes solve a flow problem over sets of nodes: what dominates a node is the node itself and
whatever dominates all its predecessors. The solver starts from the full sets and only takes nodes
out of them.

A node that cannot be reached is given itself as its only dominator.
-/

namespace DefiniteAssignment

/-- The dominators of every node, each as a set over the nodes of the graph. -/
structure Dominators where
  sets : Array BitSet
  deriving DecidableEq

namespace Dominators

/-- The flow problem of dominance on `size` nodes. -/
def problem (size : Nat) : Flow.Problem BitSet where
  entryFact := BitSet.empty size
  initialFact := BitSet.full size
  merge := BitSet.intersection
  transfer n dominators := dominators.insert n

/-- Reads the dominators off a solution. -/
def ofSolution (g : Graph) (solution : Flow.Solution BitSet) : Dominators :=
  ⟨(Array.range g.size).map fun n =>
    match solution.after[n]? with
    | some set => if g.isReachable n then set else (BitSet.empty g.size).insert n
    | none => (BitSet.empty g.size).insert n⟩

/-- Finds the dominators by solving the flow problem, in at most `limit` steps. -/
def iterative (g : Graph) (limit : Nat) : Except AnalysisError Dominators :=
  (Flow.solve g (problem g.size) limit).outcome.map (ofSolution g)

/-- The same, with the log of the solver. -/
def iterativeLogged (g : Graph) (limit : Nat) : Logged (Except AnalysisError Dominators) := do
  let outcome ← (Flow.solve g (problem g.size) limit).logged g BitSet.toString
  return outcome.map (ofSolution g)

/-- The number of nodes of the graph. -/
def size (d : Dominators) : Nat :=
  d.sets.size

/-- The dominators of a node, ascending; none for a number that is no node. -/
def dominatorsOf (d : Dominators) (n : Nat) : List Nat :=
  match d.sets[n]? with
  | some set => set.toList
  | none => []

/-- Whether `a` dominates `b`; false if `b` is no node. -/
def dominates (d : Dominators) (a b : Nat) : Bool :=
  match d.sets[b]? with
  | some set => set.contains a
  | none => false

/-- The number of dominators of a node. -/
def depth (d : Dominators) (n : Nat) : Nat :=
  match d.sets[n]? with
  | some set => set.size
  | none => 0

/-- The closest of the other dominators of a node. The dominators of a node form a chain, so it is
the one that has exactly one dominator less than the node. -/
def immediateDominator? (d : Dominators) (n : Nat) : Option Nat :=
  let depth := d.depth n
  (d.dominatorsOf n).find? fun m => m != n && d.depth m + 1 == depth

end Dominators

end DefiniteAssignment
