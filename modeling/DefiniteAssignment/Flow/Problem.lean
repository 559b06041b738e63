import DefiniteAssignment.Graph.Basic
/-!
# Forward data-flow problems

A problem gives every node a fact on each of its two sides. What flows into a node is what flows
out of its predecessors, merged; what flows out of it is the node's transfer of what flows in. The
entry has one more source, from which the problem's entry fact flows.

Nothing is asked of the two functions here. What a solver's answer means depends on their being
monotone, or on merging being a greatest lower bound, and the theorems that need this say so.
-/

namespace DefiniteAssignment.Flow

/-- A forward data-flow problem with facts in `F`. -/
structure Problem (F : Type) where
  /-- What flows into the entry from outside the graph. -/
  entryFact : F
  /-- What is assumed of every node before it is looked at. -/
  initialFact : F
  merge : F → F → F
  /-- What flows out of a node, given what flows in. -/
  transfer : Nat → F → F

/-- One evaluation of a node. -/
structure Event (F : Type) where
  node : Nat
  input : F
  output : F
  /-- Whether the output is not what the node gave before. -/
  changed : Bool
  deriving DecidableEq

/-- The facts on both sides of every node, and the number of evaluations that led to them. -/
structure Solution (F : Type) where
  before : Array F
  after : Array F
  steps : Nat
  deriving DecidableEq

namespace Problem

variable {F : Type}

/-- Merges facts from the left; without any, the initial fact stands. -/
def mergeAll (p : Problem F) : List F → F
  | [] => p.initialFact
  | fact :: facts => facts.foldl p.merge fact

/-- What flows into a node when `after` is what flows out of all nodes: the entry fact, if the node
is the entry, and the facts of its reachable predecessors in ascending order, merged. -/
def inputAt (p : Problem F) (g : Graph) (after : Array F) (n : Nat) : F :=
  p.mergeAll <|
    (if g.entry = some n then [p.entryFact] else []) ++
      (g.reachablePred n).map fun q => after[q]?.getD p.initialFact

end Problem

end DefiniteAssignment.Flow
