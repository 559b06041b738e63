import DefiniteAssignment.Config
import DefiniteAssignment.Dominance.Sets
/-!
# Dominator trees

The closest dominator of every node, found without sets. Nodes carry their numbers in reverse post
order, counted from one, and zero if they cannot be reached. While the links are being found the
entry is linked to itself; a pass gives every other node the closest common ancestor of its
predecessors that have a link already, and passes go on until one changes nothing.

Every link leads to a node with a smaller number. The walks up the tree rest on this: they follow a
link only if it does, and so they end.
-/

namespace DefiniteAssignment

/-- The immediate dominator of every node. The entry and the nodes that cannot be reached have
none. -/
structure DominatorTree where
  idom : Array (Option Nat)
  /-- The place of each node in reverse post order, from one; zero for an unreachable node. -/
  number : Array Nat
  /-- The reachable nodes in reverse post order. -/
  order : List Nat
  deriving DecidableEq

namespace DominatorTree

/-- The link of a node. -/
def linkOf (idom : Array (Option Nat)) (n : Nat) : Option Nat :=
  idom[n]?.getD none

/-- The number of a node; zero for what is no reachable node. -/
def numberOf (number : Array Nat) (n : Nat) : Nat :=
  number[n]?.getD 0

/-- The closest common ancestor of two nodes: as long as they differ in number, the one with the
greater number moves up its link. -/
def nearestCommon (idom : Array (Option Nat)) (number : Array Nat) (a b : Nat) : Nat :=
  if numberOf number b < numberOf number a then
    match linkOf idom a with
    | none => b
    | some up =>
      -- In a tree the test holds; it is what makes the walk end on any array.
      if numberOf number up < numberOf number a then nearestCommon idom number up b else b
  else if numberOf number a < numberOf number b then
    match linkOf idom b with
    | none => a
    | some up =>
      if numberOf number up < numberOf number b then nearestCommon idom number a up else a
  else a
termination_by numberOf number a + numberOf number b

/-- The closest common ancestor of the predecessors of a node that have a link. -/
def candidate? (g : Graph) (number : Array Nat) (idom : Array (Option Nat)) (n : Nat) :
    Option Nat :=
  match (g.pred n).filter fun q => (linkOf idom q).isSome with
  | [] => none
  | q :: later => some (later.foldl (nearestCommon idom number) q)

/-- Gives one node its link; the flag says whether anything has changed in the pass so far. -/
def relink (g : Graph) (number : Array Nat) (pass : Array (Option Nat) × Bool) (n : Nat) :
    Array (Option Nat) × Bool :=
  match candidate? g number pass.1 n with
  | none => pass
  | some d =>
    if linkOf pass.1 n = some d then pass else (pass.1.setIfInBounds n (some d), true)

/-- Passes over all nodes but the entry until one changes nothing; gives the links and the number of
passes. At most `fuel` more passes are made, of `limit` in all. -/
def settle (g : Graph) (number : Array Nat) (nodes : List Nat) (limit : Nat) :
    Nat → Array (Option Nat) → Except AnalysisError (Array (Option Nat) × Nat)
  | 0, _ => .error (.divergence limit limit)
  | fuel + 1, idom =>
    let (linked, changed) := nodes.foldl (relink g number) (idom, false)
    if changed then settle g number nodes limit fuel linked else .ok (linked, limit - fuel)

/-- The numbers of the nodes of an order, from one. -/
def numbering (size : Nat) (order : List Nat) : Array Nat :=
  order.zipIdx.foldl (fun number (n, i) => number.setIfInBounds n (i + 1)) (Array.replicate size 0)

/-- Finds the tree in at most `limit` passes, and says how many it took. An empty graph takes
none. -/
def build (g : Graph) (limit : Nat) : Except AnalysisError (DominatorTree × Nat) :=
  let order := g.reversePostOrder
  let number := numbering g.size order
  let links := Array.replicate g.size none
  match order with
  | [] => .ok (⟨links, number, order⟩, 0)
  | entry :: nodes => do
    -- The entry's link to itself stands only while the others are being found.
    let (idom, passes) ←
      settle g number nodes limit limit (links.setIfInBounds entry (some entry))
    return (⟨idom.setIfInBounds entry none, number, order⟩, passes)

/-- Finds the tree in at most `limit` passes. -/
def ofGraph (g : Graph) (limit : Nat) : Except AnalysisError DominatorTree :=
  (build g limit).map (·.1)

/-- The tree with a record of the passes it took. -/
def logged (g : Graph) (limit : Nat) : Logged (Except AnalysisError DominatorTree) := do
  match build g limit with
  | .ok (tree, passes) =>
    if g.size ≠ 0 then
      Logged.note .debug .dominance
        ("cooper dominators settled after " ++ toString passes ++ " passes")
    return .ok tree
  | .error e => return .error e

/-- The immediate dominator of a node. -/
def immediateDominator? (t : DominatorTree) (n : Nat) : Option Nat :=
  linkOf t.idom n

/-- The nodes whose immediate dominator is `n`, ascending. -/
def children (t : DominatorTree) (n : Nat) : List Nat :=
  (List.range t.idom.size).filter fun m => linkOf t.idom m == some n

/-- Whether the walk up from `b` that stops at the number of `a` stops at `a`. -/
def climbsTo (t : DominatorTree) (a b : Nat) : Bool :=
  if numberOf t.number a < numberOf t.number b then
    match linkOf t.idom b with
    | none => false
    | some up =>
      if numberOf t.number up < numberOf t.number b then climbsTo t a up else false
  else b == a
termination_by numberOf t.number b

/-- Whether `a` dominates `b`. A node dominates itself, and there is nothing else to say of a node
that cannot be reached; a number that is no node dominates nothing. -/
def dominates (t : DominatorTree) (a b : Nat) : Bool :=
  a < t.idom.size && b < t.idom.size &&
    (a == b ||
      (numberOf t.number a != 0 && numberOf t.number b != 0 && t.climbsTo a b))

/-- Gives a node the dominators of its link, and itself. -/
def extend (t : DominatorTree) (sets : Array BitSet) (n : Nat) : Array BitSet :=
  match linkOf t.idom n with
  | none => sets
  | some up => sets.setIfInBounds n ((sets[up]?.getD (BitSet.empty t.idom.size)).insert n)

/-- The dominator sets of all nodes. A node comes after its link in the order, so that the set of
the link is there when it is needed. -/
def toDominators (t : DominatorTree) : Dominators :=
  ⟨t.order.foldl t.extend
    ((Array.range t.idom.size).map fun n => (BitSet.empty t.idom.size).insert n)⟩

end DominatorTree

namespace Dominators

/-- Finds the dominators with the algorithm that is configured. -/
def compute (g : Graph) (config : Config) : Logged (Except AnalysisError Dominators) := do
  let found ←
    match config.dominators with
    | .iterative => iterativeLogged g config.maxIterations
    | .cooper => do
      let outcome ← DominatorTree.logged g config.maxIterations
      pure (outcome.map DominatorTree.toDominators)
  if found.isOk then
    Logged.note .debug .dominance
      ("computed dominators for " ++ toString g.size ++ " nodes using " ++ config.dominators.name)
  return found

end Dominators

end DefiniteAssignment
