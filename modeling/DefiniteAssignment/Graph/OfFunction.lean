import DefiniteAssignment.Graph.Basic
import DefiniteAssignment.Program.Function
/-!
# The graph of a function

The nodes of a function's graph are its instructions, numbered block by block. A branch leads to the
first instruction of each of its targets; what is no branch and no return leads to the instruction
written next, which may be the first of the next block.
-/

namespace DefiniteAssignment

namespace Function

/-- The instructions of a function with the blocks they stand in, in the order of the text. -/
def points (f : Function) : List (Nat × Inst) :=
  f.blocks.zipIdx.flatMap fun (block, index) => block.map (index, ·)

/-- The number of the first node of a block, if there is such a block. -/
def blockStart? (f : Function) (block : Nat) : Option Nat :=
  if block < f.blocks.length then some (f.blocks.take block).flatten.length else none

/-- The node that a branch to a block leads to. -/
def branchTarget (f : Function) (block : Nat) (target : UInt32) : Except GraphError Nat :=
  match f.blockStart? target.toNat with
  | some start => .ok start
  | none => .error (.unknownBlock block target)

/-- The targets of the edges out of the instruction at node `number`, which stands in `block`. -/
def targetsOf (f : Function) (number block : Nat) (inst : Inst) :
    Except GraphError (List Nat) := do
  let branches ← inst.targets.mapM (f.branchTarget block)
  if inst.isTerminator || f.instCount ≤ number + 1 then return branches
  else return branches ++ [number + 1]

end Function

namespace Graph

/-- The graph of a function. A function without blocks has no entry; an empty block or a branch to a
block that is not there is an error, empty blocks being looked for first. -/
def ofFunction (f : Function) : Except GraphError Graph := do
  if f.blocks.isEmpty then throw .noEntry
  -- Once no block is empty, every block has a first instruction for branches to lead to.
  match f.blocks.findIdx? List.isEmpty with
  | some block => throw (.emptyBlock block)
  | none =>
    let edges ← f.points.zipIdx.mapM fun ((block, inst), number) =>
      return (← f.targetsOf number block inst).map (number, ·)
    let nodes := f.points.map fun (block, inst) => { Node.ofInst inst with block := some block }
    Builder.build ⟨nodes.toArray, edges.flatten.toArray, some 0⟩

end Graph

end DefiniteAssignment
