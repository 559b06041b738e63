import DefiniteAssignment.Program.Inst
/-!
# Functions

A function is a name and a list of blocks; block number `i` is the `i`-th of the list. Control that
reaches the end of a block without a branch goes on to the next block.
-/

namespace DefiniteAssignment

/-- The instructions of a block, in order. -/
abbrev Block := List Inst

/-- A function. Its blocks are numbered from zero by their place in the list. -/
structure Function where
  name : String
  blocks : List Block
  deriving DecidableEq

namespace Function

/-- The function of a name that has no blocks yet. -/
def empty (name : String) : Function :=
  ⟨name, []⟩

/-- The function with one more block at its end. -/
def addBlock (f : Function) (block : Block) : Function :=
  { f with blocks := f.blocks ++ [block] }

/-- The function with one more instruction at the end of a block. -/
def pushInst (f : Function) (block : Nat) (inst : Inst) : Function :=
  { f with blocks := f.blocks.modify block (· ++ [inst]) }

/-- The number of instructions in all blocks. -/
def instCount (f : Function) : Nat :=
  f.blocks.flatten.length

/-- The lines of a block: its label and one indented line for each instruction. -/
def blockText (index : Nat) (block : Block) : String :=
  "block" ++ toString index ++ ":\n" ++
    String.join (block.map fun inst => "    " ++ inst.toString ++ "\n")

/-- The printed form of a function. -/
protected def toString (f : Function) : String :=
  "function %" ++ f.name ++ " \x7b\n" ++
    String.join (f.blocks.zipIdx.map fun (block, index) => blockText index block) ++ "\x7d"

instance : ToString Function :=
  ⟨Function.toString⟩

end Function

end DefiniteAssignment
