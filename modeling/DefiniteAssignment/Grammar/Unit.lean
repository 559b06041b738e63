import DefiniteAssignment.Grammar.Inst
import DefiniteAssignment.Program.Function
/-!
# Functions and modules as written

The rules above the line: a block is a label and its instructions, a function is a header and its
blocks, a module is a list of functions. What these rules read still carries the labels as they
were written; whether they count up from zero is checked later, with the other conditions that are
not a matter of grammar.
-/

namespace DefiniteAssignment.Grammar

/-- A function as written: its name, and its blocks with their labels. -/
structure FunctionText where
  name : String
  blocks : List (UInt32 × Block)

/-- A module as written: the entry it names, and its functions in the order of the text. -/
structure ModuleText where
  entry : Option String
  functions : List FunctionText

/-- An instruction and the blanks behind it. -/
def instructionLine : Reader Inst := do
  let inst ← instruction
  blanks
  return inst

/-- A block. Its instructions end where no more can be read, and that is never a failure. -/
def block : Rule (UInt32 × Block) := do
  blanks
  Reader.literal "block"
  let label ← index
  spaces
  Reader.literal ":"
  blanks
  -- What ends the instructions is for the next rule to accept or to report.
  let insts ← Rule.ofFunction instructionLine.many
  return (label, insts)

/-- A function with at least one block, and the blanks behind it. -/
def function : Rule FunctionText := do
  Reader.literal "function"
  blanks
  Reader.literal "%"
  let name ← bareFunctionName
  blanks
  Reader.literal "\x7b"
  blanks
  let blocks ← Rule.many1 block
  Reader.literal "\x7d"
  blanks
  return ⟨name, blocks⟩

/-- The line that names the entry function. -/
def entryLine : Reader String := do
  Reader.literal "entry"
  blanks
  Reader.literal ":"
  blanks
  let name ← functionName
  blanks
  return name

/-- A function with blanks before it. -/
def innerFunction : Reader FunctionText := do
  blanks
  function.toReader

/-- A module, and the blanks behind it. -/
def module : Rule ModuleText := do
  Reader.literal "module"
  blanks
  Reader.literal "\x7b"
  blanks
  let entry ← Reader.optional entryLine
  let functions ← Rule.ofFunction innerFunction.many
  Reader.literal "\x7d"
  blanks
  return ⟨entry, functions⟩

end DefiniteAssignment.Grammar
