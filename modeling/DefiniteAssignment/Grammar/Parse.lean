import DefiniteAssignment.Grammar.Unit
import DefiniteAssignment.Program.Module
import DefiniteAssignment.Text.Lines
/-!
# Parsing

`Function.parse` and `Module.parse` read a whole text. A text that does not follow the grammar is
refused at the byte at which reading stopped; one that does is then held to the conditions beyond
the grammar: labels count up from zero, no two functions share a name, and an entry names one of
the functions. Those errors belong to no place in the text and report its beginning.
-/

namespace DefiniteAssignment

/-- What a text was read as. -/
inductive UnitKind where
  | function
  | module
  deriving DecidableEq, Repr

/-- Why a text was refused. -/
inductive ParseError where
  /-- The text stops following the grammar at a byte position. -/
  | malformed (kind : UnitKind) (stop : Nat)
  /-- The text goes on behind its last brace. -/
  | trailing (stop : Nat)
  /-- A block's label is not its number. -/
  | labelOrder (function : String) (expected : Nat) (found : UInt32)
  /-- Two functions of a module have the same name. -/
  | duplicateFunction (name : String)
  /-- The entry names no function of the module. -/
  | unknownEntry (name : String)
  deriving DecidableEq

namespace ParseError

/-- The byte position that an error points to. -/
def position : ParseError → Nat
  | malformed _ stop | trailing stop => stop
  | labelOrder _ _ _ | duplicateFunction _ | unknownEntry _ => 0

/-- What is wrong, without the place. -/
def message : ParseError → String
  | malformed .function _ => "Failed to parse function"
  | malformed .module _ => "Failed to parse module"
  | trailing _ => "Unexpected trailing input"
  | labelOrder name expected found =>
    "Function %" ++ name ++ ": expected block" ++ toString expected ++ ", found block" ++
      toString found.toNat
  | duplicateFunction name => "Duplicate function name: %" ++ name
  | unknownEntry name => "Entry function %" ++ name ++ " is not defined in the module"

/-- The error as it is shown to a user. -/
protected def toString (e : ParseError) : String :=
  "Parse error at position " ++ toString e.position ++ ": " ++ e.message

instance : ToString ParseError :=
  ⟨ParseError.toString⟩

end ParseError

namespace Grammar

/-- Reads a whole text by a rule, blanks before it included. -/
def whole {α : Type} (kind : UnitKind) (rule : Rule α) (cs : List Char) : Except ParseError α :=
  match rule (skipBlanks cs) with
  | .error stop => .error (.malformed kind (Text.byteLength cs - Text.byteLength stop))
  | .ok (a, []) => .ok a
  | .ok (_, c :: rest) => .error (.trailing (Text.byteLength cs - Text.byteLength (c :: rest)))

/-- The function that was written, if its labels count up from zero. -/
def FunctionText.check (f : FunctionText) : Except ParseError Function :=
  match f.blocks.zipIdx.find? fun (block, number) => block.1.toNat != number with
  | some (block, number) => .error (.labelOrder f.name number block.1)
  | none => .ok ⟨f.name, f.blocks.map (·.2)⟩

/-- Adds a function that was written to a module that does not have one of its name. -/
def FunctionText.addTo (m : Module) (f : FunctionText) : Except ParseError Module := do
  let function ← f.check
  if m.functions.contains f.name then throw (.duplicateFunction f.name)
  return m.add function

/-- The module that was written, if its functions and its entry are in order. -/
def ModuleText.check (m : ModuleText) : Except ParseError Module := do
  let functions ← m.functions.foldlM FunctionText.addTo Module.empty
  match m.entry with
  | none => return functions
  | some name =>
    match functions.setEntry? name with
    | some whole => return whole
    | none => throw (.unknownEntry name)

end Grammar

/-- Reads a function. -/
def Function.parse (text : String) : Except ParseError Function := do
  let written ← Grammar.whole .function Grammar.function text.toList
  written.check

/-- Reads a module. -/
def Module.parse (text : String) : Except ParseError Module := do
  let written ← Grammar.whole .module Grammar.module text.toList
  written.check

end DefiniteAssignment
