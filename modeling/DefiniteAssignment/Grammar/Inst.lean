import DefiniteAssignment.Grammar.Token
/-!
# Instructions as written

One reader for each form of instruction. `instruction` takes the first form that fits, and what it
takes lies on one line.
-/

namespace DefiniteAssignment.Grammar

/-- The arguments of a call, in parentheses. -/
def arguments : Reader (List Operand) := do
  Reader.literal "("
  spaces
  let args ← Reader.separated operand comma
  spaces
  Reader.literal ")"
  return args

/-- A call: the name of the function and its arguments. -/
def call : Reader (String × List Operand) := do
  keyword "call"
  spaces1
  let callee ← functionName
  spaces
  let args ← arguments
  return (callee, args)

/-- A keyword and, behind spaces, what it applies to. -/
def applied {α : Type} (word : String) (read : Reader α) : Reader α := do
  keyword word
  spaces1
  read

/-- A binary operation on two operands. -/
def binary (dest : String) : Reader Inst := do
  let op ← identifier.mapAccepted BinOp.ofMnemonic?
  spaces1
  let lhs ← operand
  comma
  let rhs ← operand
  return .binary op dest lhs rhs

/-- What may be assigned to a variable. -/
def assigned (dest : String) : Reader Inst :=
  (do return .const dest (← applied "const" integer)) <|>
  (do return .copy dest (← applied "copy" operand)) <|>
  (do return .param dest (← applied "param" index)) <|>
  (do return .load dest (← applied "load" global)) <|>
  (do
    let (callee, args) ← call
    return .call (some dest) callee args) <|>
  binary dest

/-- An assignment to a variable. -/
def assignment : Reader Inst := do
  let dest ← identifier
  spaces
  Reader.literal "="
  spaces
  assigned dest

/-- A jump to a block. -/
def jump : Reader Inst := do
  return .jump (← applied "jump" blockName)

/-- A branch to one of two blocks. -/
def brif : Reader Inst := do
  let condition ← applied "brif" operand
  comma
  let onTrue ← blockName
  comma
  let onFalse ← blockName
  return .brif condition onTrue onFalse

/-- A return, with a value only if one stands on the same line. -/
def ret : Reader Inst := do
  keyword "return"
  let value ← Reader.optional (do
    spaces1
    operand)
  return .ret value

/-- A store into a global. -/
def store : Reader Inst := do
  let name ← applied "store" global
  comma
  let value ← operand
  return .store name value

/-- A call whose result is dropped. -/
def callStatement : Reader Inst := do
  let (callee, args) ← call
  return .call none callee args

/-- The instruction that does nothing. -/
def nop : Reader Inst := do
  keyword "nop"
  return .nop

/-- An instruction. -/
def instruction : Reader Inst :=
  assignment <|> jump <|> brif <|> ret <|> store <|> callStatement <|> nop

end DefiniteAssignment.Grammar
