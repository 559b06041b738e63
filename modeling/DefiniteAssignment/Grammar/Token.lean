import DefiniteAssignment.Grammar.Reader
import DefiniteAssignment.Program.Inst
import DefiniteAssignment.Text.CharClass
/-!
# Blanks, names and numerals

The smallest pieces of the text format. Between lines stand blanks: spaces, tabs, line ends and
comments. Within a line only spaces and tabs may stand between two pieces.
-/

namespace DefiniteAssignment.Grammar

/-- A character that separates pieces across lines. -/
def isBlank (c : Char) : Bool :=
  c == ' ' || c == '\t' || c == '\r' || c == '\n'

/-- A character that separates pieces within a line. -/
def isSpace (c : Char) : Bool :=
  c == ' ' || c == '\t'

/-- The rest of a text behind the body of a comment, which goes up to the end of the line. There is
no comment if a carriage return that no line feed follows comes first. -/
def afterComment (cs : List Char) : Option (List Char) :=
  -- The line end itself is left to be skipped as a blank.
  match cs.dropWhile (fun c => c != '\n' && c != '\r') with
  | '\r' :: '\n' :: rest => some ('\r' :: '\n' :: rest)
  | '\r' :: _ => none
  | rest => some rest

theorem length_afterComment {cs rest : List Char} (h : afterComment cs = some rest) :
    rest.length ≤ cs.length := by
  have hle := (List.dropWhile_sublist (l := cs) (fun c => c != '\n' && c != '\r')).length_le
  unfold afterComment at h
  split at h
  next heq => rw [← Option.some.inj h, ← heq]; exact hle
  next => simp at h
  next => rw [← Option.some.inj h]; exact hle

/-- The rest of a text behind the blanks and comments it begins with. -/
def skipBlanks (cs : List Char) : List Char :=
  match cs with
  | [] => []
  | c :: rest =>
    if isBlank c then skipBlanks rest
    else if c = ';' then
      match _h : afterComment rest with
      | some after => skipBlanks after
      | none => c :: rest
    else c :: rest
termination_by cs.length
decreasing_by
  · simp
  · have := length_afterComment _h
    simp only [List.length_cons]
    omega

/-- Blanks and comments, or nothing. -/
def blanks : Reader Unit := fun cs =>
  some ((), skipBlanks cs)

/-- Spaces and tabs, or nothing. -/
def spaces : Reader Unit := do
  let _ ← Reader.run isSpace

/-- At least one space or tab. -/
def spaces1 : Reader Unit := do
  let _ ← Reader.run1 isSpace

/-- A word that is not the beginning of a longer identifier. -/
def keyword (word : String) : Reader Unit := fun cs =>
  match word.toList.isPrefixOf? cs with
  | some rest => if rest.head?.any Text.isIdentChar then none else some ((), rest)
  | none => none

/-- A name of a variable or global. -/
def identifier : Reader String := fun cs =>
  match cs with
  | c :: rest =>
    if Text.isIdentStart c then
      some (String.ofList (c :: rest.takeWhile Text.isIdentChar),
        rest.dropWhile Text.isIdentChar)
    else none
  | [] => none

/-- A numeral in decimal digits, of any length. -/
def numeral : Reader Nat := do
  let digits ← Reader.run1 Char.isDigit
  return Nat.ofDigitChars 10 digits 0

/-- A natural number below `2 ^ 32`. -/
def index : Reader UInt32 :=
  numeral.mapAccepted fun n => if n < UInt32.size then some (UInt32.ofNat n) else none

/-- The 64-bit integer of a value, if it has one. -/
def int64? (value : Int) : Option Int64 :=
  if h : Int64.minValue.toInt ≤ value ∧ value ≤ Int64.maxValue.toInt then
    some (Int64.ofIntLE value h.1 h.2)
  else none

/-- A 64-bit integer: digits, with a minus sign in front if it is negative. -/
def integer : Reader Int64 :=
  Reader.mapAccepted
    (do
      let minus ← Reader.optional (Reader.literal "-")
      let value ← numeral
      return if minus.isSome then -(value : Int) else value)
    int64?

/-- An at sign and the name of a global. -/
def global : Reader String := do
  Reader.literal "@"
  identifier

/-- The name of a function, without the percent sign in front of it. -/
def bareFunctionName : Reader String := do
  let name ← Reader.run1 Text.isFunctionNameChar
  return String.ofList name

/-- A percent sign and the name of a function. -/
def functionName : Reader String := do
  Reader.literal "%"
  bareFunctionName

/-- The number of a block, with the word in front of it. -/
def blockName : Reader UInt32 := do
  Reader.literal "block"
  index

/-- An operand: an integer or a variable. -/
def operand : Reader Operand :=
  (do return .imm (← integer)) <|> (do return .var (← identifier))

/-- A comma with spaces around it. -/
def comma : Reader Unit := do
  spaces
  Reader.literal ","
  spaces

end DefiniteAssignment.Grammar
