import DefiniteAssignment.Text.Lines
/-!
# Test files

A test file begins with a command, a line `test` followed by the name of the command and its
options. After it come functions, each with the comment lines behind it that say what is expected
of it. What else stands between them is passed over.

A function begins with a line that starts with `function` and goes on to the line on which its
braces balance, those in comments left out; if they never do, it goes on to the last line.
-/

namespace DefiniteAssignment

/-- One function of a test file, with what is expected of it and the command of the file. -/
structure TestCase where
  functionText : String
  expected : String
  command : String
  deriving DecidableEq

namespace TestCase

/-- The name of the command; empty if there is none. -/
def commandName (c : TestCase) : String :=
  match "test ".toList.isPrefixOf? c.command.toList with
  | some rest => String.ofList ((Text.words rest).headD [])
  | none => ""

/-- The words of the command behind its name. -/
def optionWords (c : TestCase) : List (List Char) :=
  (Text.words c.command.toList).drop 2

/-- The key and the value of an option, which are on the two sides of its first equals sign. -/
def option? (word : List Char) : Option (String × String) :=
  match word.dropWhile (· != '=') with
  | _ :: value => some (String.ofList (word.takeWhile (· != '=')), String.ofList value)
  | [] => none

/-- The options that have a value. -/
def options (c : TestCase) : List (String × String) :=
  c.optionWords.filterMap option?

/-- Whether a word stands among the options. -/
def hasFlag (c : TestCase) (flag : String) : Bool :=
  c.optionWords.any (String.ofList · == flag)

end TestCase

namespace TestFile

/-- The brace depth after a piece of code, or `none` if a closing brace has brought it to zero. A
brace that closes what was never opened counts as if it did. -/
def depthAfter (depth : Nat) : List Char → Option Nat
  | [] => some depth
  | c :: cs =>
    if c = '\x7b' then depthAfter (depth + 1) cs
    -- Depth stops at zero, so that a stray closing brace ends the function as well.
    else if c = '\x7d' then if depth - 1 = 0 then none else depthAfter (depth - 1) cs
    else depthAfter depth cs

/-- The lines up to the one on which braces balance, and the lines behind it. -/
def takeFunction (depth : Nat) : List (List Char) → List (List Char) × List (List Char)
  | [] => ([], [])
  | line :: later =>
    match depthAfter depth (line.takeWhile (· != ';')) with
    | none => ([line], later)
    | some depth =>
      let (function, rest) := takeFunction depth later
      (line :: function, rest)

/-- A line of an expectation without the mark of a comment. -/
def uncomment (line : List Char) : List Char :=
  match Text.trim line with
  | ';' :: ' ' :: rest => rest
  | ';' :: rest => rest
  | rest => rest

/-- Whether a line, without the white space before it, begins with a text. -/
def begins (text : String) (line : List Char) : Bool :=
  text.toList.isPrefixOf (Text.trim line)

/-- Whether there is nothing but white space on a line. -/
def isBlankLine (line : List Char) : Bool :=
  (Text.trim line).isEmpty

theorem length_takeFunction (depth : Nat) (line : List Char) (lines : List (List Char)) :
    (takeFunction depth (line :: lines)).2.length ≤ lines.length := by
  induction lines generalizing depth line with
  | nil => unfold takeFunction; split <;> simp [takeFunction]
  | cons next lines ih =>
    unfold takeFunction
    split
    · simp
    next depth' _ =>
      have := ih depth' next
      simp only [List.length_cons]
      omega

/-- The cases among the lines behind the command. -/
def cases (command : String) : List (List Char) → List TestCase
  | [] => []
  | line :: later =>
    if begins "function " line then
      let rest := (takeFunction 0 (line :: later)).2.dropWhile isBlankLine
      let expected := (rest.takeWhile (begins ";")).map uncomment
      { functionText := String.ofList (Text.joinLines (takeFunction 0 (line :: later)).1)
        expected := String.ofList (Text.joinLines expected)
        command } :: cases command (rest.dropWhile (begins ";"))
    else cases command later
termination_by lines => lines.length
decreasing_by
  · have h1 := length_takeFunction 0 line later
    have h2 := (List.dropWhile_sublist (l := (takeFunction 0 (line :: later)).2)
      isBlankLine).length_le
    have h3 := (List.dropWhile_sublist
      (l := (takeFunction 0 (line :: later)).2.dropWhile isBlankLine) (begins ";")).length_le
    simp only [List.length_cons]
    omega
  · simp

/-- The cases of a test file. Without a command there are none. -/
def parse (content : String) : List TestCase :=
  match (Text.lines content.toList).dropWhile (! begins "test " ·) with
  | [] => []
  | command :: later => cases (String.ofList (Text.trim command)) later

end TestFile

end DefiniteAssignment
