import DefiniteAssignment.Expectation.Matching
/-!
# Explanations

The text that was matched, line by line, with what happened to each directive written under the line
on which it happened. A match is underlined as far as it goes on that line.
-/

namespace DefiniteAssignment.Expectation

/-- A failed expectation. -/
inductive Mismatch where
  /-- A line holds a directive that cannot be read. -/
  | directive (line : List Char) (cause : DirectiveError)
  /-- A variable has no value. -/
  | undefinedVariable (name : String)
  /-- A directive does not hold; the explanation says which. -/
  | failed (explanation : String)
  /-- A directive does not hold, and the text ends so that this cannot be explained. -/
  | unexplained
  deriving DecidableEq

/-- The error as it is shown to a user. -/
def Mismatch.message : Mismatch → String
  | directive line cause =>
    "Failed to parse filecheck directive '" ++ String.ofList line ++ "': " ++ cause.message
  | undefinedVariable name => "Filecheck error: undefined variable $" ++ name
  | failed explanation => "Filecheck failed:\n" ++ explanation
  | unexplained => "Filecheck failed"

/-- The order in which events are explained: by where they happened, then by directive. -/
def Event.notAfter (a b : Event) : Bool :=
  if a.range.start ≠ b.range.start then a.range.start < b.range.start
  else if a.range.stop ≠ b.range.stop then a.range.stop < b.range.stop
  else a.directive ≤ b.directive

/-- The line that says what happened. -/
def Event.line (e : Event) : String :=
  (if e.isMatch then "Matched #" else "Missed #") ++ toString e.directive ++
    (if e.isNot then " not: " else ": ") ++ String.ofList e.source ++ "\n"

/-- A line of the text. -/
def quotedLine (line : List Char) : String :=
  "> " ++ String.ofList line ++ "\n"

/-- A line without its last byte; `none` if that byte is only a part of a character. -/
def withoutLastByte (line : List Char) : Option (List Char) :=
  if line.getLast?.all fun c => c.utf8Size = 1 then some line.dropLast else none

/-- The text while it is being explained: where the last line that was printed begins, where the
next one does, and the rest of the text from there. -/
structure Cursor where
  current : Nat := 0
  next : Nat := 0
  rest : List Char

namespace Cursor

/-- Prints lines until one that reaches behind `offset` has been printed. Lines are cut where their
line feed is expected to be, so a last line that no line feed ends loses its last byte, and cannot
be printed if that byte does not stand for itself. -/
def printTo (offset : Nat) (c : Cursor) : Option (String × Cursor) :=
  if c.next ≤ offset then
    match _h : c.rest with
    | [] => some ("", c)
    | first :: others =>
      let line := (first :: others).takeWhile (· != '\n')
      let length := Text.byteLength line
      match _h' : (first :: others).dropWhile (· != '\n') with
      | [] => do
        let shortened ← withoutLastByte line
        return (quotedLine shortened, ⟨c.next, c.next + length, []⟩)
      | _ :: after => do
        let (printed, last) ← printTo offset ⟨c.next, c.next + length + 1, after⟩
        return (quotedLine line ++ printed, last)
  else some ("", c)
termination_by c.rest.length
decreasing_by
  have := (List.dropWhile_sublist (l := first :: others) (· != '\n')).length_le
  simp only [_h', List.length_cons] at this
  simp only [_h, List.length_cons]
  omega

/-- The line that marks a match under the line that was printed last. -/
def underline (c : Cursor) (range : Range) : String :=
  let stop := min range.stop (c.next - 1)
  let mark (offset : Nat) : Char :=
    if offset < range.start then ' ' else if offset = range.start then '^' else '~'
  "  " ++ String.ofList ((List.range (stop - c.current)).map fun i => mark (c.current + i)) ++ "\n"

end Cursor

/-- Explains events in order, then prints what is left of the text. -/
def explainFrom : List Event → Cursor → Option String
  | [], c => some (String.join ((Text.lines c.rest).map quotedLine))
  | e :: later, c => do
    let (printed, c) ← c.printTo e.range.start
    return printed ++ (if e.isMatch then c.underline e.range else "") ++ e.line ++
      (← explainFrom later c)

/-- The explanation of what was recorded while a text was matched, if it can be printed. -/
def explain (text : List Char) (events : List Event) : Option String :=
  explainFrom (events.mergeSort Event.notAfter) { rest := text }

/-- Whether a text meets an expectation. -/
def meets (actual expected : String) : Except Mismatch Unit := do
  let directives ← (directives expected).mapError fun (line, cause) => .directive line cause
  let result ← (matchDirectives actual.toList directives).mapError .undefinedVariable
  if result.success then return ()
  match explain actual.toList result.events with
  | some explanation => throw (.failed explanation)
  | none => throw .unexplained

end DefiniteAssignment.Expectation
