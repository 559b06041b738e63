import DefiniteAssignment.Expectation.Pattern
/-!
# Directives

A directive is a keyword, a colon, white space and a pattern. It may stand anywhere in a line, but
the keyword has to begin at a word boundary; a line without one is a note and says nothing.
-/

namespace DefiniteAssignment.Expectation

/-- Where a directive that has to match looks for its pattern. -/
inductive Scope where
  /-- Anywhere behind the last match. -/
  | anywhere
  /-- On the line on which the last match ended. -/
  | sameLine
  /-- On the line after that. -/
  | nextLine
  /-- Anywhere behind the last match in order, whatever was found out of order since. -/
  | unordered
  deriving DecidableEq

/-- One directive. -/
inductive Directive where
  | check (scope : Scope) (pattern : Pattern)
  | not (pattern : Pattern)
  | regex (name : String) (source : List Char)
  deriving DecidableEq

/-- The keywords of directives. -/
inductive Keyword where
  | check | sameln | nextln | unordered | not | regex
  deriving DecidableEq

/-- Why a directive was refused. -/
inductive DirectiveError where
  | pattern (cause : PatternError)
  | defineInNot (name : String) (rest : List Char)
  | regexName (rest : List Char)
  | regexEquals (name : String) (rest : List Char)
  deriving DecidableEq

/-- The error as it is shown to a user. -/
def DirectiveError.message : DirectiveError → String
  | pattern cause => cause.message
  | defineInNot name rest =>
    "can't define variables '$(" ++ name ++ "=...' in not: " ++ String.ofList rest
  | regexName rest => "invalid variable name in regex: " ++ String.ofList rest
  | regexEquals name rest =>
    "expected '=' after variable '" ++ name ++ "' in regex: " ++ String.ofList rest

namespace Keyword

/-- All keywords. -/
def all : List Keyword :=
  [check, sameln, nextln, unordered, not, regex]

/-- A keyword with its colon. -/
def text : Keyword → String
  | check => "check:"
  | sameln => "sameln:"
  | nextln => "nextln:"
  | unordered => "unordered:"
  | not => "not:"
  | regex => "regex:"

/-- What follows a keyword and white space at the front of a text. -/
def rest? (keyword : Keyword) (cs : List Char) : Option (List Char) :=
  match keyword.text.toList.isPrefixOf? cs with
  | some (c :: rest) =>
    if Text.isWhiteSpace c then some (rest.dropWhile Text.isWhiteSpace) else none
  | _ => none

end Keyword

namespace Directive

/-- The first keyword in a line that makes a directive, and what follows it. `inWord` says whether
a word character stands before the line. -/
def locate? (inWord : Bool) : List Char → Option (Keyword × List Char)
  | [] => none
  | c :: cs =>
    let here :=
      -- A keyword in the middle of a word is none.
      if inWord then none
      else Keyword.all.findSome? fun keyword => (keyword.rest? (c :: cs)).map (keyword, ·)
    match here with
    | some found => some found
    | none => locate? (Text.isWordChar c) cs

/-- Reads the name and the source of a `regex:` directive. -/
def readRegex (rest : List Char) : Except DirectiveError Directive :=
  let (name, after) := takeName rest
  if name.isEmpty then .error (.regexName rest)
  else
    match after with
    | '=' :: source => .ok (.regex name (Text.trimEnd source))
    | _ => .error (.regexEquals name rest)

/-- Reads what follows a keyword. -/
def ofKeyword (keyword : Keyword) (rest : List Char) : Except DirectiveError Directive := do
  match keyword with
  | .regex => readRegex rest
  | _ =>
    let pattern ← (Pattern.parse rest).mapError DirectiveError.pattern
    match keyword, pattern.defined with
    | .not, name :: _ => throw (.defineInNot name rest)
    | .not, [] => return .not pattern
    | .sameln, _ => return .check .sameLine pattern
    | .nextln, _ => return .check .nextLine pattern
    | .unordered, _ => return .check .unordered pattern
    | _, _ => return .check .anywhere pattern

/-- Reads a line, which may hold no directive. -/
def parse (line : List Char) : Except DirectiveError (Option Directive) :=
  match locate? false line with
  | some (keyword, rest) => (ofKeyword keyword rest).map some
  | none => .ok none

end Directive

/-- Whether some line of a text begins with a keyword. -/
def hasDirectives (expected : String) : Bool :=
  (Text.lines expected.toList).any fun line =>
    Keyword.all.any fun keyword => keyword.text.toList.isPrefixOf (Text.trimStart line)

/-- The directives of a text, each on a line of its own; the first line that is refused is given
with the error. -/
def directives (expected : String) :
    Except (List Char × DirectiveError) (List Directive) := do
  let read ← (Text.normalizedLines expected.toList).mapM fun line =>
    (Directive.parse line).mapError (line, ·)
  return read.filterMap id

end DefiniteAssignment.Expectation
