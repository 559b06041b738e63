import DefiniteAssignment.Text.Lines
/-!
# Patterns

What a directive looks for. A pattern is text in which a dollar sign has a meaning: `$$` is a dollar
sign, `$name` and `$(name)` stand for the value of a variable, `$(name=source)` gives the variable
the text that `source` matches, `$(name=$other)` the text that the value of `other` matches,
`$(=source)` matches without a variable, and `$()` is empty.

A source, and the value that a `regex:` directive gives a variable, is matched as it is written.

A pattern is resolved to a `Query`: a piece of text, the written form of what is looked for, and
whether its ends have to fall on word boundaries.
-/

namespace DefiniteAssignment.Expectation

/-- A piece of a pattern. -/
inductive Part where
  | text (content : List Char)
  | reference (name : String)
  | source (content : List Char)
  | define (name : String) (content : List Char)
  | defineAs (name : String) (other : String)
  deriving DecidableEq

/-- What a directive looks for. -/
abbrev Pattern := List Part

/-- Why a pattern was refused. -/
inductive PatternError where
  | loneDollar
  | unterminated (name : String)
  | badCharacter (name : String) (char : Char)
  | missingReference (name : String)
  | unclosedReference (name other : String)
  | namelessReference (other : String)
  | unclosedSource (name : String) (source : List Char)
  | duplicate (name : String)
  | backReference (name : String)
  deriving DecidableEq

/-- The error as it is shown to a user. -/
def PatternError.message : PatternError → String
  | loneDollar => "pattern syntax error, use $$ to match a single $"
  | unterminated name => "unterminated $(" ++ name ++ "..."
  | badCharacter name char => "syntax error in $(" ++ name ++ "... '" ++ char.toString ++ "'"
  | missingReference name => "expected variable name in $(" ++ name ++ "=$..."
  | unclosedReference name other => "expected ')' after $(" ++ name ++ "=$" ++ other ++ "..."
  | namelessReference other => "expected variable name in $(=$" ++ other ++ ")"
  | unclosedSource name source =>
    "missing ')' after regex in $(" ++ name ++ "=" ++ String.ofList source
  | duplicate name => "duplicate definition of $" ++ name ++ " in same pattern"
  | backReference name =>
    "unsupported back-reference to '$" ++ name ++ "' defined in same pattern"

/-- A character of a variable's name. -/
def isNameChar (c : Char) : Bool :=
  c.isAlphanum || c == '_'

/-- Takes the longest name off the front of a text; it may be empty. -/
def takeName (cs : List Char) : String × List Char :=
  (String.ofList (cs.takeWhile isNameChar), cs.dropWhile isNameChar)

/-- Where a scan through a source stands. -/
inductive SourceState where
  | normal
  | braces
  | classStart
  | classNegated
  | classBody
  deriving DecidableEq

/-- The length of the source at the front of a text: up to the parenthesis or brace that closes what
the source does not open itself. What is escaped, in braces or in a character class closes
nothing. -/
def sourceLength : SourceState → Nat → List Char → Nat
  | _, _, [] => 0
  | _, _, ['\\'] => 1
  | state, depth, '\\' :: _ :: cs => 2 + sourceLength state depth cs
  | .normal, depth, c :: cs =>
    match c, depth with
    | '[', _ => 1 + sourceLength .classStart depth cs
    | '{', _ => 1 + sourceLength .braces depth cs
    | '(', _ => 1 + sourceLength .normal (depth + 1) cs
    | ')', outer + 1 => 1 + sourceLength .normal outer cs
    | ')', 0 => 0
    | '}', _ => 0
    | _, _ => 1 + sourceLength .normal depth cs
  | .braces, depth, c :: cs =>
    1 + sourceLength (if c = '}' then .normal else .braces) depth cs
  | .classStart, depth, c :: cs =>
    1 + sourceLength (if c = '^' then .classNegated else .classBody) depth cs
  | .classNegated, depth, _ :: cs => 1 + sourceLength .classBody depth cs
  | .classBody, depth, c :: cs =>
    1 + sourceLength (if c = ']' then .normal else .classBody) depth cs

namespace Part

/-- The variable whose value a part needs. -/
def needed? : Part → Option String
  | reference name => some name
  | defineAs _ other => some other
  | text _ | source _ | define _ _ => none

/-- The variable that a part gives a value. -/
def defined? : Part → Option String
  | define name _ | defineAs name _ => some name
  | text _ | reference _ | source _ => none

end Part

namespace Pattern

/-- The variables that a pattern gives values, in order. -/
def defined (pattern : Pattern) : List String :=
  pattern.filterMap Part.defined?

/-- Reads what follows the equals sign of a definition. -/
def readDefinition (name : String) (cs : List Char) : Except PatternError (Part × List Char) :=
  match cs with
  | '$' :: cs =>
    let (other, rest) := takeName cs
    if other.isEmpty then .error (.missingReference name)
    else
      match rest with
      | ')' :: rest =>
        if name.isEmpty then .error (.namelessReference other) else .ok (.defineAs name other, rest)
      | _ => .error (.unclosedReference name other)
  | cs =>
    let length := sourceLength .normal 0 cs
    match cs.drop length with
    | ')' :: rest =>
      .ok (if name.isEmpty then .source (cs.take length) else .define name (cs.take length), rest)
    | _ => .error (.unclosedSource name (cs.take length))

/-- Reads what follows an opening parenthesis behind a dollar sign. `known` are the variables that
the pattern has given values so far. -/
def readParenthesized (known : List String) (cs : List Char) :
    Except PatternError (Part × List Char) :=
  let (name, rest) := takeName cs
  match rest with
  | [] => .error (.unterminated name)
  | ')' :: rest => .ok (if name.isEmpty then .text [] else .reference name, rest)
  | '=' :: rest =>
    if name ∈ known then .error (.duplicate name) else readDefinition name rest
  | c :: _ => .error (.badCharacter name c)

/-- Reads the part at the front of a text that is not empty. -/
def readPart (known : List String) (cs : List Char) : Except PatternError (Part × List Char) :=
  match cs with
  | '$' :: '$' :: rest => .ok (.text ['$'], rest)
  | '$' :: rest =>
    let (name, after) := takeName rest
    if name.isEmpty then
      match rest with
      | '(' :: rest => readParenthesized known rest
      | _ => .error .loneDollar
    else .ok (.reference name, after)
  | cs => .ok (.text (cs.takeWhile (· != '$')), cs.dropWhile (· != '$'))

/-- Reads parts up to the end of a text. Each takes something, so that `fuel` parts are enough for a
text of that length. -/
def readParts : Nat → Pattern → List Char → Except PatternError Pattern
  | _, parts, [] => .ok parts
  | 0, parts, _ => .ok parts
  | fuel + 1, parts, c :: cs => do
    let (part, rest) ← readPart parts.defined (c :: cs)
    let known := parts.defined ++ part.defined?.toList
    match part.needed? with
    | some name =>
      if name ∈ known then throw (.backReference name)
      else readParts fuel (parts ++ [part]) rest
    | none => readParts fuel (parts ++ [part]) rest

/-- Reads a pattern; white space around it does not belong to it. -/
def parse (cs : List Char) : Except PatternError Pattern :=
  let trimmed := Text.trim cs
  readParts trimmed.length [] trimmed

end Pattern

/-- The value of a variable. -/
inductive Value where
  /-- Text that a definition has matched. -/
  | matched (content : List Char)
  /-- What a `regex:` directive gave. -/
  | source (content : List Char)
  deriving DecidableEq

/-- Values of variables, each with the offset from which it may be used; the latest come first. -/
abbrev Bindings := List (String × Value × Nat)

/-- What is looked for in a text. -/
structure Query where
  /-- The written form, as it is shown in explanations. -/
  source : List Char
  /-- The text that has to be found. -/
  needle : List Char
  wordStart : Bool
  wordEnd : Bool
  deriving DecidableEq

/-- Text in which the characters with a meaning in sources are marked as plain. -/
def escape (cs : List Char) : List Char :=
  cs.flatMap fun c => if c ∈ "\\.+*?()|[]\x7b\x7d^$#&-~".toList then ['\\', c] else [c]

/-- What a part adds to the written form and to the text looked for; the name of a variable without
a value is an error. -/
def Part.resolve (bindings : Bindings) : Part → Except String (List Char × List Char)
  | .text content => .ok (escape content, content)
  | .source content => .ok ("(?:".toList ++ content ++ [')'], content)
  | .define name content => .ok (captured name content, content)
  | .reference name =>
    match bindings.lookup name with
    | some (.matched content, _) => .ok (escape content, content)
    | some (.source content, _) => .ok ("(?:".toList ++ content ++ [')'], content)
    | none => .error name
  | .defineAs name other =>
    match bindings.lookup other with
    | some (.matched content, _) => .ok (captured name (escape content), content)
    | some (.source content, _) => .ok (captured name content, content)
    | none => .error other
where
  /-- The written form of a part that gives a variable its value. -/
  captured (name : String) (content : List Char) : List Char :=
    "(?P<".toList ++ name.toList ++ ['>'] ++ content ++ [')']

/-- Whether a part is text whose character at the given end is a letter or a number. -/
def Part.isWordAt (edge : List Char → Option Char) : Part → Bool
  | .text content => (edge content).any Text.isAlphanumeric
  | _ => false

/-- The query of a pattern. Its ends have to be word boundaries where they are text that begins or
ends in a letter or number. -/
def Pattern.resolve (pattern : Pattern) (bindings : Bindings) : Except String Query := do
  let parts ← pattern.mapM (Part.resolve bindings)
  let wordStart := pattern.head?.any (Part.isWordAt List.head?)
  let wordEnd := pattern.getLast?.any (Part.isWordAt List.getLast?)
  return {
    source := (if wordStart then "\\b".toList else []) ++ (parts.map (·.1)).flatten ++
      (if wordEnd then "\\b".toList else [])
    needle := (parts.map (·.2)).flatten
    wordStart, wordEnd }

/-- The text that each variable a pattern defines has matched, once the pattern has been found. -/
def Pattern.capture (pattern : Pattern) (bindings : Bindings) (stop : Nat) : Bindings :=
  pattern.filterMap fun part =>
    match part.defined?, part.resolve bindings with
    | some name, .ok (_, content) => some (name, .matched content, stop)
    | _, _ => none

end DefiniteAssignment.Expectation
