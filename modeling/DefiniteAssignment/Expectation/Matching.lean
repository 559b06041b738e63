import DefiniteAssignment.Expectation.Directive
/-!
# Matching

Directives are matched in order against a text. Each looks for its pattern in a part of the text
that depends on what was found before, and takes the first place at which it stands. Two offsets are
kept: the end of the last match in order, and the greatest end of any match.

A pattern that must not occur waits until the next match in order, and is then looked for between
the two matches. Offsets count bytes.
-/

namespace DefiniteAssignment.Expectation

/-- A piece of a text, from one offset to another. -/
structure Range where
  start : Nat
  stop : Nat
  deriving DecidableEq

/-- What happened when a directive was tried. -/
structure Event where
  directive : Nat
  isNot : Bool
  isMatch : Bool
  source : List Char
  /-- Where it was found or, if it was not found, where it was looked for. -/
  range : Range
  deriving DecidableEq

/-- The result of matching: whether all directives held, and what was recorded on the way. -/
structure Result where
  success : Bool
  events : List Event
  deriving DecidableEq

namespace Query

/-- Whether a word begins or ends between two characters, either of which may be missing. -/
def isBoundary (before after : Option Char) : Bool :=
  before.any Text.isWordChar != after.any Text.isWordChar

/-- Whether the query stands at the front of a text, behind a given character. -/
def standsAt (q : Query) (before : Option Char) (cs : List Char) : Bool :=
  match q.needle.isPrefixOf? cs with
  | none => false
  | some rest =>
    (!q.wordStart || isBoundary before cs.head?) &&
      (!q.wordEnd || isBoundary (q.needle.getLast?.or before) rest.head?)

/-- The first place in a text, which begins at `offset`, where the query stands. -/
def findFrom (q : Query) (before : Option Char) (offset : Nat) : List Char → Option Range
  | [] => if q.standsAt before [] then some ⟨offset, offset⟩ else none
  | c :: cs =>
    if q.standsAt before (c :: cs) then some ⟨offset, offset + Text.byteLength q.needle⟩
    else findFrom q (some c) (offset + c.utf8Size) cs

/-- The first place in a piece of a text where the query stands. The piece is cut out first, so that
its ends are ends of words. -/
def find? (q : Query) (text : List Char) (range : Range) : Option Range :=
  q.findFrom none range.start
    (Text.takeBytes (range.stop - range.start) (Text.dropBytes range.start text))

end Query

/-- The offset behind the next line feed at or behind an offset, or the end of the text. -/
def lineEnd (text : List Char) (offset : Nat) : Nat :=
  let rest := Text.dropBytes offset text
  offset + Text.byteLength (rest.takeWhile (· != '\n')) +
    (if '\n' ∈ rest then 1 else 0)

/-- A pattern that must not occur: the number of its directive, where it is to be looked for from,
and its query. -/
structure Pending where
  directive : Nat
  start : Nat
  query : Query

/-- The matcher between two directives. -/
structure Matcher where
  lastOrdered : Nat := 0
  maxMatch : Nat := 0
  bindings : Bindings := []
  pending : List Pending := []
  /-- What was recorded so far, the latest first. -/
  events : List Event := []

namespace Matcher

/-- The offset behind which a pattern may be looked for out of order: the last match in order, or
where a variable that it needs got its value. -/
def unorderedStart (m : Matcher) (pattern : Pattern) : Nat :=
  (pattern.filterMap Part.needed?).foldl
    (fun start name => max start (((m.bindings.lookup name).map (·.2)).getD 0)) m.lastOrdered

/-- Where a directive looks for its pattern. -/
def range (m : Matcher) (text : List Char) (scope : Scope) (pattern : Pattern) : Range :=
  let length := Text.byteLength text
  match scope with
  | .anywhere => ⟨m.maxMatch, length⟩
  | .sameLine => ⟨m.maxMatch, lineEnd text m.maxMatch⟩
  | .nextLine =>
    let line := lineEnd text m.maxMatch
    ⟨line, lineEnd text line⟩
  | .unordered => ⟨m.unorderedStart pattern, length⟩

/-- Looks for the patterns that wait up to an offset; stops at the first that occurs. The flag says
that none does. -/
def settlePending (text : List Char) (stop : Nat) :
    List Pending → List Event → Bool × List Event
  | [], events => (true, events)
  | p :: later, events =>
    match p.query.find? text ⟨p.start, stop⟩ with
    | some found => (false, ⟨p.directive, true, true, p.query.source, found⟩ :: events)
    | none =>
      settlePending text stop later
        (⟨p.directive, true, false, p.query.source, ⟨p.start, stop⟩⟩ :: events)

/-- Matches numbered directives one after the other. The name of a variable without a value is an
error. -/
def run (text : List Char) : List (Directive × Nat) → Matcher → Except String Result
  | [], m =>
    let length := Text.byteLength text
    -- What still waits is looked for to the end, and leaves no record.
    let occurs := m.pending.any fun p => (p.query.find? text ⟨p.start, length⟩).isSome
    .ok ⟨!occurs, m.events.reverse⟩
  | (.regex name source, _) :: later, m =>
    run text later { m with bindings := (name, .source source, 0) :: m.bindings }
  | (.not pattern, number) :: later, m => do
    let query ← pattern.resolve m.bindings
    let waiting : Pending := ⟨number, m.unorderedStart pattern, query⟩
    run text later { m with pending := m.pending ++ [waiting] }
  | (.check scope pattern, number) :: later, m => do
    let range := m.range text scope pattern
    let query ← pattern.resolve m.bindings
    match query.find? text range with
    | none =>
      return ⟨false, (⟨number, false, false, query.source, range⟩ :: m.events).reverse⟩
    | some found =>
      let events := ⟨number, false, true, query.source, found⟩ :: m.events
      let bindings := pattern.capture m.bindings found.stop ++ m.bindings
      -- Only a match in order settles what waits before it.
      if scope = .unordered then
        run text later
          { m with maxMatch := max m.maxMatch found.stop, bindings, events }
      else
        let (absent, events) := settlePending text found.start m.pending events
        if absent then
          run text later
            { lastOrdered := found.stop, maxMatch := found.stop, bindings, pending := [], events }
        else return ⟨false, events.reverse⟩

end Matcher

/-- Matches directives against a text. -/
def matchDirectives (text : List Char) (directives : List Directive) : Except String Result :=
  Matcher.run text directives.zipIdx {}

end DefiniteAssignment.Expectation
