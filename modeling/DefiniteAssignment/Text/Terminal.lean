/-!
# Text for a terminal

A terminal takes some characters as orders: control characters, and the sequences that begin with
the escape character. `plain` is what it would show of a text that it receives from its start, with
the orders left out. Of the control characters, the blanks count as shown, also within a sequence.

Main statement: a text in which every character is shown by itself is left as it is
(`plain_of_forall_isShown`).
-/

namespace DefiniteAssignment.Text.Terminal

/-- Where a text stands in a sequence. -/
inductive Position where
  /-- In no sequence. -/
  | ground
  /-- Behind the escape character. -/
  | escape
  /-- In an escape sequence, behind its first intermediate character. -/
  | escapeIntermediate
  /-- In a control sequence. -/
  | controlSequence
  /-- Before the head of a device control string. -/
  | deviceControl
  /-- In the head of a device control string, among its parameters. -/
  | deviceParameter
  /-- In the head of a device control string, behind its first intermediate character. -/
  | deviceIntermediate
  /-- In the body of a string that the byte 0x9C ends. -/
  | body
  /-- In an operating system command, which the bell ends. -/
  | systemCommand
  deriving DecidableEq, Repr

/-- The blanks among the control characters: tabulator, line feed, form feed, carriage return. -/
def isControlBlank (c : Char) : Bool :=
  c == '\t' || c == '\n' || c == '\x0c' || c == '\r'

/-- Whether a character is shown that stands in no sequence. -/
def isShown (c : Char) : Bool :=
  if c.toNat < 0x20 then isControlBlank c else c.toNat != 0x7F

/-- An intermediate character of a sequence. -/
def isIntermediate (c : Char) : Bool :=
  0x20 ≤ c.toNat && c.toNat ≤ 0x2F

/-- A character that ends a sequence, given the first that does. -/
def isFinal (first : Char) (c : Char) : Bool :=
  first.toNat ≤ c.toNat && c.toNat ≤ 0x7E

/-- Whether the bytes of a character contain the one that ends the body of a string. -/
def hasStringEnd (c : Char) : Bool :=
  (String.utf8EncodeChar c).contains 0x9C

namespace Position

/-- The position behind the escape character and one more. -/
def behindEscape (c : Char) : Position :=
  match c with
  | '[' => controlSequence
  | ']' => systemCommand
  | 'P' => deviceControl
  | 'X' | '^' | '_' => body
  | c =>
    if isIntermediate c then escapeIntermediate
    else if isFinal '0' c then ground
    else escape

/-- The position behind one more character. The escape character begins a sequence at any position,
and the characters that cancel one end it at any position. -/
def next (p : Position) (c : Char) : Position :=
  if c = '\x18' || c = '\x1a' then ground
  else if c = '\x1b' then escape
  else
    match p with
    | ground => ground
    | escape => behindEscape c
    | escapeIntermediate => if isFinal '0' c then ground else p
    | controlSequence => if isFinal '@' c then ground else p
    | deviceControl =>
      if isIntermediate c then deviceIntermediate
      else if isFinal '@' c then body
      else if isFinal '0' c then deviceParameter
      else p
    | deviceParameter =>
      if isIntermediate c then deviceIntermediate else if isFinal '<' c then body else p
    | deviceIntermediate => if isFinal '0' c then body else p
    | body => if hasStringEnd c then ground else p
    | systemCommand => if c = '\x07' then ground else p

/-- Whether a character is shown at a position. Within the sequences that are no strings, the
control characters keep their effect. -/
def shows (p : Position) (c : Char) : Bool :=
  match p with
  | ground => isShown c
  | escape | escapeIntermediate | controlSequence => isControlBlank c
  | _ => false

end Position

/-- What is shown of a text, given where it stands and whether its last character was shown. What
follows a shown character is shown like in no sequence, until a character is not; only then the
sequence that may have been interrupted goes on. A character beyond ASCII ends it. -/
def shownFrom (p : Position) (showing : Bool) : List Char → List Char
  | [] => []
  | c :: rest =>
    if showing && isShown c then
      c :: shownFrom (if c.toNat < 0x80 then p else .ground) true rest
    else if p.shows c then c :: shownFrom (p.next c) true rest
    else shownFrom (p.next c) false rest

/-- A text without what a terminal takes as orders. -/
def plain (text : String) : String :=
  String.ofList (shownFrom .ground false text.toList)

theorem shownFrom_of_forall_isShown {cs : List Char} (shown : ∀ c ∈ cs, isShown c)
    (showing : Bool) : shownFrom .ground showing cs = cs := by
  induction cs generalizing showing with
  | nil => rfl
  | cons c rest ih =>
    have head : isShown c := shown c List.mem_cons_self
    have tail := ih fun d hd => shown d (List.mem_cons_of_mem c hd)
    -- A cancelling or escaping character is not shown, so the position stays the ground.
    have stays : Position.ground.next c = .ground := by
      have notEscape : c ≠ '\x1b' := by rintro rfl; exact absurd head (by decide)
      simp [Position.next, notEscape]
    cases showing <;> simp [shownFrom, Position.shows, head, stays, tail]

/-- A text in which every character is shown by itself is left as it is. -/
theorem plain_of_forall_isShown {text : String} (shown : ∀ c ∈ text.toList, isShown c) :
    plain text = text := by
  simp [plain, shownFrom_of_forall_isShown shown]

end DefiniteAssignment.Text.Terminal
