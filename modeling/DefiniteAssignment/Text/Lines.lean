import DefiniteAssignment.Text.CharClass
/-!
# Lines and words

How a text is cut: into lines at its line feeds, into words at its white space, and how many bytes
of UTF-8 a piece of it takes.
-/

namespace DefiniteAssignment.Text

/-- The number of bytes of a text in UTF-8. -/
def byteLength : List Char → Nat
  | [] => 0
  | c :: cs => c.utf8Size + byteLength cs

/-- The text after its first `n` bytes. A character that the cut would split is dropped whole. -/
def dropBytes : Nat → List Char → List Char
  | _, [] => []
  | 0, cs => cs
  | n + 1, c :: cs => dropBytes (n + 1 - c.utf8Size) cs

/-- The first `n` bytes of a text. A character that the cut would split is kept whole. -/
def takeBytes : Nat → List Char → List Char
  | _, [] => []
  | 0, _ => []
  | n + 1, c :: cs => c :: takeBytes (n + 1 - c.utf8Size) cs

/-- A text without the carriage return at its end, if there is one. -/
def dropReturn (line : List Char) : List Char :=
  if line.getLast? = some '\r' then line.dropLast else line

/-- The lines of a text. A line ends at a line feed, and a carriage return before it belongs to the
line's end; what follows the last line feed is a line only if it is not empty. -/
def lines (cs : List Char) : List (List Char) :=
  match _h : cs.dropWhile (· != '\n') with
  | [] => if cs.isEmpty then [] else [cs]
  | _ :: rest => dropReturn (cs.takeWhile (· != '\n')) :: lines rest
termination_by cs.length
decreasing_by
  have := (List.dropWhile_sublist (l := cs) (· != '\n')).length_le
  simp only [_h, List.length_cons] at this
  omega

/-- A text without the white space it begins with. -/
def trimStart (cs : List Char) : List Char :=
  cs.dropWhile isWhiteSpace

/-- A text without the white space it ends in. -/
def trimEnd (cs : List Char) : List Char :=
  (cs.reverse.dropWhile isWhiteSpace).reverse

/-- A text without the white space at both its ends. -/
def trim (cs : List Char) : List Char :=
  trimEnd (trimStart cs)

/-- The longest pieces of a text that hold no white space. -/
def words (cs : List Char) : List (List Char) :=
  match _h : trimStart cs with
  | [] => []
  | c :: rest =>
    ((c :: rest).takeWhile (! isWhiteSpace ·)) :: words (rest.dropWhile (! isWhiteSpace ·))
termination_by cs.length
decreasing_by
  have h1 := (List.dropWhile_sublist (l := cs) isWhiteSpace).length_le
  have h2 := (List.dropWhile_sublist (l := rest) (! isWhiteSpace ·)).length_le
  simp only [trimStart] at _h
  simp only [_h, List.length_cons] at h1
  omega

/-- A text's lines, each trimmed, less those that are blank. -/
def normalizedLines (cs : List Char) : List (List Char) :=
  ((lines cs).map trim).filter (! ·.isEmpty)

/-- Pieces put behind one another with line feeds between them. -/
def joinLines (ls : List (List Char)) : List Char :=
  ['\n'].intercalate ls

@[simp]
theorem byteLength_nil : byteLength [] = 0 := rfl

@[simp]
theorem byteLength_cons (c : Char) (cs : List Char) :
    byteLength (c :: cs) = c.utf8Size + byteLength cs := rfl

/-- The bytes of two texts add up. -/
@[simp]
theorem byteLength_append (cs ds : List Char) :
    byteLength (cs ++ ds) = byteLength cs + byteLength ds := by
  induction cs with
  | nil => simp
  | cons c cs ih => simp [ih, Nat.add_assoc]

/-- Counting by characters gives the length in bytes that a string has. -/
theorem byteLength_toList (text : String) : byteLength text.toList = text.utf8ByteSize := by
  rw [← String.ofList_toList (s := text)]
  generalize text.toList = cs
  rw [String.toList_ofList]
  induction cs with
  | nil => rfl
  | cons c cs ih =>
    rw [byteLength_cons, ih, String.ofList_cons, String.utf8ByteSize_append,
      String.utf8ByteSize_singleton]

end DefiniteAssignment.Text
