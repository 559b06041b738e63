/-!
# Bit sets

A set of numbers below a capacity, kept as 64-bit words: number `i` is in the set if bit `i % 64` of
word `i / 64` is one. Operations on two sets of different capacities give a set of the greater one;
words that the smaller set does not have count as zero. No bit at or above the capacity is ever one,
so two sets are equal as data exactly if they have the same capacity and the same members.
-/

namespace DefiniteAssignment

/-- A set of numbers below `capacity`, one bit for each. -/
structure BitSet where
  words : Array UInt64
  capacity : Nat
  deriving DecidableEq

namespace BitSet

/-- Whether a bit of a word, given by its number below 64, is one. -/
def testBit (word : UInt64) (i : Nat) : Bool :=
  (word >>> UInt64.ofNat i) &&& 1 != 0

/-- The word whose only one is the bit of a given number below 64. -/
def oneBit (i : Nat) : UInt64 :=
  1 <<< UInt64.ofNat i

/-- The number of words that hold so many bits. -/
def wordCount (capacity : Nat) : Nat :=
  (capacity + 63) / 64

/-- The set without members. -/
def empty (capacity : Nat) : BitSet :=
  ⟨Array.replicate (wordCount capacity) 0, capacity⟩

/-- Clears the bits of the last word that are at or above the capacity. -/
def clearTail (s : BitSet) : BitSet :=
  -- The last word is full if the capacity is a multiple of 64.
  if s.capacity % 64 = 0 then s
  else { s with
    words := s.words.modify (s.words.size - 1) (· &&& (oneBit (s.capacity % 64) - 1)) }

/-- The set of all numbers below a capacity. -/
def full (capacity : Nat) : BitSet :=
  clearTail ⟨Array.replicate (wordCount capacity) (~~~0), capacity⟩

/-- A word of the set; zero beyond the last one. -/
def word (s : BitSet) (i : Nat) : UInt64 :=
  s.words[i]?.getD 0

/-- Whether a number is in the set. -/
def contains (s : BitSet) (i : Nat) : Bool :=
  i < s.capacity && testBit (s.word (i / 64)) (i % 64)

/-- Adds a number; a number at or above the capacity changes nothing. -/
def insert (s : BitSet) (i : Nat) : BitSet :=
  if i < s.capacity then
    { s with words := s.words.modify (i / 64) (· ||| oneBit (i % 64)) }
  else s

/-- Removes a number, if it is there. -/
def erase (s : BitSet) (i : Nat) : BitSet :=
  if i < s.capacity then
    { s with words := s.words.modify (i / 64) (· &&& ~~~(oneBit (i % 64))) }
  else s

/-- Combines two sets word by word. -/
def zipWith (op : UInt64 → UInt64 → UInt64) (s t : BitSet) : BitSet :=
  clearTail
    ⟨(Array.range (max s.words.size t.words.size)).map fun i => op (s.word i) (t.word i),
      max s.capacity t.capacity⟩

/-- The numbers in both sets. -/
def intersection : BitSet → BitSet → BitSet :=
  zipWith (· &&& ·)

/-- The numbers in either set. -/
def union : BitSet → BitSet → BitSet :=
  zipWith (· ||| ·)

/-- The numbers in the first set that are not in the second. -/
def difference : BitSet → BitSet → BitSet :=
  zipWith fun a b => a &&& ~~~b

/-- Whether every number of the first set is in the second. -/
def isSubset (s t : BitSet) : Bool :=
  (List.range s.words.size).all fun i => s.word i &&& ~~~(t.word i) == 0

/-- The numbers below 64 whose bit in a word is one, ascending. -/
def bitsOf (word : UInt64) : List Nat :=
  if word = 0 then [] else (List.range 64).filter (testBit word)

/-- The members, ascending. -/
def toList (s : BitSet) : List Nat :=
  s.words.toList.zipIdx.flatMap fun (word, i) => (bitsOf word).map (64 * i + ·)

/-- The number of bits of a word that are one. -/
def bitCount (word : UInt64) : Nat :=
  if word = 0 then 0 else (List.range 64).countP (testBit word)

/-- The number of members. -/
def size (s : BitSet) : Nat :=
  s.words.toList.foldr (fun word count => bitCount word + count) 0

/-- Whether there is no member. -/
def isEmpty (s : BitSet) : Bool :=
  s.words.all (· == 0)

/-- The set of the numbers in a list, with the least capacity that holds them. -/
def ofList (items : List Nat) : BitSet :=
  items.foldl insert (empty (items.foldl (fun bound i => max bound (i + 1)) 0))

/-- The members in braces, on one line. -/
protected def toString (s : BitSet) : String :=
  "\x7b" ++ ", ".intercalate (s.toList.map fun i => toString i) ++ "\x7d"

instance : ToString BitSet :=
  ⟨BitSet.toString⟩

/-- The members in braces, each on a line of its own. -/
def toLines (s : BitSet) : String :=
  match s.toList with
  | [] => "\x7b\x7d"
  | members =>
    "\x7b\n" ++ String.join (members.map fun i => "    " ++ toString i ++ ",\n") ++ "\x7d"

end BitSet

end DefiniteAssignment
