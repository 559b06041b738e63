import DefiniteAssignment.Text.Alphabet
/-!
# Character classes

The classes of characters that names, numerals, blanks and word boundaries are made of. Each is
decided on ASCII by a short test and beyond ASCII by a table.
-/

namespace DefiniteAssignment.Text

/-- A letter or a number: the property Alphabetic or one of the number categories. -/
def isAlphanumeric (c : Char) : Bool :=
  if c.toNat < 128 then c.isAlphanum
  else inInversionList alphabeticChanges c.toNat || inInversionList decimalDigitChanges c.toNat ||
    inInversionList otherNumberChanges c.toNat

/-- A character of a word: a letter, a mark, a decimal digit, a connector such as the underscore,
or a joiner. The bounds of words are drawn by the edition of Unicode before the newest, so that what
is new in the newest belongs to no word, also if it is a letter to `isAlphanumeric`. -/
def isWordChar (c : Char) : Bool :=
  if c.toNat < 128 then c.isAlphanum || c == '_'
  else
    (inInversionList alphabeticChanges c.toNat || inInversionList decimalDigitChanges c.toNat ||
      inInversionList markAndJoinChanges c.toNat) && !inInversionList newWordCharChanges c.toNat

/-- The property White_Space, which has 25 members. -/
def isWhiteSpace (c : Char) : Bool :=
  let n := c.toNat
  (9 ≤ n && n ≤ 13) || n == 0x20 || n == 0x85 || n == 0xA0 || n == 0x1680 ||
    (0x2000 ≤ n && n ≤ 0x200A) || n == 0x2028 || n == 0x2029 || n == 0x202F || n == 0x205F ||
    n == 0x3000

/-- The first character of an identifier: an ASCII letter or the underscore. -/
def isIdentStart (c : Char) : Bool :=
  c.isAlpha || c == '_'

/-- A later character of an identifier: an ASCII letter, a digit, the underscore or the dollar. -/
def isIdentChar (c : Char) : Bool :=
  c.isAlphanum || c == '_' || c == '$'

/-- A character of a function's name: a letter or number of any script, or the underscore. -/
def isFunctionNameChar (c : Char) : Bool :=
  isAlphanumeric c || c == '_'

/-- The ASCII letters by their code points. -/
theorem toNat_of_isAlpha {c : Char} (h : c.isAlpha) :
    65 ≤ c.toNat ∧ c.toNat ≤ 90 ∨ 97 ≤ c.toNat ∧ c.toNat ≤ 122 := by
  have hcases : (decide (c.val ≥ 65 ∧ c.val ≤ 90) ||
      decide (c.val ≥ 97) && decide (c.val ≤ 122)) = true := h
  simpa [UInt32.le_iff_toNat_le] using hcases

/-- The digits by their code points. -/
theorem toNat_of_isDigit {c : Char} (h : c.isDigit) : 48 ≤ c.toNat ∧ c.toNat ≤ 57 := by
  have hcases : (decide (c.val ≥ 48) && decide (c.val ≤ 57)) = true := h
  simpa [UInt32.le_iff_toNat_le] using hcases

/-- An identifier can go on with what it can begin with. -/
theorem isIdentChar_of_isIdentStart {c : Char} (h : isIdentStart c) : isIdentChar c := by
  simp only [isIdentStart, isIdentChar, Char.isAlphanum, Bool.or_eq_true] at h ⊢
  rcases h with h | h <;> simp [h]

end DefiniteAssignment.Text
