import DefiniteAssignment.Proofs.Grammar.Readers
/-!
# Blanks, names and numerals as read

For each of the smallest readers, exactly when it takes what. A name or numeral is taken up to its
end, so it is read back only where a character follows that cannot be part of it: `Piece.EndsAt`
says this of each of them, `WordEnds` of all of them at once. Blanks are taken as far as they go,
whichever way a text is divided into them (`Blank.skipBlanks_eq`).

A keyword is read only as a whole word: where an identifier stands that begins with the word, the
keyword is declined (`keyword_eq_none`). This is why a variable may have the name of a keyword, or a
name that a keyword begins.
-/

namespace DefiniteAssignment

open Grammar
open Text (isIdentStart isIdentChar isFunctionNameChar)

/-- A name of a variable begins with a letter or an underscore, and goes on with what a name may
have. -/
theorem isIdentifier_iff {name : String} :
    isIdentifier name ↔
      ∃ c cs, name.toList = c :: cs ∧ isIdentStart c ∧ ∀ d ∈ cs, isIdentChar d := by
  unfold isIdentifier
  split
  next h => simp [h]
  next c cs h => simp only [h, Bool.and_eq_true, List.all_eq_true]; grind

/-- A name of a function is any run of its characters that is not empty. -/
theorem isFunctionName_iff {name : String} :
    isFunctionName name ↔ name.toList ≠ [] ∧ ∀ c ∈ name.toList, isFunctionNameChar c := by
  simp [isFunctionName]

/-- The first character of a name is one that a name may have, too. -/
theorem isIdentChar_of_isIdentifier {name : String} (h : isIdentifier name) :
    ∀ c ∈ name.toList, isIdentChar c := by
  obtain ⟨c, cs, hname, hc, hcs⟩ := isIdentifier_iff.1 h
  rw [hname]
  exact List.forall_mem_cons.2 ⟨Text.isIdentChar_of_isIdentStart hc, hcs⟩

namespace Grammar

variable {cs mid rest : List Char}

section Ends

/-- No name or numeral goes on here. -/
def WordEnds (cs : List Char) : Prop :=
  Stops (fun c => isIdentChar c || isFunctionNameChar c) cs

/-- A piece does not go on here. Only names, numerals and words that could be names can go on. -/
def Piece.EndsAt : Piece → List Char → Prop
  | word text, rest => isIdentifier text → Stops isIdentChar rest
  | identifier _, rest => Stops isIdentChar rest
  | functionName _, rest => Stops isFunctionNameChar rest
  | number _, rest | integer _, rest => Stops Char.isDigit rest
  | gap, _ | space, _ | blanks, _ | lineEnd, _ => True

/-- Something visible comes next: neither a blank nor a comment. -/
def Visible (cs : List Char) : Prop :=
  ∃ c rest, cs = c :: rest ∧ isBlank c = false ∧ c ≠ ';'

/-- Where nothing goes on, no name of a variable does. -/
theorem WordEnds.ident (h : WordEnds cs) : Stops isIdentChar cs :=
  Stops.mono h fun _ hc => (Bool.or_eq_false_iff.1 hc).1

/-- Nor does a name of a function. -/
theorem WordEnds.functionName (h : WordEnds cs) : Stops isFunctionNameChar cs :=
  Stops.mono h fun _ hc => (Bool.or_eq_false_iff.1 hc).2

/-- Nor does a numeral, since a digit may stand in a name. -/
theorem WordEnds.digit (h : WordEnds cs) : Stops Char.isDigit cs :=
  Stops.mono h.ident fun c hc => by
    cases hd : c.isDigit with
    | false => rfl
    | true => simp [isIdentChar, Char.isAlphanum, hd] at hc

/-- So every piece ends where nothing goes on. -/
theorem WordEnds.endsAt (h : WordEnds cs) (p : Piece) : p.EndsAt cs := by
  cases p with
  | word => exact fun _ => h.ident
  | identifier => exact h.ident
  | functionName => exact h.functionName
  | number | integer => exact h.digit
  | gap | space | blanks | lineEnd => trivial

/-- The four blanks. -/
theorem isBlank_eq_or {c : Char} (h : isBlank c) : c = ' ' ∨ c = '\t' ∨ c = '\r' ∨ c = '\n' := by
  simpa [isBlank, or_assoc] using h

/-- The two blanks that do not end a line. -/
theorem isSpace_eq_or {c : Char} (h : isSpace c) : c = ' ' ∨ c = '\t' := by
  simpa [isSpace] using h

/-- Spaces and tabs are blanks. -/
theorem isBlank_of_isSpace {c : Char} (h : isSpace c) : isBlank c := by
  rcases isSpace_eq_or h with rfl | rfl <;> rfl

/-- A class that has neither blanks nor the sign that begins a comment. -/
theorem isBlank_eq_false_of_class {p : Char → Bool} (hspace : p ' ' = false) (htab : p '\t' = false)
    (hreturn : p '\r' = false) (hfeed : p '\n' = false) (hsign : p ';' = false) {c : Char}
    (h : p c = true) : isBlank c = false ∧ c ≠ ';' := by
  constructor
  · rw [← Bool.not_eq_true]
    intro hb
    rcases isBlank_eq_or hb with rfl | rfl | rfl | rfl
    · exact Bool.false_ne_true (hspace.symm.trans h)
    · exact Bool.false_ne_true (htab.symm.trans h)
    · exact Bool.false_ne_true (hreturn.symm.trans h)
    · exact Bool.false_ne_true (hfeed.symm.trans h)
  · intro hc
    subst hc
    exact Bool.false_ne_true (hsign.symm.trans h)

/-- No character of a variable's name is skipped. -/
theorem isBlank_eq_false_of_isIdentChar {c : Char} (h : isIdentChar c) :
    isBlank c = false ∧ c ≠ ';' :=
  isBlank_eq_false_of_class rfl rfl rfl rfl rfl h

/-- Nor is one of a function's name. -/
theorem isBlank_eq_false_of_isFunctionNameChar {c : Char} (h : isFunctionNameChar c) :
    isBlank c = false ∧ c ≠ ';' :=
  isBlank_eq_false_of_class rfl rfl rfl rfl rfl h

/-- In front of something visible, all spaces have been taken. -/
theorem Visible.stops_space (h : Visible cs) : Stops isSpace cs := by
  obtain ⟨c, rest, rfl, hc, -⟩ := h
  rw [stops_cons]
  cases hs : isSpace c with
  | false => rfl
  | true => exact (isBlank_of_isSpace hs).symm.trans hc

/-- A gap ends whatever stands in front of it, or is empty and changes nothing. -/
theorem WordEnds.of_gap (h : Gap cs rest) (hrest : WordEnds rest) : WordEnds cs := by
  obtain ⟨run, hrun, rfl⟩ := h
  cases run with
  | nil => exact hrest
  | cons c run =>
    rcases isSpace_eq_or (hrun c List.mem_cons_self) with rfl | rfl <;> exact stops_cons.2 rfl

/-- A gap that must not be empty ends it in any case. -/
theorem WordEnds.of_space (h : Piece.space.Spans cs rest) : WordEnds cs := by
  obtain ⟨c, mid, hc, rfl, -⟩ := h
  rcases isSpace_eq_or hc with rfl | rfl <;> exact stops_cons.2 rfl

/-- Blanks and comments end it as gaps do. -/
theorem WordEnds.of_blank (h : Blank cs rest) (hrest : WordEnds rest) : WordEnds cs := by
  cases h with
  | nothing => exact hrest
  | char blank _ =>
    rcases isBlank_eq_or blank with rfl | rfl | rfl | rfl <;> exact stops_cons.2 rfl
  | comment => exact stops_cons.2 rfl

/-- An end of a line ends it, also if a comment comes first. -/
theorem WordEnds.of_lineEnd (h : LineEnd cs) : WordEnds cs := by
  obtain ⟨c, rest, hgap, hc⟩ := h
  refine .of_gap hgap ?_
  rcases hc with rfl | rfl | rfl <;> exact stops_cons.2 rfl

end Ends

section Blanks

/-- A gap behind a gap is a gap. -/
theorem Gap.trans (h : Gap cs mid) (h' : Gap mid rest) : Gap cs rest := by
  obtain ⟨run, hrun, rfl⟩ := h
  obtain ⟨run', hrun', rfl⟩ := h'
  exact ⟨run ++ run', by simpa [or_imp, forall_and] using ⟨hrun, hrun'⟩, by simp⟩

/-- A gap may be empty. -/
theorem gap_nil (cs : List Char) : Gap cs cs :=
  ⟨[], by simp, rfl⟩

/-- Gaps are blanks. -/
theorem Gap.blank (h : Gap cs rest) : Blank cs rest := by
  obtain ⟨run, hrun, rfl⟩ := h
  induction run with
  | nil => exact .nothing rest
  | cons c run ih =>
    obtain ⟨hc, hrun⟩ := List.forall_mem_cons.1 hrun
    exact .char (isBlank_of_isSpace hc) (ih hrun)

/-- Blanks behind blanks are blanks. -/
theorem Blank.trans (h : Blank cs mid) (h' : Blank mid rest) : Blank cs rest := by
  induction h with
  | nothing => exact h'
  | char blank _ ih => exact .char blank (ih h')
  | comment body_ne ends _ ih => exact .comment body_ne ends (ih h')

/-- Blanks are taken off the front of a text. -/
theorem Blank.suffix (h : Blank cs rest) : rest <:+ cs := by
  induction h with
  | nothing => exact List.suffix_refl _
  | char _ _ ih => exact ih.trans (List.suffix_cons _ _)
  | comment _ _ _ ih => exact (ih.trans (List.suffix_append _ _)).trans (List.suffix_cons _ _)

/-- A space is a gap. -/
theorem gap_of_space (h : Piece.space.Spans cs rest) : Gap cs rest := by
  obtain ⟨c, mid, hc, rfl, run, hrun, rfl⟩ := h
  exact ⟨c :: run, List.forall_mem_cons.2 ⟨hc, hrun⟩, rfl⟩

/-- All spaces that a text begins with are a gap. -/
theorem gap_dropWhile (cs : List Char) : Gap cs (cs.dropWhile isSpace) :=
  ⟨cs.takeWhile isSpace, fun c hc => List.all_eq_true.1 List.all_takeWhile c hc,
    List.takeWhile_append_dropWhile.symm⟩

/-- The reader of gaps takes a gap, and as much of it as there is. -/
theorem spaces_eq_some_iff {u : Unit} :
    spaces cs = some (u, rest) ↔ Gap cs rest ∧ Stops isSpace rest := by
  have : spaces cs = some ((), cs.dropWhile isSpace) := rfl
  rw [this]
  constructor
  · rintro ⟨⟩
    exact ⟨gap_dropWhile cs, stops_dropWhile cs⟩
  · rintro ⟨⟨run, hrun, rfl⟩, hrest⟩
    rw [dropWhile_append_of_stops hrun hrest]

/-- There is one place at which the spaces end. -/
theorem Gap.unique (h : Gap cs mid) (hmid : Stops isSpace mid) (h' : Gap cs rest)
    (hrest : Stops isSpace rest) : mid = rest := by
  have hspaces : spaces cs = some ((), mid) := spaces_eq_some_iff.2 ⟨h, hmid⟩
  have hspaces' : spaces cs = some ((), rest) := spaces_eq_some_iff.2 ⟨h', hrest⟩
  exact congrArg Prod.snd (Option.some.inj (hspaces.symm.trans hspaces'))

/-- So does the reader of gaps that must not be empty. -/
theorem spaces1_eq_some_iff {u : Unit} :
    spaces1 cs = some (u, rest) ↔ Piece.space.Spans cs rest ∧ Stops isSpace rest := by
  simp only [spaces1, Reader.bind_eq_some_iff, Reader.run1_eq_some_iff, Reader.pure_apply]
  constructor
  · rintro ⟨run, mid, ⟨hne, hrun, rfl, hmid⟩, ⟨⟩⟩
    obtain ⟨c, run, rfl⟩ := List.exists_cons_of_ne_nil hne
    obtain ⟨hc, hrun⟩ := List.forall_mem_cons.1 hrun
    exact ⟨⟨c, run ++ rest, hc, rfl, run, hrun, rfl⟩, hmid⟩
  · rintro ⟨⟨c, mid, hc, rfl, run, hrun, rfl⟩, hrest⟩
    exact ⟨c :: run, rest, ⟨by simp, List.forall_mem_cons.2 ⟨hc, hrun⟩, rfl, hrest⟩, rfl⟩

/-- A character that does not end a line. -/
abbrev inLine (c : Char) : Bool :=
  c != '\n' && c != '\r'

/-- A comment goes up to the first character that ends a line. -/
theorem EndsComment.stops (h : EndsComment cs) : Stops inLine cs := by
  cases h <;> simp [inLine]

/-- Behind its last character that does not end a line, a comment is over if a line ends there. -/
theorem afterComment_append {body : List Char} (hbody : ∀ c ∈ body, inLine c)
    (hcs : Stops inLine cs) :
    afterComment (body ++ cs) = some rest ↔ EndsComment cs ∧ rest = cs := by
  unfold afterComment
  rw [dropWhile_append_of_stops hbody hcs]
  split
  next after => exact ⟨fun h => ⟨.both after, (Option.some.inj h).symm⟩, fun h => by rw [h.2]⟩
  next after hcrlf =>
    refine iff_of_false (by simp) ?_
    rintro ⟨hends, -⟩
    cases hends with
    | both rest => exact hcrlf rest rfl
  next hcrlf hcr =>
    refine ⟨fun h => ⟨?_, (Option.some.inj h).symm⟩, fun h => by rw [h.2]⟩
    cases cs with
    | nil => exact .text
    | cons c tail =>
      obtain rfl : c = '\n' := by
        by_cases hc : c = '\n'
        · exact hc
        · have : c = '\r' := by simpa [inLine, hc] using hcs
          exact absurd (by rw [this]) (hcr tail)
      exact .lineFeed tail

/-- What follows the body of a comment is left. -/
theorem afterComment_eq_some_iff :
    afterComment cs = some rest ↔
      ∃ body, (∀ c ∈ body, c ≠ '\n' ∧ c ≠ '\r') ∧ EndsComment rest ∧ cs = body ++ rest := by
  have hclass : ∀ c : Char, inLine c ↔ c ≠ '\n' ∧ c ≠ '\r' := by simp [inLine]
  simp only [← hclass]
  constructor
  · intro h
    have hbody : ∀ c ∈ cs.takeWhile inLine, inLine c :=
      fun c hc => List.all_eq_true.1 List.all_takeWhile c hc
    have hcs : cs.takeWhile inLine ++ cs.dropWhile inLine = cs := List.takeWhile_append_dropWhile
    rw [← hcs, afterComment_append hbody (stops_dropWhile cs)] at h
    obtain ⟨hends, rfl⟩ := h
    exact ⟨_, hbody, hends, hcs.symm⟩
  · rintro ⟨body, hbody, hends, rfl⟩
    exact (afterComment_append hbody hends.stops).2 ⟨hends, rfl⟩

/-- What the reader of blanks leaves is reached by blanks. -/
theorem blank_skipBlanks (cs : List Char) : Blank cs (skipBlanks cs) := by
  fun_induction skipBlanks cs with
  | case1 => exact .nothing []
  | case2 c cs hc ih => exact .char hc ih
  | case3 cs after hafter hc ih =>
    obtain ⟨body, hbody, hends, rfl⟩ := afterComment_eq_some_iff.1 hafter
    exact .comment hbody hends ih
  | case4 => exact .nothing _
  | case5 => exact .nothing _

/-- However far a text has been divided into blanks, the reader of blanks goes on to the same
place. -/
theorem Blank.skipBlanks_eq (h : Blank cs rest) : skipBlanks cs = skipBlanks rest := by
  induction h with
  | nothing => rfl
  | char blank _ ih => rw [skipBlanks, if_pos blank, ih]
  | comment body_ne ends _ ih =>
    rw [skipBlanks, if_neg (by decide), if_pos rfl]
    have := afterComment_eq_some_iff.2 ⟨_, body_ne, ends, rfl⟩
    grind

/-- The reader of blanks always succeeds. -/
theorem blanks_eq_some_iff {u : Unit} : blanks cs = some (u, rest) ↔ skipBlanks cs = rest := by
  simp [blanks]

/-- What it takes is given by where it leaves off. -/
theorem blanks_of_eq (h : skipBlanks cs = rest) : blanks cs = some ((), rest) :=
  blanks_eq_some_iff.2 h

/-- In front of something visible there is nothing to skip. -/
theorem Visible.skipBlanks (h : Visible cs) : skipBlanks cs = cs := by
  obtain ⟨c, rest, rfl, hc, hsemi⟩ := h
  rw [Grammar.skipBlanks, if_neg (by simp [hc]), if_neg hsemi]

/-- Blanks in front of something visible are skipped up to it. -/
theorem Blank.skipBlanks_of_visible (h : Blank cs rest) (hrest : Visible rest) :
    Grammar.skipBlanks cs = rest :=
  h.skipBlanks_eq.trans hrest.skipBlanks

/-- What is left behind the blanks begins with no more of them. -/
theorem skipBlanks_skipBlanks (cs : List Char) : skipBlanks (skipBlanks cs) = skipBlanks cs :=
  (blank_skipBlanks cs).skipBlanks_eq.symm

end Blanks

section Words

variable {word other : String}

/-- A keyword is read where it stands and no longer word does. -/
theorem keyword_eq_some_iff {u : Unit} :
    keyword word cs = some (u, rest) ↔ cs = word.toList ++ rest ∧ Stops isIdentChar rest := by
  unfold keyword
  constructor
  · intro h
    split at h
    next tail htail =>
      split at h
      next => cases h
      next hend =>
        obtain rfl : tail = rest := congrArg Prod.snd (Option.some.inj h)
        exact ⟨isPrefixOf?_eq_some_iff.1 htail, fun c hc => by simp_all⟩
    next => cases h
  · rintro ⟨hcs, hrest⟩
    rw [isPrefixOf?_eq_some_iff.2 hcs]
    have hend : rest.head?.any isIdentChar = false := by
      cases rest with
      | nil => rfl
      | cons c rest => simpa using hrest
    simp [hend]

/-- A keyword is declined where another identifier stands, also one that begins with it. -/
theorem keyword_eq_none (hword : ∀ c ∈ word.toList, isIdentChar c)
    (hother : cs.takeWhile isIdentChar ≠ word.toList) : keyword word cs = none := by
  cases h : keyword word cs with
  | none => rfl
  | some result =>
    obtain ⟨hcs, hstops⟩ := keyword_eq_some_iff.1 h
    exact absurd (hcs ▸ takeWhile_append_of_stops hword hstops) hother

/-- A name of a variable is read up to its end. -/
theorem identifier_eq_some_iff {name : String} :
    identifier cs = some (name, rest) ↔
      (Piece.identifier name).Spans cs rest ∧ Stops isIdentChar rest := by
  constructor
  · intro h
    cases cs with
    | nil => cases h
    | cons c cs =>
      simp only [identifier] at h
      split at h
      next hc =>
        simp only [Option.some.injEq, Prod.mk.injEq] at h
        obtain ⟨rfl, rfl⟩ := h
        have hrun : ∀ d ∈ cs.takeWhile isIdentChar, isIdentChar d :=
          fun d hd => List.all_eq_true.1 List.all_takeWhile d hd
        have hname : isIdentifier (String.ofList (c :: cs.takeWhile isIdentChar)) :=
          isIdentifier_iff.2 ⟨c, _, String.toList_ofList, hc, hrun⟩
        refine ⟨⟨hname, ?_⟩, stops_dropWhile cs⟩
        simp [String.toList_ofList, List.takeWhile_append_dropWhile]
      next => cases h
  · rintro ⟨⟨hname, rfl⟩, hrest⟩
    obtain ⟨c, run, htext, hc, hrun⟩ := isIdentifier_iff.1 hname
    have : name = String.ofList (c :: run) := by rw [← htext, String.ofList_toList]
    rw [htext, List.cons_append, identifier, if_pos hc, takeWhile_append_of_stops hrun hrest,
      dropWhile_append_of_stops hrun hrest, this]

/-- So is a name of a function. -/
theorem bareFunctionName_eq_some_iff {name : String} :
    bareFunctionName cs = some (name, rest) ↔
      (Piece.functionName name).Spans cs rest ∧ Stops isFunctionNameChar rest := by
  simp only [bareFunctionName, Reader.bind_eq_some_iff, Reader.run1_eq_some_iff,
    Reader.pure_apply]
  constructor
  · rintro ⟨run, mid, ⟨hne, hrun, rfl, hmid⟩, ⟨⟩⟩
    exact ⟨⟨isFunctionName_iff.2 (by simpa using ⟨hne, hrun⟩), by simp⟩, hmid⟩
  · rintro ⟨⟨hname, rfl⟩, hrest⟩
    obtain ⟨hne, hrun⟩ := isFunctionName_iff.1 hname
    exact ⟨_, rest, ⟨hne, hrun, rfl, hrest⟩, by simp⟩

end Words

section Numerals

/-- A numeral is read up to its last digit, and for its value. -/
theorem numeral_eq_some_iff {n : Nat} :
    numeral cs = some (n, rest) ↔ (Piece.number n).Spans cs rest ∧ Stops Char.isDigit rest := by
  simp only [numeral, Reader.bind_eq_some_iff, Reader.run1_eq_some_iff, Reader.pure_apply]
  constructor
  · rintro ⟨digits, mid, ⟨hne, hdigits, rfl, hmid⟩, ⟨⟩⟩
    exact ⟨⟨digits, ⟨hne, hdigits, rfl⟩, rfl⟩, hmid⟩
  · rintro ⟨⟨digits, ⟨hne, hdigits, rfl⟩, rfl⟩, hrest⟩
    exact ⟨digits, rest, ⟨hne, hdigits, rfl, hrest⟩, rfl⟩

/-- An index is a numeral with a value below `2 ^ 32`. -/
theorem index_eq_some_iff {n : UInt32} :
    index cs = some (n, rest) ↔
      (Piece.number n.toNat).Spans cs rest ∧ Stops Char.isDigit rest := by
  simp only [index, Reader.mapAccepted_eq_some_iff, numeral_eq_some_iff]
  constructor
  · rintro ⟨m, hm, hn⟩
    split at hn
    next hlt =>
      obtain rfl := Option.some.inj hn
      rwa [UInt32.toNat_ofNat_of_lt' hlt]
    next => cases hn
  · intro h
    exact ⟨n.toNat, h, by simp [UInt32.toNat_lt_size]⟩

/-- The 64-bit integer of a value is the one that has the value. -/
theorem int64?_eq_some_iff {value : Int} {v : Int64} : int64? value = some v ↔ value = v.toInt := by
  unfold int64?
  constructor
  · intro h
    split at h
    next hrange => rw [← Option.some.inj h, Int64.toInt_ofIntLE]
    next => cases h
  · rintro rfl
    rw [dif_pos ⟨Int64.minValue_le_toInt v, Int64.toInt_le v⟩, Int64.ofIntLE_toInt]

/-- A digit is no minus sign. -/
theorem literal_minus_eq_none {n : Nat} {digits : List Char} (h : Digits n digits) :
    Reader.literal "-" (digits ++ rest) = none := by
  obtain ⟨c, run, rfl⟩ := List.exists_cons_of_ne_nil h.ne_nil
  have hc : c.isDigit := h.isDigit c List.mem_cons_self
  refine Option.eq_none_iff_forall_ne_some.2 fun result hresult => ?_
  obtain rfl : c = '-' := (List.cons.inj (Reader.literal_eq_some_iff.1 hresult)).1
  cases hc

/-- An integer is read for its value, if that fits into 64 bits. -/
theorem integer_eq_some_iff {v : Int64} :
    integer cs = some (v, rest) ↔
      (Piece.integer v.toInt).Spans cs rest ∧ Stops Char.isDigit rest := by
  simp only [integer, Reader.mapAccepted_eq_some_iff, Reader.bind_eq_some_iff, numeral_eq_some_iff,
    int64?_eq_some_iff, Reader.optional_eq_some_iff, Reader.literal_eq_some_iff,
    Reader.pure_apply]
  constructor
  · rintro ⟨value, ⟨minus, mid, hminus, n, mid', ⟨⟨digits, hdigits, rfl⟩, hrest⟩, ⟨⟩⟩, hv⟩
    refine ⟨⟨n, digits, hdigits, ?_⟩, hrest⟩
    rcases hminus with ⟨u, rfl, rfl⟩ | ⟨rfl, rfl, -⟩
    · exact .inr ⟨hv.symm, rfl⟩
    · exact .inl ⟨hv.symm, rfl⟩
  · rintro ⟨⟨n, digits, hdigits, hsign⟩, hrest⟩
    have hnumber : (Piece.number n).Spans (digits ++ rest) rest := ⟨digits, hdigits, rfl⟩
    rcases hsign with ⟨hv, rfl⟩ | ⟨hv, rfl⟩
    · have hnone : Reader.literal "-" (digits ++ rest) = none := literal_minus_eq_none hdigits
      refine ⟨n, ⟨none, digits ++ rest, .inr ⟨rfl, rfl, hnone⟩, ?_⟩, hv.symm⟩
      exact ⟨n, rest, ⟨hnumber, hrest⟩, rfl⟩
    · refine ⟨-n, ⟨some (), digits ++ rest, .inl ⟨(), rfl, rfl⟩, ?_⟩, hv.symm⟩
      exact ⟨n, rest, ⟨hnumber, hrest⟩, rfl⟩

end Numerals

section Starts

/-- Whether every spelling of a piece begins with something visible. -/
def Piece.isVisible : Piece → Bool
  | word text => text.toList.head?.any fun c => !isBlank c && c != ';'
  | identifier _ | functionName _ | number _ | integer _ => true
  | gap | space | blanks | lineEnd => false

/-- A numeral begins with a digit. -/
theorem Digits.start {n : Nat} {digits : List Char} (h : Digits n digits) :
    ∃ c run, digits = c :: run ∧ c.isDigit := by
  obtain ⟨c, run, rfl⟩ := List.exists_cons_of_ne_nil h.ne_nil
  exact ⟨c, run, rfl, h.isDigit c List.mem_cons_self⟩

/-- Digits may stand in a name. -/
theorem isIdentChar_of_isDigit {c : Char} (h : c.isDigit) : isIdentChar c := by
  simp [isIdentChar, Char.isAlphanum, h]

/-- But no name begins with a digit. -/
theorem isIdentStart_of_isDigit {c : Char} (h : c.isDigit) : isIdentStart c = false := by
  have hdigit := Text.toNat_of_isDigit h
  have halpha : c.isAlpha = false := by
    refine Bool.eq_false_iff.2 fun halpha => ?_
    have hletter := Text.toNat_of_isAlpha halpha
    omega
  have hne : c ≠ '_' := by
    rintro rfl
    cases h
  simp [isIdentStart, halpha, hne]

/-- A visible piece begins with a character that is neither a blank nor the sign of a comment. -/
theorem Piece.Spans.start {p : Piece} (h : p.Spans cs rest) (hp : p.isVisible) :
    ∃ c run, cs = c :: (run ++ rest) ∧ isBlank c = false ∧ c ≠ ';' := by
  cases p with
  | word text =>
    obtain rfl : cs = text.toList ++ rest := h
    cases htext : text.toList with
    | nil => simp [isVisible, htext] at hp
    | cons c run => exact ⟨c, run, rfl, by simpa [isVisible, htext] using hp⟩
  | identifier name =>
    obtain ⟨hname, rfl⟩ := h
    obtain ⟨c, run, htext, hc, -⟩ := isIdentifier_iff.1 hname
    exact ⟨c, run, by rw [htext]; rfl,
      isBlank_eq_false_of_isIdentChar (Text.isIdentChar_of_isIdentStart hc)⟩
  | functionName name =>
    obtain ⟨hname, rfl⟩ := h
    obtain ⟨hne, hrun⟩ := isFunctionName_iff.1 hname
    obtain ⟨c, run, htext⟩ := List.exists_cons_of_ne_nil hne
    exact ⟨c, run, by rw [htext]; rfl,
      isBlank_eq_false_of_isFunctionNameChar (hrun c (htext ▸ List.mem_cons_self))⟩
  | number n =>
    obtain ⟨digits, hdigits, rfl⟩ := h
    obtain ⟨c, run, rfl, hc⟩ := hdigits.start
    exact ⟨c, run, rfl, isBlank_eq_false_of_isIdentChar (isIdentChar_of_isDigit hc)⟩
  | integer value =>
    obtain ⟨n, digits, hdigits, ⟨-, rfl⟩ | ⟨-, rfl⟩⟩ := h
    · obtain ⟨c, run, rfl, hc⟩ := hdigits.start
      exact ⟨c, run, rfl, isBlank_eq_false_of_isIdentChar (isIdentChar_of_isDigit hc)⟩
    · exact ⟨'-', digits, rfl, rfl, by decide⟩
  | gap | space | blanks | lineEnd => cases hp

/-- So nothing is skipped in front of it. -/
theorem Piece.Spans.visible {p : Piece} (h : p.Spans cs rest) (hp : p.isVisible) : Visible cs := by
  obtain ⟨c, run, rfl, hc⟩ := h.start hp
  exact ⟨c, run ++ rest, rfl, hc⟩

/-- Every piece is written on a front part of the text. -/
theorem Piece.Spans.suffix {p : Piece} (h : p.Spans cs rest) : rest <:+ cs := by
  cases p with
  | word text => exact ⟨text.toList, h.symm⟩
  | identifier name | functionName name => exact ⟨name.toList, h.2.symm⟩
  | number n =>
    obtain ⟨digits, -, rfl⟩ := h
    exact List.suffix_append _ _
  | integer value =>
    obtain ⟨n, digits, -, ⟨-, rfl⟩ | ⟨-, rfl⟩⟩ := h
    · exact List.suffix_append _ _
    · exact (List.suffix_append _ _).trans (List.suffix_cons _ _)
  | gap =>
    obtain ⟨run, -, rfl⟩ := h
    exact List.suffix_append _ _
  | space =>
    obtain ⟨c, mid, -, rfl, run, -, rfl⟩ := h
    exact (List.suffix_append _ _).trans (List.suffix_cons _ _)
  | blanks => exact Blank.suffix h
  | lineEnd => exact h.2.suffix

/-- So is every row of pieces. -/
theorem Written.suffix {ps : List Piece} (h : Written ps cs rest) : rest <:+ cs :=
  Chained.suffix h fun _ _ _ _ => Piece.Spans.suffix

/-- What begins with a visible piece takes something off the text. -/
theorem Written.length_lt {p : Piece} {ps : List Piece} (h : Written (p :: ps) cs rest)
    (hp : p.isVisible) : rest.length < cs.length := by
  obtain ⟨mid, hspans, hps⟩ := h
  obtain ⟨c, run, rfl, -⟩ := hspans.start hp
  have := (Written.suffix hps).length_le
  simp only [List.length_cons, List.length_append]
  omega

/-- What begins with a visible piece is not skipped. -/
theorem Written.visible {p : Piece} {ps : List Piece} (h : Written (p :: ps) cs rest)
    (hp : p.isVisible) : Visible cs := by
  obtain ⟨mid, hspans, -⟩ := h
  exact hspans.visible hp

/-- The first character of an operand. -/
theorem operand_start {o : Operand} (h : o.piece.Spans cs rest) :
    ∃ c run, cs = c :: run ∧ (isIdentStart c ∨ c.isDigit ∨ c = '-') := by
  cases o with
  | var name =>
    obtain ⟨hname, rfl⟩ := h
    obtain ⟨c, run, htext, hc, -⟩ := isIdentifier_iff.1 hname
    exact ⟨c, run ++ rest, by rw [htext]; rfl, .inl hc⟩
  | imm value =>
    obtain ⟨n, digits, hdigits, ⟨-, rfl⟩ | ⟨-, rfl⟩⟩ := h
    · obtain ⟨c, run, rfl, hc⟩ := hdigits.start
      exact ⟨c, run ++ rest, rfl, .inr (.inl hc)⟩
    · exact ⟨'-', digits ++ rest, rfl, .inr (.inr rfl)⟩

/-- Operands are visible. -/
theorem operand_visible {o : Operand} (h : o.piece.Spans cs rest) : Visible cs := by
  cases o <;> exact h.visible rfl

end Starts

section Operands

/-- An operand is read up to its end. An integer is tried first, but no name begins like one. -/
theorem operand_eq_some_iff {o : Operand} :
    operand cs = some (o, rest) ↔ o.piece.Spans cs rest ∧ o.piece.EndsAt rest := by
  constructor
  · intro h
    rcases Reader.orElse_eq_some_iff.1 h with h | ⟨-, h⟩
    · obtain ⟨value, mid, hvalue, ⟨⟩⟩ := Reader.bind_eq_some_iff.1 h
      exact integer_eq_some_iff.1 hvalue
    · obtain ⟨name, mid, hname, ⟨⟩⟩ := Reader.bind_eq_some_iff.1 h
      exact identifier_eq_some_iff.1 hname
  · rintro ⟨h, hrest⟩
    cases o with
    | imm value =>
      exact Reader.orElse_of_eq_some (Reader.bind_of_eq_some (integer_eq_some_iff.2 ⟨h, hrest⟩))
    | var name =>
      -- A name does not begin as an integer does.
      have hnone : integer cs = none := by
        refine Option.eq_none_iff_forall_ne_some.2 fun result hresult => ?_
        obtain ⟨hname, rfl⟩ := h
        obtain ⟨c, run, htext, hc, -⟩ := isIdentifier_iff.1 hname
        obtain ⟨n, digits, hdigits, ⟨-, hcs⟩ | ⟨-, hcs⟩⟩ := (integer_eq_some_iff.1 hresult).1
        · obtain ⟨d, run', rfl, hd⟩ := hdigits.start
          rw [htext] at hcs
          obtain rfl := (List.cons.inj hcs).1
          exact absurd (isIdentStart_of_isDigit hd) (by simp [hc])
        · rw [htext] at hcs
          obtain rfl := (List.cons.inj hcs).1
          cases hc
      refine (Reader.orElse_of_eq_none (Reader.bind_of_eq_none hnone)).trans ?_
      exact Reader.bind_of_eq_some (identifier_eq_some_iff.2 ⟨h, hrest⟩)

/-- What is read as an operand is a spelling of it. -/
theorem operand_sound {o : Operand} (h : operand cs = some (o, rest)) : o.piece.Spans cs rest :=
  (operand_eq_some_iff.1 h).1

/-- A spelling of an operand is read where the operand ends. -/
theorem operand_complete {o : Operand} (h : o.piece.Spans cs rest) (hrest : o.piece.EndsAt rest) :
    operand cs = some (o, rest) :=
  operand_eq_some_iff.2 ⟨h, hrest⟩

/-- An operand behind spaces. -/
theorem spaced_operand_eq_some_iff {o : Operand} :
    (do spaces1; operand : Reader Operand) cs = some (o, rest) ↔
      Written [.space, o.piece] cs rest ∧ o.piece.EndsAt rest := by
  simp only [Reader.bind_eq_some_iff, spaces1_eq_some_iff, operand_eq_some_iff]
  constructor
  · rintro ⟨-, mid, ⟨hspace, -⟩, ho, hrest⟩
    exact ⟨⟨mid, hspace, rest, ho, rfl⟩, hrest⟩
  · rintro ⟨⟨mid, hspace, last, ho, rfl⟩, hrest⟩
    exact ⟨(), mid, ⟨hspace, (operand_visible ho).stops_space⟩, ho, hrest⟩

/-- What is read as a comma is a comma with gaps around it. -/
theorem comma_sound {u : Unit} (h : comma cs = some (u, rest)) :
    Written Inst.commaPieces cs rest := by
  simp only [comma, Reader.bind_eq_some_iff, spaces_eq_some_iff, Reader.literal_eq_some_iff] at h
  obtain ⟨-, mid, ⟨hgap, -⟩, -, mid', hmid, hgap', -⟩ := h
  exact ⟨mid, hgap, mid', hmid, rest, hgap', rfl⟩

/-- A comma is read with all of the gap behind it. -/
theorem comma_complete (h : Written Inst.commaPieces cs rest) (hrest : Visible rest) :
    comma cs = some ((), rest) := by
  obtain ⟨mid, hgap, mid', hmid, last, hgap', rfl⟩ := h
  simp only [comma, Reader.bind_eq_some_iff, spaces_eq_some_iff, Reader.literal_eq_some_iff]
  refine ⟨(), mid, ⟨hgap, ?_⟩, (), mid', hmid, hgap', hrest.stops_space⟩
  exact Visible.stops_space ⟨',', mid', hmid, rfl, by decide⟩

/-- A comma ends what stands in front of it. -/
theorem WordEnds.of_comma (h : Written Inst.commaPieces cs rest) : WordEnds cs := by
  obtain ⟨mid, hgap, mid', hmid, -⟩ := h
  exact .of_gap hgap (hmid ▸ stops_cons.2 rfl)

end Operands

end Grammar

end DefiniteAssignment
