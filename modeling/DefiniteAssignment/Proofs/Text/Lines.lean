import Mathlib.Data.List.Infix
import Mathlib.Data.List.TakeWhile
import DefiniteAssignment.Proofs.Grammar.Readers
/-!
# Lines joined and cut again

A text that is joined from lines is cut into these lines again:

> `lines_joinLines : lines (joinLines ls ++ ending) = ls`

Two things could be lost on the way. A carriage return at the end of a line would count to the end
of the line and not to the line, so there may be none (`IsLine`). And an empty line at the very end
is no line at all, so the last one may not be empty; for the same reason it makes no difference
whether the text ends in a line feed or not.

What is joined may also be longer texts. Each of them is then cut into its own lines, if it does not
end between two (`lines_joinLines_eq_flatMap`).

White space at the ends of a line is lost only where lines are trimmed. A line without any stays as
it is (`trim_of_isTrimmed`), and a text joined from such lines is normalized to itself
(`normalizedLines_joinLines`).
-/

namespace DefiniteAssignment.Text

open Grammar (Stops takeWhile_append_of_stops dropWhile_append_of_stops)

variable {line : List Char} {ls : List (List Char)}

section Lines

/-- A text that can be a line: there is no line feed in it, and no carriage return at its end. -/
structure IsLine (line : List Char) : Prop where
  notMem : '\n' ∉ line
  getLast?_ne : line.getLast? ≠ some '\r'

/-- A line does not end in a carriage return, so none is dropped. -/
theorem IsLine.dropReturn_eq (h : IsLine line) : dropReturn line = line :=
  if_neg h.getLast?_ne

@[simp]
theorem lines_nil : lines [] = [] := by
  unfold lines
  rfl

/-- The first line goes up to the first line feed, less a carriage return in front of it. -/
theorem lines_append (h : '\n' ∉ line) (rest : List Char) :
    lines (line ++ '\n' :: rest) = dropReturn line :: lines rest := by
  have hrun : ∀ c ∈ line, (c != '\n') = true := by
    intro c hc
    simpa using ne_of_mem_of_not_mem hc h
  have hstops : Stops (· != '\n') ('\n' :: rest) := by simp
  have hdrop := dropWhile_append_of_stops hrun hstops
  rw [lines]
  split
  next hnil => cases hdrop.symm.trans hnil
  next c cs hcons =>
    obtain ⟨rfl, rfl⟩ := List.cons.inj (hdrop.symm.trans hcons)
    rw [takeWhile_append_of_stops hrun hstops]

/-- A line and its line feed are the first line of a text. -/
theorem lines_append_lineFeed (h : IsLine line) (rest : List Char) :
    lines (line ++ '\n' :: rest) = line :: lines rest := by
  rw [lines_append h.notMem, h.dropReturn_eq]

/-- What stands behind the last line feed is a line unless it is empty. -/
theorem lines_of_notMem (h : '\n' ∉ line) (hne : line ≠ []) : lines line = [line] := by
  have hdrop : line.dropWhile (· != '\n') = [] := by
    rw [List.dropWhile_eq_nil_iff]
    intro c hc
    simpa using ne_of_mem_of_not_mem hc h
  rw [lines]
  split
  next => simp [hne]
  next hcons => cases hdrop.symm.trans hcons

/-- A text has no line feed, or its first line ends in one. -/
theorem notMem_or_exists_append (cs : List Char) :
    '\n' ∉ cs ∨ ∃ line rest, '\n' ∉ line ∧ cs = line ++ '\n' :: rest := by
  by_cases h : '\n' ∈ cs
  · obtain ⟨line, rest, hcs, hline⟩ := List.eq_append_cons_of_mem h
    exact .inr ⟨line, rest, hline, hcs⟩
  · exact .inl h

/-- A text that ends within a line: its last character does not belong to the end of one. -/
def EndsInLine (cs : List Char) : Prop :=
  ∃ c ∈ cs.getLast?, c ≠ '\n' ∧ c ≠ '\r'

theorem EndsInLine.ne_nil {cs : List Char} (h : EndsInLine cs) : cs ≠ [] := by
  rintro rfl
  obtain ⟨c, hc, -⟩ := h
  cases hc

/-- What stands behind the first line ends as the whole text does. -/
theorem EndsInLine.of_append {rest : List Char} (h : EndsInLine (line ++ '\n' :: rest)) :
    EndsInLine rest := by
  obtain ⟨c, hc, hfeed, hreturn⟩ := h
  cases rest with
  | nil =>
    rw [List.getLast?_concat] at hc
    exact absurd (Option.some.inj hc).symm hfeed
  | cons d rest => exact ⟨c, by simpa [List.getLast?_append] using hc, hfeed, hreturn⟩

/-- Where one text ends within a line and another begins on the next, the lines of both are the
lines of each. -/
theorem lines_append_lines {cs : List Char} (h : EndsInLine cs) (rest : List Char) :
    lines (cs ++ '\n' :: rest) = lines cs ++ lines rest := by
  rcases notMem_or_exists_append cs with hcs | ⟨line, later, hline, rfl⟩
  · have hlast : cs.getLast? ≠ some '\r' := by
      obtain ⟨c, hc, -, hreturn⟩ := h
      rw [Option.mem_def.1 hc]
      exact fun heq => hreturn (Option.some.inj heq)
    rw [lines_append_lineFeed ⟨hcs, hlast⟩, lines_of_notMem hcs h.ne_nil, List.singleton_append]
  · rw [List.append_assoc, List.cons_append, lines_append hline, lines_append hline,
      lines_append_lines h.of_append rest, List.cons_append]
termination_by cs.length

/-- No line has a line feed in it. -/
theorem notMem_of_mem_lines {cs : List Char} : ∀ line ∈ lines cs, '\n' ∉ line := by
  rcases notMem_or_exists_append cs with hcs | ⟨line, later, hline, rfl⟩
  · by_cases hne : cs = []
    · simp [hne]
    · rwa [lines_of_notMem hcs hne, List.forall_mem_singleton]
  · have hfirst : '\n' ∉ dropReturn line := by
      unfold dropReturn
      split
      · exact fun hmem => hline (List.mem_of_mem_dropLast hmem)
      · exact hline
    rw [lines_append hline]
    exact List.forall_mem_cons.2 ⟨hfirst, notMem_of_mem_lines⟩
termination_by cs.length

@[simp]
theorem joinLines_singleton (line : List Char) : joinLines [line] = line :=
  List.intercalate_singleton

theorem joinLines_cons (line : List Char) (hne : ls ≠ []) :
    joinLines (line :: ls) = line ++ '\n' :: joinLines ls := by
  rw [joinLines, List.intercalate_cons_of_ne_nil hne, List.append_assoc]
  rfl

/-- The text of lines each of which is followed by a line feed. -/
theorem joinLines_append_singleton (ls : List (List Char)) (last : List Char) :
    joinLines (ls ++ [last]) = ls.flatMap (· ++ ['\n']) ++ last := by
  induction ls with
  | nil => simp
  | cons line ls ih =>
    rw [List.cons_append, joinLines_cons line (by simp), ih]
    simp

/-- Lines each of which is followed by a line feed are cut behind each of these. -/
theorem lines_flatMap (hls : ∀ line ∈ ls, IsLine line) : lines (ls.flatMap (· ++ ['\n'])) = ls := by
  induction ls with
  | nil => exact lines_nil
  | cons line ls ih =>
    obtain ⟨hline, hls⟩ := List.forall_mem_cons.1 hls
    rw [List.flatMap_cons, List.append_assoc, List.singleton_append, lines_append_lineFeed hline,
      ih hls]

/-- Lines that are joined and cut are the same lines. -/
theorem lines_joinLines {ending : List Char} (hls : ∀ line ∈ ls, IsLine line) (hne : ls ≠ [])
    (hlast : ls.getLast hne ≠ []) (hending : ending = [] ∨ ending = ['\n']) :
    lines (joinLines ls ++ ending) = ls := by
  induction ls with
  | nil => exact absurd rfl hne
  | cons line ls ih =>
    obtain ⟨hline, hls⟩ := List.forall_mem_cons.1 hls
    by_cases hnil : ls = []
    · subst hnil
      rw [joinLines_singleton]
      rcases hending with rfl | rfl
      · rw [List.append_nil]
        exact lines_of_notMem hline.notMem hlast
      · rw [lines_append_lineFeed hline, lines_nil]
    · rw [List.getLast_cons hnil] at hlast
      rw [joinLines_cons line hnil, List.append_assoc, List.cons_append,
        lines_append_lineFeed hline, ih hls hnil hlast]

/-- Texts that end within a line are cut into their own lines. -/
theorem lines_joinLines_eq_flatMap {texts : List (List Char)} {ending : List Char}
    (h : ∀ cs ∈ texts, EndsInLine cs) (hne : texts ≠ []) (hending : ending = [] ∨ ending = ['\n']) :
    lines (joinLines texts ++ ending) = texts.flatMap lines := by
  induction texts with
  | nil => exact absurd rfl hne
  | cons cs texts ih =>
    obtain ⟨hcs, htexts⟩ := List.forall_mem_cons.1 h
    rw [List.flatMap_cons]
    by_cases hnil : texts = []
    · subst hnil
      rw [joinLines_singleton, List.flatMap_nil]
      rcases hending with rfl | rfl
      · rw [List.append_nil, List.append_nil]
      · rw [lines_append_lines hcs, lines_nil]
    · rw [joinLines_cons cs hnil, List.append_assoc, List.cons_append, lines_append_lines hcs,
        ih htexts hnil]

/-- A text that is not empty has a line. -/
theorem lines_ne_nil {cs : List Char} (hne : cs ≠ []) : lines cs ≠ [] := by
  rcases notMem_or_exists_append cs with hcs | ⟨line, later, hline, rfl⟩
  · simp [lines_of_notMem hcs hne]
  · simp [lines_append hline]

/-- Nothing is lost of a text without carriage returns that ends within a line. -/
theorem joinLines_lines {cs : List Char} (hreturn : '\r' ∉ cs) (h : EndsInLine cs) :
    joinLines (lines cs) = cs := by
  rcases notMem_or_exists_append cs with hcs | ⟨line, later, hline, rfl⟩
  · rw [lines_of_notMem hcs h.ne_nil, joinLines_singleton]
  · obtain ⟨hfirst, hlater⟩ : '\r' ∉ line ∧ '\r' ∉ later := by simpa using hreturn
    have hlast : line.getLast? ≠ some '\r' := fun heq => hfirst (List.mem_of_getLast? heq)
    rw [lines_append_lineFeed ⟨hline, hlast⟩, joinLines_cons _ (lines_ne_nil h.of_append.ne_nil),
      joinLines_lines hlater h.of_append]
termination_by cs.length

end Lines

section Trimmed

/-- Whether there is no white space at either end of a text. -/
def isTrimmed (cs : List Char) : Bool :=
  cs.head?.all (! isWhiteSpace ·) && cs.getLast?.all (! isWhiteSpace ·)

/-- A text is trimmed if it neither begins nor ends with white space. -/
theorem isTrimmed_iff {cs : List Char} :
    isTrimmed cs ↔ Stops isWhiteSpace cs ∧ Stops isWhiteSpace cs.reverse := by
  simp [isTrimmed, Stops, Option.all_eq_true]

/-- The characters of names are not white space. -/
theorem isWhiteSpace_eq_false_of_isIdentChar {c : Char} (h : isIdentChar c) :
    isWhiteSpace c = false := by
  have hrange : 36 ≤ c.toNat ∧ c.toNat ≤ 122 := by
    simp only [isIdentChar, Char.isAlphanum, Bool.or_eq_true, beq_iff_eq] at h
    rcases h with ((halpha | hdigit) | rfl) | rfl
    · have hletter := toNat_of_isAlpha halpha
      omega
    · have hnumeral := toNat_of_isDigit hdigit
      omega
    · decide
    · decide
  simp only [isWhiteSpace, Bool.or_eq_false_iff, Bool.and_eq_false_iff, decide_eq_false_iff_not,
    beq_eq_false_iff_ne]
  omega

/-- A text without white space is one without white space at its ends. -/
theorem isTrimmed_of_forall {cs : List Char} (h : ∀ c ∈ cs, isWhiteSpace c = false) :
    isTrimmed cs :=
  isTrimmed_iff.2 ⟨fun c hc => h c (List.mem_of_mem_head? hc),
    fun c hc => h c (List.mem_reverse.1 (List.mem_of_mem_head? hc))⟩

/-- Only the front of the first part of a text and the back of its last part matter. -/
theorem isTrimmed_append {cs ds : List Char} (hcs : cs ≠ []) (hds : ds ≠ []) :
    isTrimmed (cs ++ ds) ↔ Stops isWhiteSpace cs ∧ Stops isWhiteSpace ds.reverse := by
  obtain ⟨c, cs, rfl⟩ := List.exists_cons_of_ne_nil hcs
  obtain ⟨d, ds, hd⟩ := List.exists_cons_of_ne_nil (mt List.reverse_eq_nil_iff.1 hds)
  rw [isTrimmed_iff, List.reverse_append, hd]
  simp

theorem trimStart_of_stops {cs : List Char} (h : Stops isWhiteSpace cs) : trimStart cs = cs :=
  dropWhile_append_of_stops (by simp : ∀ c ∈ [], isWhiteSpace c) h

/-- A trimmed text stays as it is. -/
theorem trim_of_isTrimmed {cs : List Char} (h : isTrimmed cs) : trim cs = cs := by
  obtain ⟨hfront, hback⟩ := isTrimmed_iff.1 h
  have hend : cs.reverse.dropWhile isWhiteSpace = cs.reverse := trimStart_of_stops hback
  rw [trim, trimStart_of_stops hfront, trimEnd, hend, List.reverse_reverse]

/-- White space at the front is trimmed away. -/
theorem trim_cons {c : Char} (h : isWhiteSpace c) (cs : List Char) : trim (c :: cs) = trim cs := by
  rw [trim, trim, trimStart, trimStart, List.dropWhile_cons_of_pos h]

/-- White space at the end is trimmed away. -/
theorem trimEnd_append_singleton {c : Char} (h : isWhiteSpace c) (cs : List Char) :
    trimEnd (cs ++ [c]) = trimEnd cs := by
  rw [trimEnd, trimEnd, List.reverse_append, List.reverse_singleton, List.singleton_append,
    List.dropWhile_cons_of_pos h]

/-- Something visible keeps what stands in front of it. -/
theorem trimEnd_cons {cs : List Char} (h : ∃ c ∈ cs, isWhiteSpace c = false) (c : Char) :
    trimEnd (c :: cs) = c :: trimEnd cs := by
  have hne : cs.reverse.dropWhile isWhiteSpace ≠ [] := by
    obtain ⟨d, hd, hvisible⟩ := h
    intro hnil
    simpa [hvisible] using List.dropWhile_eq_nil_iff.1 hnil d (List.mem_reverse.2 hd)
  rw [trimEnd, trimEnd, List.reverse_cons, List.dropWhile_append, if_neg (by simpa using hne)]
  simp

/-- White space at the end is trimmed away, whatever happens at the front. -/
theorem trim_append_singleton {c : Char} (h : isWhiteSpace c) (cs : List Char) :
    trim (cs ++ [c]) = trim cs := by
  rw [trim, trim, trimStart, trimStart, List.dropWhile_append]
  split
  next hnil =>
    rw [List.isEmpty_iff.1 hnil, List.dropWhile_cons_of_pos h, List.dropWhile_nil]
  next => exact trimEnd_append_singleton h _

/-- The carriage return in front of a line feed is white space at the end of a line. -/
theorem trim_dropReturn (line : List Char) : trim (dropReturn line) = trim line := by
  unfold dropReturn
  split
  next hlast =>
    obtain ⟨front, rfl⟩ := List.getLast?_eq_some_iff.1 hlast
    rw [List.dropLast_concat, trim_append_singleton rfl]
  next => rfl

/-- What stands in front is kept if there is no white space at its ends. -/
theorem trim_append {word : List Char} (h : isTrimmed word) (hne : word ≠ []) (cs : List Char) :
    trim (word ++ cs) = word ++ trimEnd cs := by
  obtain ⟨hfront, hback⟩ := isTrimmed_iff.1 h
  have hstart : Stops isWhiteSpace (word ++ cs) := by
    obtain ⟨c, word, rfl⟩ := List.exists_cons_of_ne_nil hne
    simpa using hfront
  have hend : word.reverse.dropWhile isWhiteSpace = word.reverse := trimStart_of_stops hback
  rw [trim, trimStart_of_stops hstart, trimEnd, trimEnd, List.reverse_append, List.dropWhile_append]
  split
  next hnil => rw [List.isEmpty_iff.1 hnil, hend]; simp
  next => simp

/-- A line without white space at its ends has no carriage return there either. -/
theorem isLine_of_isTrimmed (h : isTrimmed line) (hnotMem : '\n' ∉ line) : IsLine line := by
  refine ⟨hnotMem, fun hlast => ?_⟩
  have hstops := (isTrimmed_iff.1 h).2 '\r' (List.head?_reverse ▸ hlast)
  cases hstops

/-- A line that normalizing leaves as it is. -/
structure IsNormal (line : List Char) : Prop where
  ne_nil : line ≠ []
  trimmed : isTrimmed line
  notMem : '\n' ∉ line

theorem IsNormal.isLine (h : IsNormal line) : IsLine line :=
  isLine_of_isTrimmed h.trimmed h.notMem

theorem IsNormal.stops (h : IsNormal line) : Stops isWhiteSpace line.reverse :=
  (isTrimmed_iff.1 h.trimmed).2

/-- Normal lines are found again when they are joined and cut. -/
theorem lines_joinLines_of_isNormal (h : ∀ line ∈ ls, IsNormal line) (hne : ls ≠ []) :
    lines (joinLines ls) = ls := by
  have hlines : lines (joinLines ls ++ []) = ls :=
    lines_joinLines (fun line hline => (h line hline).isLine) hne
      (h _ (List.getLast_mem hne)).ne_nil (.inl rfl)
  rwa [List.append_nil] at hlines

/-- Normalizing changes nothing about lines that are normal already. -/
theorem normalizedLines_joinLines (h : ∀ line ∈ ls, IsNormal line) (hne : ls ≠ []) :
    normalizedLines (joinLines ls) = ls := by
  have htrim : ls.map trim = ls :=
    (List.map_congr_left fun line hline => trim_of_isTrimmed (h line hline).trimmed).trans
      (List.map_id ls)
  rw [normalizedLines, lines_joinLines_of_isNormal h hne, htrim, List.filter_eq_self]
  intro line hline
  simpa using (h line hline).ne_nil

end Trimmed

section Words

@[simp]
theorem words_nil : words [] = [] := by
  rw [words]
  rfl

/-- A text without white space is one word. -/
theorem words_of_forall {word : List Char} (hne : word ≠ [])
    (h : ∀ c ∈ word, isWhiteSpace c = false) : words word = [word] := by
  have hstart : trimStart word = word :=
    trimStart_of_stops fun c hc => h c (List.mem_of_mem_head? hc)
  have htake : word.takeWhile (! isWhiteSpace ·) = word :=
    List.takeWhile_eq_self_iff.2 fun c hc => by simp [h c hc]
  rw [words]
  split
  next hnil => exact absurd (hstart.symm.trans hnil) hne
  next c cs hcons =>
    obtain rfl : word = c :: cs := hstart.symm.trans hcons
    have hdrop : cs.dropWhile (! isWhiteSpace ·) = [] :=
      List.dropWhile_eq_nil_iff.2 fun d hd => by simp [h d (List.mem_cons_of_mem c hd)]
    rw [htake, hdrop, words_nil]

end Words

end DefiniteAssignment.Text
