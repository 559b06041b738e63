import DefiniteAssignment.Proofs.TestFile.Braces
/-!
# Test files taken apart as they were written

A test file is a command, and behind it functions with the lines that are expected of each. Taking
it apart gives back what it was written from:

> `parse_written : … → parse (written command cases) = cases.map …`

The functions may look as they like: what is asked is that each text is read as a function and ends
in the brace that closes it, since the end of a function is looked for by counting braces and not by
reading (`Function.afterClosing_of_spelledToBrace`). Its beginning is looked for by lines. The line
that begins with `function` and a space is trimmed before it is looked at, so the space is only
there if something visible comes behind it on the same line (`HasHead`). A function that goes on on
the next line is read like any other, but in a test file it is not found
(`parse_written_needs_head`).
-/

namespace DefiniteAssignment.TestFile

open Grammar (Stops stops_cons)
open Text (joinLines lines lines_joinLines_eq_flatMap lines_append lines_of_notMem lines_ne_nil
  joinLines_lines notMem_of_mem_lines notMem_or_exists_append EndsInLine isWhiteSpace trim
  trim_append trimEnd_cons trim_dropReturn isTrimmed_append trim_of_isTrimmed)

/-- A test file: the command, and the text of each function with the lines that are expected of it,
which are marked. -/
def written (command : String) (cases : List (String × List String)) : String :=
  "\n".intercalate
    (command :: cases.flatMap fun (text, expected) => text :: expected.map ("; " ++ ·))

/-- A line that says `test`, and behind it something without white space at the end. -/
def IsCommand (command : String) : Prop :=
  ∃ rest : String, command = "test " ++ rest ∧ rest ≠ "" ∧ '\n' ∉ rest.toList ∧
    Stops isWhiteSpace rest.toList.reverse

/-- A text without carriage returns that is read as a function, begins with `function` and a space,
and ends in the brace that closes the function. -/
structure IsFunctionText (text : String) : Prop where
  read : ∃ f, Function.parse text = .ok f ∧ f.SpelledToBrace text
  noReturn : '\r' ∉ text.toList
  front : "function ".toList <+: text.toList

/-- Behind `function` and a space something visible stands on the same line. -/
def HasHead (text : String) : Prop :=
  ∃ later, text.toList = "function ".toList ++ later ∧
    ∃ c ∈ later.takeWhile (· != '\n'), isWhiteSpace c = false

/-- A line without white space at its end. -/
structure IsExpectation (line : String) : Prop where
  notMem : '\n' ∉ line.toList
  stops : Stops isWhiteSpace line.toList.reverse

variable {command text : String} {line : List Char}

section Front

theorem begins_of_isPrefix {word : String} (h : word.toList <+: trim line) : begins word line := by
  rw [begins, List.isPrefixOf_iff_prefix]
  exact h

/-- A line with the keyword and something behind it begins a function, also when it is trimmed. -/
theorem begins_function {later : List Char} (h : ∃ c ∈ later, isWhiteSpace c = false) :
    begins "function " ("function ".toList ++ later) := by
  have htrim : trim ("function".toList ++ (' ' :: later)) =
      "function".toList ++ Text.trimEnd (' ' :: later) :=
    trim_append rfl (by decide) _
  rw [trimEnd_cons h] at htrim
  exact begins_of_isPrefix ⟨_, htrim.symm⟩

/-- A function is found at the first of its lines. -/
theorem HasHead.exists_lines (h : HasHead text) :
    ∃ first later, lines text.toList = first :: later ∧ begins "function " first := by
  obtain ⟨later, htext, hvisible⟩ := h
  have hword : '\n' ∉ "function ".toList := by decide
  have hrun {line : List Char} (hline : '\n' ∉ line) : ∀ c ∈ line, (c != '\n') = true :=
    fun c hc => by simpa using ne_of_mem_of_not_mem hc hline
  rw [htext]
  rcases notMem_or_exists_append later with hlater | ⟨line, rest, hline, rfl⟩
  · rw [List.takeWhile_eq_self_iff.2 (hrun hlater)] at hvisible
    exact ⟨_, [], lines_of_notMem (by simpa using hlater) (by simp), begins_function hvisible⟩
  · rw [List.takeWhile_append_of_pos (hrun hline), List.takeWhile_cons_of_neg (by simp),
      List.append_nil] at hvisible
    rw [← List.append_assoc]
    refine ⟨_, _, lines_append (by simpa using hline) rest, ?_⟩
    rw [begins, trim_dropReturn]
    exact begins_function hvisible

end Front

section Items

/-- A text that does not end in white space ends within a line. -/
theorem endsInLine_of_stops (hne : line ≠ []) (h : Stops isWhiteSpace line.reverse) :
    EndsInLine line := by
  have hlast : line.getLast hne ∈ line.getLast? := List.getLast?_eq_some_getLast hne
  have hvisible := h (line.getLast hne) (by rwa [List.head?_reverse])
  refine ⟨_, hlast, fun hfeed => ?_, fun hreturn => ?_⟩
  · rw [hfeed] at hvisible
    cases hvisible
  · rw [hreturn] at hvisible
    cases hvisible

/-- A line with the mark of a comment in front of it ends within a line. -/
theorem endsInLine_mark (h : Stops isWhiteSpace line.reverse) : EndsInLine (mark line) := by
  by_cases hnil : line = []
  · exact ⟨' ', by simp [mark, hnil], by decide, by decide⟩
  · obtain ⟨c, hc, hends⟩ := endsInLine_of_stops hnil h
    refine ⟨c, ?_, hends⟩
    rw [mark, List.getLast?_cons_cons, List.getLast?_cons_of_ne_nil hnil]
    exact hc

/-- A command neither begins nor ends with white space. -/
theorem IsCommand.isTrimmed (h : IsCommand command) : Text.isTrimmed command.toList := by
  obtain ⟨rest, rfl, hne, -, hstops⟩ := h
  rw [String.toList_append, isTrimmed_append (by decide) (by simpa using hne)]
  exact ⟨stops_cons.2 rfl, hstops⟩

/-- A command stands on one line. -/
theorem IsCommand.notMem (h : IsCommand command) : '\n' ∉ command.toList := by
  obtain ⟨rest, rfl, -, hnotMem, -⟩ := h
  simpa using hnotMem

/-- The command is found at once. -/
theorem IsCommand.begins (h : IsCommand command) : begins "test " command.toList := by
  refine begins_of_isPrefix ?_
  rw [trim_of_isTrimmed h.isTrimmed]
  obtain ⟨rest, rfl, -⟩ := h
  exact ⟨rest.toList, (String.toList_append).symm⟩

theorem IsCommand.ne_nil (h : IsCommand command) : command.toList ≠ [] := by
  obtain ⟨rest, rfl, -⟩ := h
  simp

/-- A command is a line of its own. -/
theorem IsCommand.lines_eq (h : IsCommand command) : lines command.toList = [command.toList] :=
  lines_of_notMem h.notMem h.ne_nil

/-- A command ends within its line. -/
theorem IsCommand.endsInLine (h : IsCommand command) : EndsInLine command.toList :=
  endsInLine_of_stops h.ne_nil (Text.isTrimmed_iff.1 h.isTrimmed).2

/-- The text of a function ends with the brace that closes it. -/
theorem IsFunctionText.afterClosing_eq (h : IsFunctionText text) :
    afterClosing false 0 text.toList = some [] := by
  obtain ⟨f, -, hspelled⟩ := h.read
  exact Function.afterClosing_of_spelledToBrace hspelled

/-- The text of a function ends within a line, since it ends with a brace. -/
theorem IsFunctionText.endsInLine (h : IsFunctionText text) : EndsInLine text.toList := by
  obtain ⟨f, -, hspelled⟩ := h.read
  obtain ⟨front, hfront⟩ := hspelled.suffix
  exact ⟨'\x7d', by simp [← hfront], by decide, by decide⟩

end Items

section Cases

variable {cases : List (String × List String)}

/-- The lines behind a command. -/
def caseLines (cases : List (String × List String)) : List (List Char) :=
  cases.flatMap fun (text, expected) =>
    lines text.toList ++ (expected.map String.toList).map mark

/-- The lines of a case are those of its function and its marked expectations. -/
theorem caseLines_cons (text : String) (expected : List String)
    (cases : List (String × List String)) :
    caseLines ((text, expected) :: cases) =
      lines text.toList ++ ((expected.map String.toList).map mark ++ caseLines cases) := by
  rw [caseLines, List.flatMap_cons, List.append_assoc]
  rfl

/-- An expectation takes one line when it is marked. -/
theorem lines_mark {line : String} (h : IsExpectation line) :
    lines (mark line.toList) = [mark line.toList] :=
  lines_of_notMem (by simpa [mark] using h.notMem) (List.cons_ne_nil _ _)

/-- Marked expectations take one line each. -/
theorem flatMap_lines_marks {expected : List String} (h : ∀ line ∈ expected, IsExpectation line) :
    ((expected.map String.toList).map mark).flatMap lines =
      (expected.map String.toList).map mark := by
  induction expected with
  | nil => rfl
  | cons line expected ih =>
    obtain ⟨hline, hexpected⟩ := List.forall_mem_cons.1 h
    simp only [List.map_cons, List.flatMap_cons, lines_mark hline, ih hexpected,
      List.singleton_append]

/-- The line feeds between the pieces of a test file, and those within, cut it into its lines. -/
theorem lines_written (hcommand : IsCommand command)
    (htexts : ∀ pair ∈ cases, IsFunctionText pair.1)
    (hexpected : ∀ pair ∈ cases, ∀ line ∈ pair.2, IsExpectation line) {ending : String}
    (hending : ending = "" ∨ ending = "\n") :
    lines (written command cases ++ ending).toList = command.toList :: caseLines cases := by
  have hitems : (command :: cases.flatMap fun (text, expected) =>
      text :: expected.map ("; " ++ ·)).map String.toList =
      command.toList :: cases.flatMap fun (text, expected) =>
        text.toList :: (expected.map String.toList).map mark := by
    simp [List.map_flatMap, mark, Function.comp_def]
  have hends : ∀ cs ∈ command.toList :: cases.flatMap fun (text, expected) =>
      text.toList :: (expected.map String.toList).map mark, EndsInLine cs := by
    refine List.forall_mem_cons.2 ⟨hcommand.endsInLine, fun cs hcs => ?_⟩
    obtain ⟨pair, hpair, hcs⟩ := List.mem_flatMap.1 hcs
    rcases List.mem_cons.1 hcs with rfl | hcs
    · exact (htexts pair hpair).endsInLine
    · obtain ⟨_, hmem, rfl⟩ := List.mem_map.1 hcs
      obtain ⟨line, hline, rfl⟩ := List.mem_map.1 hmem
      exact endsInLine_mark (hexpected pair hpair line hline).stops
  have hending' : ending.toList = [] ∨ ending.toList = ['\n'] := by
    rcases hending with rfl | rfl <;> simp
  rw [String.toList_append, written, String.toList_intercalate, hitems]
  refine (lines_joinLines_eq_flatMap hends (List.cons_ne_nil _ _) hending').trans ?_
  rw [List.flatMap_cons, hcommand.lines_eq, List.singleton_append, List.flatMap_assoc, caseLines]
  congr 1
  refine List.flatMap_congr fun pair hpair => ?_
  rw [List.flatMap_cons, flatMap_lines_marks (hexpected pair hpair)]

/-- What comes behind a case begins with a line that is neither blank nor a comment. -/
theorem isBlankLine_head?_caseLines
    (htexts : ∀ pair ∈ cases, IsFunctionText pair.1 ∧ HasHead pair.1) :
    ∀ line ∈ (caseLines cases).head?, isBlankLine line = false ∧ begins ";" line = false := by
  cases cases with
  | nil => simp [caseLines]
  | cons pair cases =>
    obtain ⟨first, later, hlines, hbegins⟩ := (List.forall_mem_cons.1 htexts).1.2.exists_lines
    simp only [caseLines, List.flatMap_cons, hlines, List.cons_append, List.head?_cons,
      Option.mem_some_iff, forall_eq']
    exact isBlankLine_eq_false_of_begins hbegins

/-- Behind a command each function is one case. -/
theorem cases_caseLines (htexts : ∀ pair ∈ cases, IsFunctionText pair.1 ∧ HasHead pair.1)
    (hexpected : ∀ pair ∈ cases, ∀ line ∈ pair.2, IsExpectation line) (command : String) :
    TestFile.cases command (caseLines cases) =
      cases.map fun (text, expected) => ⟨text, "\n".intercalate expected, command⟩ := by
  induction cases with
  | nil =>
    rw [caseLines, List.flatMap_nil, TestFile.cases]
    rfl
  | cons pair cases ih =>
    obtain ⟨text, expected⟩ := pair
    obtain ⟨⟨htext, hhead⟩, htexts⟩ := List.forall_mem_cons.1 htexts
    obtain ⟨hmarks, hexpected⟩ := List.forall_mem_cons.1 hexpected
    obtain ⟨first, later, hlines, hbegins⟩ : ∃ first later,
        lines text.toList = first :: later ∧ begins "function " first := hhead.exists_lines
    have hjoin : joinLines (first :: later) = text.toList := by
      rw [← hlines, joinLines_lines htext.noReturn htext.endsInLine]
    have hclose : afterClosing false 0 (joinLines (first :: later)) = some [] :=
      hjoin ▸ htext.afterClosing_eq
    have htake := takeFunction_append (List.cons_ne_nil first later)
      (hlines ▸ notMem_of_mem_lines) hclose
      ((expected.map String.toList).map mark ++ caseLines cases)
    have hcases := cases_function command hbegins htake
      (List.forall_mem_map.2 fun line hline => (hmarks line hline).stops)
      (isBlankLine_head?_caseLines htexts)
    have hjoined : String.ofList (joinLines (expected.map String.toList)) =
        "\n".intercalate expected := by
      rw [← String.ofList_toList (s := "\n".intercalate expected), String.toList_intercalate]
      rfl
    rw [hjoin, String.ofList_toList, hjoined, ih htexts hexpected] at hcases
    rw [caseLines_cons, hlines, hcases, List.map_cons]

/-- A line feed at the end of the file makes no difference. -/
theorem parse_written_append (hcommand : IsCommand command)
    (htexts : ∀ pair ∈ cases, IsFunctionText pair.1 ∧ HasHead pair.1)
    (hexpected : ∀ pair ∈ cases, ∀ line ∈ pair.2, IsExpectation line) {ending : String}
    (hending : ending = "" ∨ ending = "\n") :
    parse (written command cases ++ ending) =
      cases.map fun (text, expected) => ⟨text, "\n".intercalate expected, command⟩ := by
  have hlines := lines_written hcommand (fun pair hpair => (htexts pair hpair).1) hexpected hending
  rw [parse, hlines, List.dropWhile_cons_of_neg (by simp [hcommand.begins])]
  simp only [trim_of_isTrimmed hcommand.isTrimmed, String.ofList_toList]
  exact cases_caseLines htexts hexpected command

end Cases

/-- A test file is taken apart into what it was written from. -/
theorem parse_written (hcommand : IsCommand command) {cases : List (String × List String)}
    (htexts : ∀ pair ∈ cases, IsFunctionText pair.1 ∧ HasHead pair.1)
    (hexpected : ∀ pair ∈ cases, ∀ line ∈ pair.2, IsExpectation line) :
    parse (written command cases) =
      cases.map fun (text, expected) => ⟨text, "\n".intercalate expected, command⟩ := by
  rw [← parse_written_append hcommand htexts hexpected (.inl rfl), String.append_empty]

/-- A function with braces in its comments. -/
def bracedText : String :=
  "function %f ; \x7d\n\x7b ; one \x7b\nblock0: ; \x7d \x7d; \x7b\n    nop ;\x7d\n\x7d"

/-- A function on one line. -/
def shortText : String :=
  "function %g\x7bblock0:return\x7d"

theorem parse_written_samples :
    IsCommand "test print-cfg all" ∧ (IsFunctionText bracedText ∧ HasHead bracedText) ∧
      (IsFunctionText shortText ∧ HasHead shortText) ∧
      IsExpectation " check: \x7b" ∧ IsExpectation "" ∧
      parse (written "test print-cfg all"
        [(shortText, []), (bracedText, [" check: \x7b", ""]), (shortText, [])]) =
        [⟨shortText, "", "test print-cfg all"⟩,
          ⟨bracedText, " check: \x7b\n", "test print-cfg all"⟩,
          ⟨shortText, "", "test print-cfg all"⟩] := by
  have hcommand : IsCommand "test print-cfg all" :=
    ⟨"print-cfg all", by decide, by decide, by decide, by simp [Text.isWhiteSpace]⟩
  have hbraced : IsFunctionText bracedText ∧ HasHead bracedText := by
    have hread : Function.parse bracedText = .ok ⟨"f", [[.nop]]⟩ := by decide +kernel
    exact ⟨⟨⟨_, hread, Function.spelledToBrace_of_parse hread (by decide +kernel)⟩,
      by decide, ⟨_, rfl⟩⟩, _, rfl, '%', by decide, by decide⟩
  have hshort : IsFunctionText shortText ∧ HasHead shortText := by
    have hread : Function.parse shortText = .ok ⟨"g", [[.ret none]]⟩ := by decide +kernel
    exact ⟨⟨⟨_, hread, Function.spelledToBrace_of_parse hread (by decide +kernel)⟩,
      by decide, ⟨_, rfl⟩⟩, _, rfl, '%', by decide, by decide⟩
  have hcheck : IsExpectation " check: \x7b" := ⟨by decide, by simp [Text.isWhiteSpace]⟩
  have hempty : IsExpectation "" := ⟨by decide, by simp⟩
  refine ⟨hcommand, hbraced, hshort, hcheck, hempty, ?_⟩
  exact parse_written hcommand (by simp [hbraced, hshort]) (by simp [hcheck, hempty])

/-- A function that goes on on the line behind its first word. -/
def splitHeadText : String :=
  "function \n%f \x7b\nblock0:\n    nop\n\x7d"

theorem parse_written_needs_head :
    IsCommand "test print-cfg" ∧ IsFunctionText splitHeadText ∧
      parse (written "test print-cfg" [(splitHeadText, [])]) ≠
        [⟨splitHeadText, "", "test print-cfg"⟩] := by
  have hread : Function.parse splitHeadText = .ok ⟨"f", [[.nop]]⟩ := by decide +kernel
  refine ⟨⟨"print-cfg", by decide, by decide, by decide, by simp [Text.isWhiteSpace]⟩,
    ⟨⟨_, hread, Function.spelledToBrace_of_parse hread (by decide +kernel)⟩, by decide, ⟨_, rfl⟩⟩,
    ?_⟩
  decide +kernel

end DefiniteAssignment.TestFile
