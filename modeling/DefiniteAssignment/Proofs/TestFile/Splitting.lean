import DefiniteAssignment.Proofs.Text.Lines
import DefiniteAssignment.TestFile.Case
/-!
# Functions and expectations found by lines

A test file is read line by line, without the grammar of functions. A function goes up to the line
that closes its brace (`takeFunction_append`), and what is expected of it is the run of marked lines
behind it (`cases_function`), from which the marks are taken off again (`uncomment_mark`).

A brace counts wherever it stands outside a comment, and a comment ends with its line. So the end of
a function can be looked for character by character, without lines (`afterClosing`): the function is
taken as it is if its text ends in the brace at which they balance.
-/

namespace DefiniteAssignment.TestFile

open Grammar (Stops stops_cons)
open Text (joinLines lines trim isWhiteSpace isTrimmed isTrimmed_append trim_of_isTrimmed IsLine
  lines_joinLines joinLines_singleton joinLines_cons)

section Functions

/-- What stands behind the brace that brings the depth to zero, in a text read character by
character. From a semicolon up to the end of its line nothing counts (`comment`). -/
def afterClosing (comment : Bool) (depth : Nat) : List Char → Option (List Char)
  | [] => none
  | c :: cs =>
    if c = '\n' then afterClosing false depth cs
    else if comment || c == ';' then afterClosing true depth cs
    else
      match depthAfter depth [c] with
      | none => some cs
      | some depth => afterClosing false depth cs

variable {line : List Char} {depth depth' : Nat} {ls : List (List Char)}

theorem depthAfter_cons (depth : Nat) (c : Char) (cs : List Char) :
    depthAfter depth (c :: cs) = (depthAfter depth [c]).bind (depthAfter · cs) := by
  simp only [depthAfter]
  repeat' split
  all_goals rfl

/-- The first line of a function is no blank line and no comment. -/
theorem isBlankLine_eq_false_of_begins (h : begins "function " line) :
    isBlankLine line = false ∧ begins ";" line = false := by
  rw [begins, List.isPrefixOf_iff_prefix] at h
  obtain ⟨later, htrim⟩ := h
  simp only [isBlankLine, begins, ← htrim]
  exact ⟨rfl, rfl⟩

/-- The rest of a line is taken with the comment that goes on to its end. -/
theorem afterClosing_comment (h : '\n' ∉ line) (depth : Nat) (cs : List Char) :
    afterClosing true depth (line ++ cs) = afterClosing true depth cs := by
  induction line with
  | nil => rfl
  | cons c line ih =>
    obtain ⟨hc, hline⟩ : '\n' ≠ c ∧ '\n' ∉ line := by simpa using h
    rw [List.cons_append, afterClosing, if_neg (Ne.symm hc), Bool.true_or, if_pos rfl, ih hline]

/-- A line is read up to the brace at which its depth comes to zero. If there is none it is passed,
and only whether a comment has begun on it is left open. -/
theorem exists_afterClosing_eq (hline : '\n' ∉ line) (depth : Nat) :
    match depthAfter depth (line.takeWhile (· != ';')) with
    | none => ∀ cs, ∃ behind, afterClosing false depth (line ++ cs) = some (behind ++ cs)
    | some depth' => ∃ comment, ∀ cs,
      afterClosing false depth (line ++ cs) = afterClosing comment depth' cs := by
  induction line generalizing depth with
  | nil => exact ⟨false, fun _ => rfl⟩
  | cons c line ih =>
    obtain ⟨hc, hline⟩ : '\n' ≠ c ∧ '\n' ∉ line := by simpa using hline
    by_cases hsemi : c = ';'
    · subst hsemi
      exact ⟨true, fun cs => afterClosing_comment hline depth cs⟩
    · rw [List.takeWhile_cons_of_pos (by simpa using hsemi), depthAfter_cons]
      simp only [List.cons_append, afterClosing, if_neg (Ne.symm hc), Bool.false_or, beq_iff_eq,
        if_neg hsemi]
      cases depthAfter depth [c] with
      | none => exact fun cs => ⟨line, rfl⟩
      | some depth => exact ih hline depth

/-- A text that ends in the brace that closes it is taken as a function, and no line behind it. -/
theorem takeFunction_append (hne : ls ≠ []) (hls : ∀ line ∈ ls, '\n' ∉ line)
    (h : afterClosing false depth (joinLines ls) = some []) (rest : List (List Char)) :
    takeFunction depth (ls ++ rest) = (ls, rest) := by
  induction ls generalizing depth with
  | nil => exact absurd rfl hne
  | cons line ls ih =>
    obtain ⟨hline, hls⟩ := List.forall_mem_cons.1 hls
    have hpass := exists_afterClosing_eq hline depth
    rw [List.cons_append, takeFunction]
    cases hdepth : depthAfter depth (line.takeWhile (· != ';')) with
    | none =>
      rw [hdepth] at hpass
      by_cases hnil : ls = []
      · rw [hnil, List.nil_append]
      · obtain ⟨behind, hstop⟩ := hpass ('\n' :: joinLines ls)
        rw [joinLines_cons line hnil, hstop] at h
        simp at h
    | some depth' =>
      rw [hdepth] at hpass
      obtain ⟨comment, hlater⟩ := hpass
      by_cases hnil : ls = []
      · have hnone := hlater []
        rw [hnil, joinLines_singleton] at h
        rw [List.append_nil, h] at hnone
        cases hnone
      · rw [joinLines_cons line hnil, hlater, afterClosing, if_pos rfl] at h
        simp only [ih hnil hls h]

end Functions

section Expectations

/-- A line as it is written in an expectation. -/
def mark (line : List Char) : List Char :=
  ';' :: ' ' :: line

/-- The line alone decides whether white space is lost at the end of a marked line. -/
theorem trim_mark {line : List Char} (h : Stops isWhiteSpace line.reverse) :
    trim (mark line) = if line = [] then [';'] else mark line := by
  split
  next hnil =>
    subst hnil
    rfl
  next hne =>
    have hfront : Stops isWhiteSpace [';', ' '] := stops_cons.2 rfl
    have htrimmed : isTrimmed ([';', ' '] ++ line) :=
      (isTrimmed_append (by simp) hne).2 ⟨hfront, h⟩
    exact trim_of_isTrimmed htrimmed

theorem uncomment_mark {line : List Char} (h : Stops isWhiteSpace line.reverse) :
    uncomment (mark line) = line := by
  rw [uncomment, trim_mark h]
  by_cases hnil : line = []
  · rw [if_pos hnil, hnil]
    rfl
  · rw [if_neg hnil]
    rfl

theorem begins_mark {line : List Char} (h : Stops isWhiteSpace line.reverse) :
    begins ";" (mark line) ∧ isBlankLine (mark line) = false := by
  rw [begins, isBlankLine, trim_mark h]
  split <;> exact ⟨rfl, rfl⟩

/-- The marked lines behind a function are its expectation, and cases are looked for behind them. -/
theorem cases_function (command : String) {first : List Char} {later rest : List (List Char)}
    {expected : List (List Char)} (hfirst : begins "function " first)
    (htake : takeFunction 0 (first :: later ++ (expected.map mark ++ rest)) =
      (first :: later, expected.map mark ++ rest))
    (hexpected : ∀ line ∈ expected, Stops isWhiteSpace line.reverse)
    (hrest : ∀ line ∈ rest.head?, isBlankLine line = false ∧ begins ";" line = false) :
    cases command (first :: later ++ (expected.map mark ++ rest)) =
      { functionText := String.ofList (joinLines (first :: later))
        expected := String.ofList (joinLines expected)
        command } :: cases command rest := by
  have hmarks : ∀ line ∈ expected.map mark, begins ";" line :=
    List.forall_mem_map.2 fun line hline => (begins_mark (hexpected line hline)).1
  have hblank : (expected.map mark ++ rest).dropWhile isBlankLine = expected.map mark ++ rest := by
    cases expected with
    | nil =>
      cases rest with
      | nil => rfl
      | cons next rest => exact List.dropWhile_cons_of_neg (by simp [(hrest next rfl).1])
    | cons line expected =>
      have hline := (begins_mark (hexpected line List.mem_cons_self)).2
      exact List.dropWhile_cons_of_neg (by simp [hline])
  have hstop : rest.takeWhile (begins ";") = [] ∧ rest.dropWhile (begins ";") = rest := by
    cases rest with
    | nil => exact ⟨rfl, rfl⟩
    | cons next rest => simp [(hrest next rfl).2]
  have huncomment : (expected.map mark).map uncomment = expected := by
    rw [List.map_map]
    exact (List.map_congr_left fun line hline => uncomment_mark (hexpected line hline)).trans
      (List.map_id expected)
  rw [List.cons_append] at htake ⊢
  rw [cases, if_pos hfirst, htake]
  simp only [hblank, List.takeWhile_append_of_pos hmarks, List.dropWhile_append_of_pos hmarks,
    hstop.1, hstop.2, List.append_nil, huncomment]

end Expectations

end DefiniteAssignment.TestFile
