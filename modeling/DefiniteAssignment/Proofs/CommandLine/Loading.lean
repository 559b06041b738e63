import DefiniteAssignment.CommandLine.Source
import DefiniteAssignment.Proofs.Grammar.Modules
import DefiniteAssignment.Proofs.Text.Lines
/-!
# Sources told apart

A source is taken for a module or for a single function by its first line that is neither blank nor
a comment, before any of it is read. Lines know nothing of the grammar, in which blanks and comments
may be of any number and of any length in front of the first word. Still both come to this word:
passing over blanks and comments, as the grammar has them, never changes which line is the first
(`firstCode?_of_blank`). For a comment takes up what is left of its line, and a carriage return that
would leave a part of the line over is no comment's end.

So every text that can be read is given to the one reader that can read it:

> `load_reads`: what is loaded is the module of the text, or its function alone, and never both.
-/

namespace DefiniteAssignment

open Grammar
open Text (lines lines_append lines_of_notMem notMem_or_exists_append trim trim_cons trim_append
  trim_dropReturn isTrimmed isWhiteSpace)

section FirstLine

variable {cs rest line : List Char}

/-- Whether a line is neither blank nor a comment, once it is trimmed. -/
def isCode (line : List Char) : Bool :=
  !line.isEmpty && line.head? != some ';'

/-- The first line that is neither blank nor a comment, of a list of characters. -/
def firstCode? (cs : List Char) : Option (List Char) :=
  ((lines cs).map trim).find? isCode

theorem firstLine?_eq (text : String) : firstLine? text = firstCode? text.toList := rfl

@[simp]
theorem firstCode?_nil : firstCode? [] = none := by
  rw [firstCode?, Text.lines_nil]
  rfl

/-- A line is taken if there is code on it, and passed over if not. -/
theorem firstCode?_append (h : '\n' ∉ line) (rest : List Char) :
    firstCode? (line ++ '\n' :: rest) =
      if isCode (trim line) then some (trim line) else firstCode? rest := by
  rw [firstCode?, lines_append h, List.map_cons, trim_dropReturn, List.find?_cons]
  cases isCode (trim line) <;> rfl

/-- The last line is taken if there is code on it. -/
theorem firstCode?_of_notMem (h : '\n' ∉ line) :
    firstCode? line = if isCode (trim line) then some (trim line) else none := by
  by_cases hnil : line = []
  · subst hnil
    exact firstCode?_nil
  · rw [firstCode?, lines_of_notMem h hnil, List.map_singleton, List.find?_singleton]

/-- All that the grammar takes for a blank is white space. -/
theorem isWhiteSpace_of_isBlank {c : Char} (h : isBlank c) : isWhiteSpace c := by
  rcases isBlank_eq_or h with rfl | rfl | rfl | rfl <;> rfl

/-- A blank either belongs to the line that it stands in front of, and is trimmed from it, or ends a
blank line. -/
theorem firstCode?_cons {c : Char} (h : isBlank c) (cs : List Char) :
    firstCode? (c :: cs) = firstCode? cs := by
  by_cases hc : c = '\n'
  · subst hc
    exact firstCode?_append (List.not_mem_nil (a := '\n')) cs
  · have htrim := trim_cons (isWhiteSpace_of_isBlank h)
    rcases notMem_or_exists_append cs with hcs | ⟨line, rest, hline, rfl⟩
    · have hmem : '\n' ∉ c :: cs := by simp [Ne.symm hc, hcs]
      rw [firstCode?_of_notMem hmem, firstCode?_of_notMem hcs, htrim]
    · have hmem : '\n' ∉ c :: line := by simp [Ne.symm hc, hline]
      rw [← List.cons_append, firstCode?_append hmem, firstCode?_append hline, htrim]

/-- A line that begins with a semicolon is passed over, whatever else stands on it. -/
theorem isCode_trim_comment (line : List Char) : isCode (trim (';' :: line)) = false := by
  have htrim : trim ([';'] ++ line) = [';'] ++ Text.trimEnd line :=
    trim_append rfl (List.cons_ne_nil _ _) line
  exact (congrArg isCode htrim).trans rfl

/-- A comment is passed over up to its end. -/
theorem firstCode?_comment {body : List Char} (hbody : ∀ c ∈ body, c ≠ '\n' ∧ c ≠ '\r')
    (hends : EndsComment cs) : firstCode? (';' :: (body ++ cs)) = firstCode? cs := by
  have hmem : '\n' ∉ ';' :: body := by
    simpa using fun hn => (hbody _ hn).1 rfl
  cases hends with
  | text =>
    rw [List.append_nil, firstCode?_of_notMem hmem, isCode_trim_comment, firstCode?_nil]
    rfl
  | lineFeed rest =>
    rw [firstCode?_cons (c := '\n') rfl, ← List.cons_append, firstCode?_append hmem,
      isCode_trim_comment]
    rfl
  | both rest =>
    -- The carriage return is the last character of the comment's line.
    have hmem' : '\n' ∉ ';' :: (body ++ ['\r']) := by simpa using hmem
    have hsplit : ';' :: (body ++ '\r' :: '\n' :: rest) =
        (';' :: (body ++ ['\r'])) ++ '\n' :: rest := by simp
    rw [firstCode?_cons (c := '\r') rfl, firstCode?_cons (c := '\n') rfl, hsplit,
      firstCode?_append hmem', isCode_trim_comment]
    rfl

/-- Blanks and comments lead up to the first line. -/
theorem firstCode?_of_blank (h : Blank cs rest) : firstCode? cs = firstCode? rest := by
  induction h with
  | nothing => rfl
  | char blank _ ih => exact (firstCode?_cons blank _).trans ih
  | comment body_ne ends _ ih => exact (firstCode?_comment body_ne ends).trans ih

/-- A text that begins with a word has a first line that does. -/
theorem firstCode?_word (word : List Char) (htrimmed : isTrimmed word) (hcode : isCode word)
    (hmem : '\n' ∉ word) (cs : List Char) :
    ∃ tail, firstCode? (word ++ cs) = some (word ++ tail) := by
  have hne : word ≠ [] := by
    rintro rfl
    cases hcode
  have hline (tail : List Char) : isCode (word ++ tail) := by
    obtain ⟨c, word, rfl⟩ := List.exists_cons_of_ne_nil hne
    exact hcode
  rcases notMem_or_exists_append cs with hcs | ⟨line, rest, hrest, rfl⟩
  · refine ⟨Text.trimEnd cs, ?_⟩
    rw [firstCode?_of_notMem (by simp [hmem, hcs]), trim_append htrimmed hne, if_pos (hline _)]
  · refine ⟨Text.trimEnd line, ?_⟩
    rw [← List.append_assoc, firstCode?_append (by simp [hmem, hrest]), trim_append htrimmed hne,
      if_pos (hline _)]

end FirstLine

section FirstWord

variable {text : String} {mid : List Char}

/-- A text whose first word is that of a module is taken for one. -/
theorem isModuleText_of_module (h : Blank text.toList ("module".toList ++ mid)) :
    isModuleText text := by
  obtain ⟨tail, hline⟩ := firstCode?_word "module".toList rfl rfl (by decide) mid
  rw [isModuleText, firstLine?_eq, firstCode?_of_blank h, hline]
  rfl

/-- A text whose first word is that of a function is not taken for a module. -/
theorem isModuleText_of_function (h : Blank text.toList ("function".toList ++ mid)) :
    isModuleText text = false := by
  obtain ⟨tail, hline⟩ := firstCode?_word "function".toList rfl rfl (by decide) mid
  rw [isModuleText, firstLine?_eq, firstCode?_of_blank h, hline]
  rfl

/-- What is read as a module begins with the word for one, behind blanks. -/
theorem isModuleText_of_parse_module {m : Module} (h : Module.parse text = .ok m) :
    isModuleText text := by
  obtain ⟨-, w, -, ⟨mid, hblank, mid', rfl, -⟩, -⟩ := Module.exists_written_of_parse h
  exact isModuleText_of_module hblank

/-- No text that is read as a function is taken for a module. -/
theorem isModuleText_of_parse_function {f : Function} (h : Function.parse text = .ok f) :
    isModuleText text = false := by
  obtain ⟨w, -, -, mid, hblank, hspelled⟩ := Function.parse_eq_ok_iff.1 h
  obtain ⟨mid', rfl, -⟩ := hspelled.written
  exact isModuleText_of_function hblank

end FirstWord

namespace Module

/-- A module that holds a function under its name, no other function, and that one as its entry. -/
structure HoldsOnly (m : Module) (f : Function) : Prop where
  entries : m.functions.entries = [(f.name, f)]
  entry : m.entry = some f.name
  entryFunction : m.entryFunction? = some f

/-- The module made of a function holds that function and has no entry. -/
theorem holdsOnly_ofFunction (f : Function) : (ofFunction f).HoldsOnly f where
  entries := rfl
  entry := rfl
  entryFunction := by
    show (empty.add f).find? f.name = some f
    rw [find?_add, if_pos rfl]

/-- What is read as a module is loaded as it, and what is read as a function is loaded as the module
of this function. Nothing else is loaded, and no text is read as both. -/
theorem load_reads (text : String) :
    (∀ m, parse text = .ok m → load text = .ok m) ∧
    (∀ f, Function.parse text = .ok f → ∃ m, load text = .ok m ∧ m.HoldsOnly f) ∧
    ∀ m, load text = .ok m →
      (parse text = .ok m ∧ ∀ f, Function.parse text ≠ .ok f) ∨
        ∃ f, Function.parse text = .ok f ∧ m.HoldsOnly f ∧ ∀ m', parse text ≠ .ok m' := by
  have hnever {m : Module} {f : Function} (hm : parse text = .ok m)
      (hf : Function.parse text = .ok f) : False :=
    Bool.false_ne_true
      ((isModuleText_of_parse_function hf).symm.trans (isModuleText_of_parse_module hm))
  refine ⟨fun m hm => ?_, fun f hf => ⟨ofFunction f, ?_, holdsOnly_ofFunction f⟩, fun m hm => ?_⟩
  · rw [load, if_pos (isModuleText_of_parse_module hm), hm]
  · rw [load, isModuleText_of_parse_function hf, hf]
    rfl
  · unfold load at hm
    split at hm
    next => exact .inl ⟨hm, fun f hf => hnever hm hf⟩
    next =>
      cases hf : Function.parse text with
      | error e =>
        rw [hf] at hm
        cases hm
      | ok f =>
        rw [hf] at hm
        obtain rfl : ofFunction f = m := Except.ok.inj hm
        exact .inr ⟨f, rfl, holdsOnly_ofFunction f, fun m' hm' => hnever hm' hf⟩

/-- Comments that begin like the other kind of source, in front of an indented module and of a
function behind a carriage return. -/
theorem load_reads_samples :
    load "; function %f \x7b\r\n\r\t; module\n  module\x7b\x7d" = .ok empty ∧
      ∃ m, load "; module \x7b\n\r ;\n\rfunction %f\x7bblock0:\x7d" = .ok m ∧
        m.HoldsOnly ⟨"f", [[]]⟩ :=
  ⟨(load_reads _).1 empty (by decide +kernel), (load_reads _).2.1 ⟨"f", [[]]⟩ (by decide +kernel)⟩

end Module

end DefiniteAssignment
