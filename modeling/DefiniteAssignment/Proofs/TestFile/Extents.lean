import DefiniteAssignment.Proofs.TestFile.Splitting
/-!
# Where cases stand

Whatever a test file holds, its cases are read off stretches of its lines that follow one another
and do not overlap. An `Extent` has the numbers of the lines at which these stretches begin and end:
the lines of a function, blank lines, and the marked lines of what is expected. No number is greater
than that of the line behind the last, since a stretch that goes on further is none (`slice?`):

> `exists_layout_parse`

Nothing is asked of the file. If braces never balance, the function goes on to the last line; if one
closes before any is opened, the function ends on that line; and if it ends on the last line,
nothing is expected of it. In each case the next one is looked for behind at least one more line.

Cases are cut off a list of lines, and numbers are not used for it. They come in with the lines that
have been left behind: how many they are is the number of the next line (`exists_layout_cases`).
-/

namespace DefiniteAssignment.TestFile

open Text (joinLines lines trim)

variable {ls front function blanks marked behind : List (List Char)} {line : List Char}
  {command : String} {depth low : Nat}

/-- The elements of a list from number `first` on that come before number `last`; none if these are
no positions of the list in this order. -/
def slice? {α : Type} (l : List α) (first last : Nat) : Option (List α) :=
  if first ≤ last ∧ last ≤ l.length then some (l.extract first last) else none

/-- The numbers of the lines where the parts of a case begin and end. -/
structure Extent where
  /-- The first line of the function. -/
  start : Nat
  /-- The line behind the function. -/
  stop : Nat
  /-- The line behind the blank lines that follow, which is the first of the expectation. -/
  expectation : Nat
  /-- The line behind the expectation. -/
  behind : Nat
  start_lt_stop : start < stop
  stop_le_expectation : stop ≤ expectation
  expectation_le_behind : expectation ≤ behind

/-- How deep braces are nested behind some lines; none if it has come to zero on the way. -/
def depthBehind (depth : Nat) (ls : List (List Char)) : Option Nat :=
  ls.foldlM (fun depth line => depthAfter depth (line.takeWhile (· != ';'))) depth

/-- A case is what stands in an extent of the lines of a file. -/
structure Extent.Holds (ls : List (List Char)) (e : Extent) (c : TestCase)
    (function blanks marked : List (List Char)) : Prop where
  slice_function : slice? ls e.start e.stop = some function
  slice_blanks : slice? ls e.stop e.expectation = some blanks
  slice_marked : slice? ls e.expectation e.behind = some marked
  begins_function : ∃ first ∈ function.head?, begins "function " first
  /-- Braces do not balance before the last line of the function. -/
  opened : depthBehind 0 function.dropLast ≠ none
  /-- They do on that line, or it is the last one of the file. -/
  closed : depthBehind 0 function = none ∨ e.stop = ls.length
  isBlank : ∀ line ∈ blanks, isBlankLine line
  begins_marked : ∀ line ∈ marked, begins ";" line
  /-- No blank line is left out, and no marked line. -/
  blanks_stop : ∀ line ∈ ls[e.expectation]?, isBlankLine line = false
  marked_stop : ∀ line ∈ ls[e.behind]?, begins ";" line = false
  functionText_eq : c.functionText = String.ofList (joinLines function)
  expected_eq : c.expected = String.ofList (joinLines (marked.map uncomment))

/-- The extents of the cases that are found from a line on. -/
structure Layout (ls : List (List Char)) (low : Nat) (es : List Extent) (cases : List TestCase) :
    Prop where
  holds : List.Forall₂ (fun e c => ∃ function blanks marked, e.Holds ls c function blanks marked)
    es cases
  low_le : ∀ e ∈ es, low ≤ e.start
  /-- A case is over before the next one begins. -/
  ordered : es.Pairwise fun e f => e.behind ≤ f.start
  /-- A line on which a function could begin belongs to a function. -/
  complete : ∀ n line, low ≤ n → ls[n]? = some line → begins "function " line →
    ∃ e ∈ es, e.start ≤ n ∧ n < e.stop

/-- The number of the first line that is a command; if there is none, that of the line behind the
last. -/
def header (ls : List (List Char)) : Nat :=
  ls.findIdx (begins "test ")

section Functions

theorem depthBehind_cons (depth : Nat) (line : List Char) (ls : List (List Char)) :
    depthBehind depth (line :: ls) =
      (depthAfter depth (line.takeWhile (· != ';'))).bind (depthBehind · ls) :=
  List.foldlM_cons

theorem takeFunction_append_eq (depth : Nat) (ls : List (List Char)) :
    (takeFunction depth ls).1 ++ (takeFunction depth ls).2 = ls := by
  induction ls generalizing depth with
  | nil => rfl
  | cons line ls ih =>
    unfold takeFunction
    split
    · rfl
    · exact congrArg (line :: ·) (ih _)

/-- A function has at least the line on which it begins. -/
theorem exists_takeFunction_cons (depth : Nat) (line : List Char) (ls : List (List Char)) :
    ∃ later, (takeFunction depth (line :: ls)).1 = line :: later := by
  unfold takeFunction
  split
  · exact ⟨[], rfl⟩
  · exact ⟨_, rfl⟩

/-- Braces do not balance before the last line of what is taken; there they do, or no line is
left. -/
theorem depthBehind_takeFunction (depth : Nat) (ls : List (List Char)) :
    depthBehind depth (takeFunction depth ls).1.dropLast ≠ none ∧
      (depthBehind depth (takeFunction depth ls).1 = none ∨ (takeFunction depth ls).2 = []) := by
  induction ls generalizing depth with
  | nil => exact ⟨Option.some_ne_none depth, .inr rfl⟩
  | cons line ls ih =>
    unfold takeFunction
    cases hdepth : depthAfter depth (line.takeWhile (· != ';')) with
    | none => exact ⟨Option.some_ne_none depth, .inl (by rw [depthBehind_cons, hdepth]; rfl)⟩
    | some depth' =>
      obtain ⟨hopened, hclosed⟩ := ih depth'
      dsimp only
      rw [depthBehind_cons, hdepth]
      refine ⟨?_, hclosed⟩
      cases hlater : (takeFunction depth' ls).1 with
      | nil => exact Option.some_ne_none depth
      | cons next later =>
        rw [List.dropLast_cons_cons, depthBehind_cons, hdepth, ← hlater]
        exact hopened

end Functions

section Stretches

/-- What stands at the number of the elements in front. -/
theorem getElem?_append_length {α : Type} (front rest : List α) :
    (front ++ rest)[front.length]? = rest.head? := by
  rw [List.getElem?_append_right (Nat.le_refl _), Nat.sub_self, List.head?_eq_getElem?]

theorem slice?_append {α : Type} (front middle rest : List α) :
    slice? (front ++ middle ++ rest) front.length (front ++ middle).length = some middle := by
  have hfirst : front.length ≤ (front ++ middle).length := by simp
  have hlast : (front ++ middle).length ≤ (front ++ middle ++ rest).length := by simp
  rw [slice?, if_pos ⟨hfirst, hlast⟩, List.extract_eq_take_drop, List.append_assoc, List.drop_left,
    List.length_append, Nat.add_sub_cancel_left, List.take_left]

/-- An element between two numbers is one of those that stand between them. -/
theorem mem_of_slice? {α : Type} {l part : List α} {first last n : Nat} {a : α}
    (h : slice? l first last = some part) (hfirst : first ≤ n) (hlast : n < last)
    (hn : l[n]? = some a) : a ∈ part := by
  rw [slice?] at h
  split at h
  next =>
    obtain rfl := Option.some.inj h
    rw [List.extract_eq_take_drop, List.mem_iff_getElem?]
    refine ⟨n - first, ?_⟩
    rw [List.getElem?_take_of_lt (by omega), List.getElem?_drop, Nat.add_sub_cancel' hfirst, hn]
  next => cases h

theorem head?_dropWhile_eq_false (p : List Char → Bool) (ls : List (List Char)) :
    ∀ line ∈ (ls.dropWhile p).head?, p line = false := by
  intro line hline
  have hnot := List.head?_dropWhile_not p ls
  rw [Option.mem_def.1 hline] at hnot
  exact hnot

end Stretches

section Cases

/-- The extent of parts that follow one another behind some lines. -/
def Extent.ofParts (front function blanks marked : List (List Char)) (hne : function ≠ []) :
    Extent where
  start := front.length
  stop := (front ++ function).length
  expectation := (front ++ function ++ blanks).length
  behind := (front ++ function ++ blanks ++ marked).length
  start_lt_stop := by simpa [List.length_pos_iff] using hne
  stop_le_expectation := by simp
  expectation_le_behind := by simp

/-- No function begins on a line of a case behind its function. -/
theorem Extent.Holds.lt_stop {e : Extent} {c : TestCase} {n : Nat}
    (h : e.Holds ls c function blanks marked) (hn : ls[n]? = some line)
    (hline : begins "function " line) (hlt : n < e.behind) : n < e.stop := by
  obtain ⟨hblank, hmark⟩ := isBlankLine_eq_false_of_begins hline
  by_contra hstop
  by_cases hexpectation : n < e.expectation
  · have hmem := mem_of_slice? h.slice_blanks (Nat.le_of_not_lt hstop) hexpectation hn
    exact Bool.false_ne_true (hblank.symm.trans (h.isBlank line hmem))
  · have hmem := mem_of_slice? h.slice_marked (Nat.le_of_not_lt hexpectation) hlt hn
    exact Bool.false_ne_true (hmark.symm.trans (h.begins_marked line hmem))

theorem Layout.nil (hls : ls.length ≤ low) : Layout ls low [] [] where
  holds := .nil
  low_le e he := absurd he (List.not_mem_nil)
  ordered := .nil
  complete n line hn hline _ := by
    rw [List.getElem?_eq_none (Nat.le_trans hls hn)] at hline
    cases hline

/-- A line on which no function begins is passed over. -/
theorem Layout.pass {es : List Extent} {cases : List TestCase} (h : Layout ls (low + 1) es cases)
    (hline : ∀ line ∈ ls[low]?, begins "function " line = false) : Layout ls low es cases where
  holds := h.holds
  low_le e he := Nat.le_of_succ_le (h.low_le e he)
  ordered := h.ordered
  complete n line hn hn' hbegins := by
    rcases Nat.eq_or_lt_of_le hn with rfl | hlt
    · exact absurd hbegins (by rw [hline line hn']; exact Bool.false_ne_true)
    · exact h.complete n line hlt hn' hbegins

/-- Behind a case the next one is looked for. -/
theorem Layout.cons {e : Extent} {es : List Extent} {c : TestCase} {cases : List TestCase}
    (hc : e.Holds ls c function blanks marked) (h : Layout ls e.behind es cases) :
    Layout ls e.start (e :: es) (c :: cases) where
  holds := .cons ⟨function, blanks, marked, hc⟩ h.holds
  low_le f hf := by
    rcases List.mem_cons.1 hf with rfl | hf
    · exact Nat.le_refl _
    · have hle := h.low_le f hf
      have h1 := e.start_lt_stop
      have h2 := e.stop_le_expectation
      have h3 := e.expectation_le_behind
      omega
  ordered := .cons h.low_le h.ordered
  complete n line hn hn' hbegins := by
    by_cases hlt : n < e.behind
    · exact ⟨e, List.mem_cons_self, hn, hc.lt_stop hn' hbegins hlt⟩
    · obtain ⟨f, hf, hwithin⟩ := h.complete n line (Nat.le_of_not_lt hlt) hn' hbegins
      exact ⟨f, List.mem_cons_of_mem _ hf, hwithin⟩

/-- Parts that follow one another are a case if they are as a case has them. -/
theorem Extent.holds_ofParts (hne : function ≠ [])
    (hfirst : ∃ first ∈ function.head?, begins "function " first)
    (hopened : depthBehind 0 function.dropLast ≠ none)
    (hclosed : depthBehind 0 function = none ∨ blanks ++ (marked ++ behind) = [])
    (hblank : ∀ line ∈ blanks, isBlankLine line) (hmarked : ∀ line ∈ marked, begins ";" line)
    (hblanks_stop : ∀ line ∈ (marked ++ behind).head?, isBlankLine line = false)
    (hmarked_stop : ∀ line ∈ behind.head?, begins ";" line = false) (front : List (List Char))
    (command : String) :
    (ofParts front function blanks marked hne).Holds
      (front ++ function ++ blanks ++ marked ++ behind)
      ⟨.ofList (joinLines function), .ofList (joinLines (marked.map uncomment)), command⟩
      function blanks marked := by
  constructor
  case slice_function =>
    rw [List.append_assoc, List.append_assoc]
    exact slice?_append front function _
  case slice_blanks =>
    rw [List.append_assoc]
    exact slice?_append (front ++ function) blanks _
  case slice_marked => exact slice?_append (front ++ function ++ blanks) marked behind
  case begins_function => exact hfirst
  case opened => exact hopened
  case closed =>
    refine hclosed.imp_right fun hnil => ?_
    rw [List.append_assoc, List.append_assoc, hnil, List.append_nil]
    rfl
  case isBlank => exact hblank
  case begins_marked => exact hmarked
  case blanks_stop =>
    have hnext := getElem?_append_length (front ++ function ++ blanks) (marked ++ behind)
    rw [← List.append_assoc] at hnext
    exact hnext.symm ▸ hblanks_stop
  case marked_stop =>
    have hnext := getElem?_append_length (front ++ function ++ blanks ++ marked) behind
    exact hnext.symm ▸ hmarked_stop
  case functionText_eq => rfl
  case expected_eq => rfl

/-- The cases that are found behind some lines have extents from their number on. -/
theorem exists_layout_cases (command : String) (front remaining : List (List Char)) :
    ∃ es, Layout (front ++ remaining) front.length es (cases command remaining) := by
  fun_induction cases command remaining generalizing front with
  | case1 => exact ⟨[], .nil (by simp)⟩
  | case2 line later hline rest expected ih =>
    -- The lines are those of the function, blank ones, marked ones and the rest, in this order.
    have htaken := takeFunction_append_eq 0 (line :: later)
    have hrest : rest = (takeFunction 0 (line :: later)).2.dropWhile isBlankLine := rfl
    obtain ⟨more, hmore⟩ := exists_takeFunction_cons 0 line later
    obtain ⟨hopened, hclosed⟩ := depthBehind_takeFunction 0 (line :: later)
    clear_value rest
    rw [hmore] at htaken hopened hclosed ⊢
    generalize (takeFunction 0 (line :: later)).2 = after at htaken hrest hclosed
    have hstop : ∀ line ∈ rest.head?, isBlankLine line = false :=
      hrest ▸ head?_dropWhile_eq_false isBlankLine after
    have hblanks : after.takeWhile isBlankLine ++ rest = after :=
      hrest ▸ List.takeWhile_append_dropWhile
    have hmarked : rest.takeWhile (begins ";") ++ rest.dropWhile (begins ";") = rest :=
      List.takeWhile_append_dropWhile
    have hholds := Extent.holds_ofParts (List.cons_ne_nil line more) ⟨line, rfl, hline⟩ hopened
      (hclosed.imp_right fun hnil => by rw [hmarked, hblanks, hnil])
      (fun _ => List.mem_takeWhile_imp) (fun _ => List.mem_takeWhile_imp)
      (hmarked.symm ▸ hstop) (head?_dropWhile_eq_false (begins ";") rest) front command
    obtain ⟨es, hes⟩ :=
      ih (front ++ line :: more ++ after.takeWhile isBlankLine ++ rest.takeWhile (begins ";"))
    rw [List.append_assoc (front ++ _ ++ _), hmarked, List.append_assoc (front ++ _), hblanks,
      List.append_assoc, htaken] at hholds hes
    exact ⟨_, .cons hholds hes⟩
  | case3 line later hline ih =>
    obtain ⟨es, hes⟩ := ih (front ++ [line])
    rw [List.append_assoc, List.length_append] at hes
    refine ⟨es, hes.pass ?_⟩
    intro first hfirst
    rw [getElem?_append_length] at hfirst
    obtain rfl := Option.some.inj hfirst
    exact Bool.eq_false_iff.2 hline

/-- All cases of a file have its command. -/
theorem command_of_mem_cases {c : TestCase} (h : c ∈ cases command ls) : c.command = command := by
  fun_induction cases command ls with
  | case1 => cases h
  | case2 line later _ rest expected ih =>
    rcases List.mem_cons.1 h with rfl | h
    · rfl
    · exact ih h
  | case3 line later _ ih => exact ih h

/-- Whatever a file holds, its cases stand in extents of its lines, in order and apart from one
another, behind the first line that is a command; and no function is left out. -/
theorem exists_layout_parse (content : String) :
    ∃ es, Layout (lines content.toList) (header (lines content.toList) + 1) es (parse content) ∧
      ∀ c ∈ parse content, ∃ line, (lines content.toList)[header (lines content.toList)]? =
        some line ∧ c.command = String.ofList (trim line) := by
  rw [parse]
  generalize lines content.toList = ls
  have hdrop : ls.dropWhile (! begins "test " ·) = ls.drop (header ls) := by
    rw [List.dropWhile_eq_drop_findIdx_not]
    simp only [Bool.not_not]
    rfl
  rw [hdrop]
  cases hlater : ls.drop (header ls) with
  | nil => exact ⟨[], .nil (Nat.le_succ_of_le (List.drop_eq_nil_iff.1 hlater)), by simp⟩
  | cons first later =>
    have hfirst : ls[header ls]? = some first := by
      rw [← List.head?_drop, hlater]
      rfl
    obtain ⟨hlt, -⟩ := List.getElem?_eq_some_iff.1 hfirst
    have hlength : (ls.take (header ls) ++ [first]).length = header ls + 1 := by
      rw [List.length_append, List.length_take_of_le (Nat.le_of_lt hlt), List.length_singleton]
    have hls : ls.take (header ls) ++ [first] ++ later = ls := by
      rw [List.append_assoc, List.singleton_append, ← hlater, List.take_append_drop]
    obtain ⟨es, hes⟩ :=
      exists_layout_cases (.ofList (trim first)) (ls.take (header ls) ++ [first]) later
    rw [hlength, hls] at hes
    exact ⟨es, hes, fun c hc => ⟨first, hfirst, command_of_mem_cases hc⟩⟩

/-- The first function ends with the brace that closes what was not opened, and since a line follows
that is neither blank nor marked, nothing is expected of it. The second goes on to the end of the
file. -/
example :
    parse "test a\nfunction \x7d \x7b\nx\n; y\nfunction \x7b ; \x7d\nfunction x" =
      [⟨"function \x7d \x7b", "", "test a"⟩,
        ⟨"function \x7b ; \x7d\nfunction x", "", "test a"⟩] := by
  decide +kernel

end Cases

end DefiniteAssignment.TestFile
