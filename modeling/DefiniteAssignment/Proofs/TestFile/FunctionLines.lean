import DefiniteAssignment.Proofs.TestFile.RoundTrip
/-!
# Printed functions in test files

The printed form of a function is one of the texts that can stand in a test file
(`Function.isFunctionText_toString`). It is read as the function, and ends in the brace that closes
it. It is printed on lines of their own for its head, its labels, its instructions and the brace
(`Function.toList_toString`), and there are no carriage returns on any of them.
-/

namespace DefiniteAssignment

open Grammar
open Text (joinLines joinLines_append_singleton isTrimmed isTrimmed_append)
open TestFile (IsFunctionText HasHead)

namespace Function

/-- The lines of a block: its label and its instructions. -/
def blockLines (number : Nat) (block : Block) : List (List Char) :=
  ("block" ++ toString number ++ ":").toList ::
    block.map fun inst => ("    " ++ inst.toString).toList

/-- The first line of a function, without the brace that it opens. -/
def head (f : Function) : List Char :=
  ("function %" ++ f.name ++ " ").toList

/-- The lines between the first line of a function and its last. -/
def body (f : Function) : List (List Char) :=
  f.blocks.zipIdx.flatMap fun (block, number) => blockLines number block

/-- The lines of the printed form. -/
def textLines (f : Function) : List (List Char) :=
  (f.head ++ ['\x7b']) :: (f.body ++ [['\x7d']])

/-- A block is printed line by line. -/
theorem toList_blockText (number : Nat) (block : Block) :
    (blockText number block).toList = (blockLines number block).flatMap (· ++ ['\n']) := by
  simp [blockText, blockLines, String.toList_join, List.flatMap_map]

/-- A function is printed line by line. -/
theorem toList_toString (f : Function) :
    f.toString.toList = joinLines f.textLines := by
  rw [textLines, ← List.cons_append, joinLines_append_singleton]
  simp [Function.toString, head, body, String.toList_join, List.flatMap_map, List.flatMap_assoc,
    toList_blockText]

/-- The printed form begins with a word and ends in a brace. -/
theorem isTrimmed_toString (f : Function) : isTrimmed f.toString.toList := by
  rw [Function.toString, String.toList_append, isTrimmed_append (by simp) (by decide)]
  refine ⟨?_, stops_cons.2 rfl⟩
  simp only [String.toList_append, List.append_assoc]
  exact stops_cons.2 rfl

/-- In front of its brace, the first line of a function is plain. -/
theorem isPlain_head {f : Function} (h : f.Writable) : ∀ c ∈ f.head, isPlain c := by
  have hword : ∀ c ∈ "function %".toList, isPlain c := List.all_eq_true.1 rfl
  simp only [head, String.toList_append, List.mem_append]
  intro c hc
  rcases hc with (hc | hc) | hc
  · exact hword c hc
  · exact holdsNames_isPlain.functionName c ((isFunctionName_iff.1 h.name).2 c hc)
  · obtain rfl : c = ' ' := List.mem_singleton.1 hc
    rfl

theorem isPlain_blockLines {number : Nat} {block : Block} (h : ∀ inst ∈ block, inst.isWritable) :
    ∀ line ∈ blockLines number block, ∀ c ∈ line, isPlain c := by
  have hword : ∀ c ∈ "block".toList, isPlain c := List.all_eq_true.1 rfl
  refine List.forall_mem_cons.2 ⟨?_, List.forall_mem_map.2 fun inst hinst => ?_⟩
  · simp only [String.toList_append, List.mem_append]
    intro c hc
    rcases hc with (hc | hc) | hc
    · exact hword c hc
    · exact holdsNames_isPlain.digits (digits_toString number) c hc
    · obtain rfl : c = ':' := List.mem_singleton.1 hc
      rfl
  · simp only [String.toList_append, List.mem_append]
    intro c hc
    rcases hc with hc | hc
    · obtain rfl : c = ' ' := by simpa using hc
      rfl
    · exact Inst.isPlain_toString (h inst hinst) c hc

/-- The lines between the braces of a function are plain. -/
theorem isPlain_body {f : Function} (h : f.Writable) : ∀ line ∈ f.body, ∀ c ∈ line, isPlain c := by
  intro line hline
  obtain ⟨⟨block, number⟩, hmem, hline⟩ := List.mem_flatMap.1 hline
  have hblock : block ∈ f.blocks :=
    List.mem_of_getElem? (List.mk_mem_zipIdx_iff_getElem?.1 hmem)
  exact isPlain_blockLines (h.insts block hblock) line hline

/-- A function is printed without carriage returns. -/
theorem notMem_toString {f : Function} (h : f.Writable) : '\r' ∉ f.toString.toList := by
  have hplain {cs : List Char} (hcs : ∀ c ∈ cs, isPlain c) : '\r' ∉ cs := fun hmem => by
    cases hcs _ hmem
  rw [toList_toString, textLines, ← List.cons_append, joinLines_append_singleton]
  simp only [List.flatMap_cons, List.mem_append, List.mem_flatMap, List.mem_singleton]
  rintro ((((hhead | hbrace) | hfeed) | ⟨line, hline, hmem | hfeed⟩) | hbrace)
  · exact hplain (isPlain_head h) hhead
  · cases hbrace
  · cases hfeed
  · exact hplain (isPlain_body h line hline) hmem
  · cases hfeed
  · cases hbrace

/-- The printed form of a function can stand in a test file. -/
theorem isFunctionText_toString {f : Function} (h : f.Writable) :
    IsFunctionText f.toString ∧ HasHead f.toString := by
  obtain ⟨later, htext⟩ :
      ∃ later, f.toString.toList = "function ".toList ++ '%' :: later := by
    simp only [Function.toString, String.toList_append, List.append_assoc]
    exact ⟨_, rfl⟩
  exact ⟨⟨⟨f, parse_toString h, spelledToBrace_toString h⟩, notMem_toString h, _, htext.symm⟩,
    _, htext, '%', by simp, rfl⟩

end Function

end DefiniteAssignment
