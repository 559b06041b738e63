import Mathlib.Data.List.TakeDrop
import DefiniteAssignment.Proofs.Grammar.Functions
/-!
# Where reading stops

A text that follows the grammar up to the end of a line, and there goes on with something that fits
nowhere, is refused at the byte where that something begins:

> `Function.parse_upTo : … → ∃ e, parse ((f.upTo i j).openText ++ indent ++ r) = .error e ∧ …`

Nothing says so on the way. That no further instruction can be read ends the block, that no further
block can be read ends the function, and neither is a failure; it is the missing brace that is
reported. So it has to be seen that each repetition leaves off exactly where the lines do, and that
the blanks behind the last line are taken and no character more.

A line that has ended needs little from what comes next. Where instructions are separated by blanks
only, what follows must not begin with a sign of equality, or the last name would be assigned to
(`Follows`). Behind the end of a line anything visible will do, as long as it is no instruction
(`many_instructionLine_of_lineEnds`) and no block (`many1_block_of_lineEnds`).
-/

namespace DefiniteAssignment

open Grammar

/-- The function up to a line: its first `i` blocks, and `j` instructions of the next one. -/
def Function.upTo (f : Function) (i j : Nat) : Function :=
  ⟨f.name, f.blocks.take i ++ [(f.blocks[i]?.getD []).take j]⟩

namespace Grammar

variable {cs mid rest : List Char}

/-- What fits nowhere behind a line of a function: it is something visible, and neither the brace
nor the beginning of an instruction or of a block. -/
structure Misfit (cs : List Char) : Prop where
  visible : Visible cs
  ne_brace : cs.head? ≠ some '\x7d'
  instruction_eq : instruction cs = none
  block_ne : ∀ b rest, block cs ≠ .ok (b, rest)

section Lines

theorem NoSign.of_lineEnd (h : LineEnd cs) : NoSign cs := by
  obtain ⟨c, rest, hgap, hc⟩ := h
  refine ⟨c, rest, hgap, ?_⟩
  rcases hc with rfl | rfl | rfl <;> decide

/-- An instruction that ends its line is read whatever comes next. -/
theorem instructionLine_of_lineEnd {inst : Inst} (h : Written (inst.pieces ++ [.lineEnd]) cs rest)
    (hrest : Visible rest) : instructionLine cs = some (inst, rest) := by
  obtain ⟨mid, hinst, last, ⟨hend, hblank⟩, rfl⟩ := chained_append.1 h
  exact instructionLine_of_written hinst (.of_lineEnd inst hend) (.of_lineEnd hend) hblank hrest

theorem visible_of_lineEnds {insts : List Inst}
    (h : Written (insts.flatMap fun inst => inst.pieces ++ [.lineEnd]) cs rest)
    (hrest : Visible rest) : Visible cs := by
  cases insts with
  | nil => exact h ▸ hrest
  | cons inst insts =>
    obtain ⟨mid, hline, -⟩ := chained_append.1 h
    exact (LineSpelled.of_written hline).follows.1

/-- All instructions are read, up to the first place at which there is none. -/
theorem many_instructionLine_of_lineEnds {insts : List Inst}
    (h : Written (insts.flatMap fun inst => inst.pieces ++ [.lineEnd]) cs rest)
    (hrest : Visible rest) (hnone : instruction rest = none) :
    instructionLine.many cs = (insts, rest) := by
  refine Reader.many_of_chained (F := Visible) (fun hline hmid => ?_) (fun hline => ?_)
    (chained_flatMap.1 h) hrest (instructionLine_eq_none hnone)
  · exact ⟨instructionLine_of_lineEnd hline hmid, (LineSpelled.of_written hline).length_lt⟩
  · exact (LineSpelled.of_written hline).follows.1

end Lines

section Blocks

theorem block_of_lineEnds {b : UInt32 × Block} (h : Written (blockPieces .lineEnd b) cs rest)
    (hrest : Visible rest) (hnone : instruction rest = none) : block cs = .ok (b, rest) := by
  obtain ⟨mid, hlabel, hlines⟩ := chained_append.1 h
  exact block_of_lines hlabel (visible_of_lineEnds hlines hrest)
    (many_instructionLine_of_lineEnds hlines hrest hnone)

theorem Misfit.toReader_block_eq (h : Misfit cs) : block.toReader cs = none :=
  Option.eq_none_iff_forall_ne_some.2 fun _ hb => h.block_ne _ _ (Rule.toReader_eq_some_iff.1 hb)

/-- All blocks are read, up to the first place at which there is neither an instruction nor a
block. -/
theorem many1_block_of_lineEnds {bs : List (UInt32 × Block)} (hbs : bs ≠ [])
    (h : Written (bs.flatMap (blockPieces .lineEnd)) cs rest) (hrest : Misfit rest) :
    Rule.many1 block cs = .ok (bs, rest) := by
  refine Rule.many1_of_chained (F := fun cs => Visible cs ∧ instruction cs = none)
    (fun hb hmid => ?_) (fun hb => ?_) hbs (chained_flatMap.1 h)
    ⟨hrest.visible, hrest.instruction_eq⟩ hrest.toReader_block_eq
  · exact ⟨block_of_lineEnds hb hmid.1 hmid.2, (BlockSpelled.of_written hb).length_lt⟩
  · exact (endsBlock_of_block (.of_written hb)).imp_left And.left

end Blocks

section Whole

/-- Reading that stops is reported at the number of bytes before. -/
theorem whole_eq_error {α : Type} (kind : UnitKind) {rule : Rule α} {front : List Char}
    (hvisible : Visible (front ++ rest)) (h : rule (front ++ rest) = .error rest) :
    whole kind rule (front ++ rest) = .error (.malformed kind (Text.byteLength front)) := by
  simp [whole, hvisible.skipBlanks, h]

theorem Misfit.literal_eq (h : Misfit cs) : Reader.literal "\x7d" cs = none := by
  refine Option.eq_none_iff_forall_ne_some.2 fun ⟨_, rest⟩ hbrace => h.ne_brace ?_
  rw [Reader.literal_eq_some_iff.1 hbrace]
  rfl

/-- What the blocks of a function leave is where its brace is missing. -/
theorem function_eq_error {w : FunctionText} (hne : w.blocks ≠ [])
    (h : Written
      ([.word "function", .blanks, .word "%", .functionName w.name, .blanks, .word "\x7b",
        .blanks] ++ w.blocks.flatMap (blockPieces .lineEnd)) cs rest)
    (hrest : Misfit rest) : function cs = .error rest := by
  obtain ⟨mid, hhead, hblocks⟩ := chained_append.1 h
  have hread := many1_block_of_lineEnds hne hblocks hrest
  have hmid : Visible mid := by
    obtain ⟨b, bs, hbs⟩ := List.exists_cons_of_ne_nil hne
    rw [hbs, List.flatMap_cons] at hblocks
    obtain ⟨later, hb, -⟩ := chained_append.1 hblocks
    exact (endsBlock_of_block (.of_written hb)).1.1
  rw [function_eq_of_head hhead hmid, Rule.bind_of_eq_ok hread]
  exact Rule.bind_of_eq_error (Rule.lift_eq_error hrest.literal_eq)

end Whole

end Grammar

namespace Function

variable {f : Function} {i j : Nat}

section UpTo

theorem upTo_of_lt (hi : i < f.blocks.length) :
    f.upTo i j = ⟨f.name, f.blocks.take i ++ [f.blocks[i].take j]⟩ := by
  rw [upTo, List.getElem?_eq_getElem hi, Option.getD_some]

theorem writable_upTo (hf : f.Writable) (hi : i < f.blocks.length) : (f.upTo i j).Writable := by
  rw [upTo_of_lt hi]
  refine ⟨hf.name, by simp, ?_, fun block hblock inst hinst => ?_⟩
  · have := hf.length_le
    simp only [List.length_append, List.length_take, List.length_singleton]
    omega
  · rcases List.mem_append.1 hblock with hblock | hblock
    · exact hf.insts block (List.mem_of_mem_take hblock) inst hinst
    · obtain rfl := List.mem_singleton.1 hblock
      exact hf.insts _ (List.getElem_mem hi) inst (List.mem_of_mem_take hinst)

/-- Further blocks are printed behind those before them. -/
theorem exists_openText_append (name : String) (front back : List Block) :
    ∃ later, openText ⟨name, front ++ back⟩ = openText ⟨name, front⟩ ++ later := by
  simp only [openText, List.zipIdx_append, List.map_append, String.join_append,
    ← String.append_assoc]
  exact ⟨_, rfl⟩

/-- Further instructions of the last block are printed behind those before them. -/
theorem exists_openText_append_insts (name : String) (blocks : List Block) (front back : Block) :
    ∃ later, openText ⟨name, blocks ++ [front ++ back]⟩ =
      openText ⟨name, blocks ++ [front]⟩ ++ later := by
  simp only [openText, blockText, List.zipIdx_append, List.zipIdx_singleton, List.map_append,
    List.map_singleton, String.join_append, String.join_cons, String.join_nil, String.append_empty,
    ← String.append_assoc]
  exact ⟨_, rfl⟩

/-- The lines up to a line are the beginning of the printed form. -/
theorem exists_toString_eq (hi : i < f.blocks.length) (j : Nat) :
    ∃ later, f.toString = (f.upTo i j).openText ++ later := by
  have hblocks : f.blocks = f.blocks.take i ++
      [f.blocks[i].take j ++ f.blocks[i].drop j] ++ f.blocks.drop (i + 1) := by
    rw [List.take_append_drop, List.take_concat_get', List.take_append_drop]
  obtain ⟨insts, hinsts⟩ := exists_openText_append_insts f.name (f.blocks.take i)
    (f.blocks[i].take j) (f.blocks[i].drop j)
  obtain ⟨blocks, hopen⟩ := exists_openText_append f.name
    (f.blocks.take i ++ [f.blocks[i].take j ++ f.blocks[i].drop j]) (f.blocks.drop (i + 1))
  refine ⟨insts ++ blocks ++ "\x7d", ?_⟩
  rw [← hblocks, hinsts, ← upTo_of_lt hi] at hopen
  rw [toString_eq_openText, hopen]
  simp only [String.append_assoc]

end UpTo

/-- A text that is the printed form of a function up to the end of a line, and goes on behind spaces
with something that fits nowhere, is refused where that begins. -/
theorem parse_upTo (hf : f.Writable) (hi : i < f.blocks.length) (j : Nat) {indent r : String}
    (hindent : ∀ c ∈ indent.toList, isSpace c) (hr : Misfit r.toList) :
    (∃ later, f.toString = (f.upTo i j).openText ++ later) ∧
      ∃ e, parse ((f.upTo i j).openText ++ indent ++ r) = .error e ∧
        e.message = "Failed to parse function" ∧
        e.position = ((f.upTo i j).openText ++ indent).utf8ByteSize := by
  have hupTo : (f.upTo i j).Writable := writable_upTo hf hi
  have hne : (f.upTo i j).written.blocks ≠ [] := by simpa [written] using hupTo.ne_nil
  have hwritten := (printed_openText hupTo ⟨_, hindent, rfl⟩ hr.visible.stops_space).written
  rw [← List.append_assoc, ← String.toList_append] at hwritten
  have hstop := whole_eq_error .function (Written.visible hwritten rfl)
    (function_eq_error hne hwritten hr)
  rw [← String.toList_append, Text.byteLength_toList] at hstop
  have herror : parse ((f.upTo i j).openText ++ indent ++ r) = .error
      (.malformed .function ((f.upTo i j).openText ++ indent).utf8ByteSize) := by
    rw [parse, hstop]
    rfl
  exact ⟨exists_toString_eq hi j, _, herror, rfl, rfl⟩

/-- A sign of equality behind a `return` of nothing. -/
theorem parse_upTo_sign :
    Misfit "= nop".toList ∧
      (∃ later, keywordSample.toString = (keywordSample.upTo 4 1).openText ++ later) ∧
        ∃ e, parse ((keywordSample.upTo 4 1).openText ++ " \t" ++ "= nop") = .error e ∧
          e.message = "Failed to parse function" ∧
          e.position = ((keywordSample.upTo 4 1).openText ++ " \t").utf8ByteSize := by
  have hmisfit : Misfit "= nop".toList :=
    { visible := ⟨'=', _, rfl, by decide⟩
      ne_brace := by decide
      instruction_eq := by decide +kernel
      block_ne := by
        intro b rest
        have hstop : block "= nop".toList = .error "= nop".toList := by decide +kernel
        rw [hstop]
        exact nofun }
  have hwritable : keywordSample.Writable :=
    ⟨by decide, by decide, by decide, by decide⟩
  exact ⟨hmisfit, parse_upTo hwritable (by decide) 1 (by simp [isSpace]) hmisfit⟩

end Function

end DefiniteAssignment
