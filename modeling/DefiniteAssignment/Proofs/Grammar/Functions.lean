import Mathlib.Control.Monad.Basic
import DefiniteAssignment.Proofs.Grammar.Instructions
import DefiniteAssignment.Proofs.Grammar.Printed
/-!
# Functions as read and as printed

Reading and printing meet in the spelling. `Function.parse_eq_ok_iff` says what is read: the texts
that spell a function are read as that function, and no other text is read as anything. A spelling
in which every instruction ends its line is one of these (`Function.parse_eq_ok_of_written`), and
the printed form is such a spelling (`written_functionText`). So reading back what is printed gives
the same function, for exactly those functions that reading can give at all
(`Function.parse_roundTrip`).

Instructions need not stand on lines of their own, which is why a spelling has to say where each of
them ends (`LineSpelled`). Without that, `return nop` would spell a return of a variable and also a
return with an instruction behind it. With it a text spells one function only
(`Function.spelledBy_of_parse`).

No block of a function is lost, because a block ends only where no instruction can be read, and then
it has to be followed by another label or by the brace (`EndsBlock`).
-/

namespace DefiniteAssignment

namespace Grammar

/-- The function a text of a function stands for, whatever its labels. -/
def FunctionText.function (w : FunctionText) : Function :=
  ⟨w.name, w.blocks.map (·.2)⟩

/-- The labels count up from zero. -/
def FunctionText.InSequence (w : FunctionText) : Prop :=
  ∀ number (h : number < w.blocks.length), w.blocks[number].1.toNat = number

end Grammar

open Grammar

/-- The function with the labels it is written with. -/
def Function.written (f : Function) : FunctionText :=
  ⟨f.name, f.blocks.zipIdx.map fun (block, number) => (UInt32.ofNat number, block)⟩

/-- The printed form of a function without the brace that closes it. -/
def Function.openText (f : Function) : String :=
  "function %" ++ f.name ++ " \x7b\n" ++
    String.join (f.blocks.zipIdx.map fun (block, number) => blockText number block)

/-- All that is missing from the open text is the closing brace. -/
theorem Function.toString_eq_openText (f : Function) : f.toString = f.openText ++ "\x7d" := rfl

namespace Grammar

variable {cs mid rest : List Char}

section Labels

/-- Counting up from zero is what the check looks for a block against. -/
theorem FunctionText.inSequence_iff {w : FunctionText} :
    w.InSequence ↔
      w.blocks.zipIdx.find? (fun (block, number) => block.1.toNat != number) = none := by
  rw [List.find?_eq_none]
  constructor
  · rintro h ⟨block, number⟩ hmem
    obtain ⟨hlt, rfl⟩ := List.getElem?_eq_some_iff.1 (List.mk_mem_zipIdx_iff_getElem?.1 hmem)
    simp [h number hlt]
  · intro h number hlt
    simpa using h _ (List.mk_mem_zipIdx_iff_getElem?.2 (List.getElem?_eq_getElem hlt))

/-- The check passes exactly the functions whose labels are in sequence, and drops the labels. -/
theorem FunctionText.check_eq_ok_iff {w : FunctionText} {f : Function} :
    w.check = .ok f ↔ w.InSequence ∧ w.function = f := by
  rw [inSequence_iff, check, function]
  cases w.blocks.zipIdx.find? fun (block, number) => block.1.toNat != number with
  | none => simp
  | some found => simp

/-- The labels that a function is printed with are in sequence, as long as they fit the type of
labels. -/
theorem inSequence_written {f : Function} (h : f.blocks.length ≤ UInt32.size) :
    f.written.InSequence := by
  intro number hlt
  have hlt' : number < f.blocks.length := by simpa [Function.written] using hlt
  simp [Function.written, UInt32.toNat_ofNat_of_lt' (Nat.lt_of_lt_of_le hlt' h)]

/-- Labels are all that printing adds to a function. -/
theorem function_written (f : Function) : f.written.function = f := by
  cases f with
  | mk name blocks =>
    simp only [Function.written, FunctionText.function, List.map_map, Function.mk.injEq, true_and]
    exact List.ext_getElem (by simp) (by simp)

end Labels

section Spelled

/-- An instruction with the blanks behind it: it is written up to where it ends. -/
def LineSpelled (inst : Inst) (cs rest : List Char) : Prop :=
  ∃ mid, Written inst.pieces cs mid ∧ inst.EndsAt mid ∧ Blank mid rest

/-- A block: its label, and every instruction up to where it ends. -/
def BlockSpelled (b : UInt32 × Block) (cs rest : List Char) : Prop :=
  ∃ mid, Written [.word "block", .number b.1.toNat, .gap, .word ":", .blanks] cs mid ∧
    Chained LineSpelled b.2 mid rest

/-- A function with the blanks behind it: what stands in front of its blocks, one or more blocks,
and the brace that closes it. -/
structure FunctionText.Spelled (w : FunctionText) (cs rest : List Char) : Prop where
  ne_nil : w.blocks ≠ []
  spelled : ∃ mid mid',
    Written [.word "function", .blanks, .word "%", .functionName w.name, .blanks, .word "\x7b",
      .blanks] cs mid ∧
    Chained BlockSpelled w.blocks mid mid' ∧ Written [.word "\x7d", .blanks] mid' rest

/-- An instruction ends where its line does. -/
theorem LineSpelled.of_written {inst : Inst} (h : Written (inst.pieces ++ [.lineEnd]) cs rest) :
    LineSpelled inst cs rest := by
  obtain ⟨mid, hinst, last, ⟨hend, hblank⟩, rfl⟩ := chained_append.1 h
  exact ⟨mid, hinst, .of_lineEnd inst hend, hblank⟩

/-- Forgetting where the instruction ends leaves a spelling of its pieces. -/
theorem LineSpelled.written {inst : Inst} (h : LineSpelled inst cs rest) :
    Written (inst.pieces ++ [.blanks]) cs rest := by
  obtain ⟨mid, hinst, -, hblank⟩ := h
  have hblanks : Written [.blanks] mid rest := ⟨rest, hblank, rfl⟩
  exact chained_append.2 ⟨mid, hinst, hblanks⟩

/-- A block spelled line by line is spelled with every instruction up to where it ends. -/
theorem BlockSpelled.of_written {b : UInt32 × Block}
    (h : Written (blockPieces .lineEnd b) cs rest) : BlockSpelled b cs rest := by
  obtain ⟨mid, hlabel, hlines⟩ := chained_append.1 h
  exact ⟨mid, hlabel, (chained_flatMap.1 hlines).imp fun _ _ _ _ => .of_written⟩

/-- Forgetting where its instructions end leaves a spelling of the pieces of a block. -/
theorem BlockSpelled.written {b : UInt32 × Block} (h : BlockSpelled b cs rest) :
    Written (blockPieces .blanks b) cs rest := by
  obtain ⟨mid, hlabel, hlines⟩ := h
  have hinsts : Written (b.2.flatMap fun inst => inst.pieces ++ [.blanks]) mid rest :=
    chained_flatMap.2 (hlines.imp fun _ _ _ _ => LineSpelled.written)
  exact chained_append.2 ⟨mid, hlabel, hinsts⟩

/-- A function spelled line by line is spelled, if it has a block at all. -/
theorem FunctionText.Spelled.of_written {w : FunctionText} (hne : w.blocks ≠ [])
    (h : Written (w.pieces .lineEnd) cs rest) : w.Spelled cs rest := by
  obtain ⟨mid', hfront, hclose⟩ := chained_append.1 h
  obtain ⟨mid, hhead, hblocks⟩ := chained_append.1 hfront
  have hspelled : Chained BlockSpelled w.blocks mid mid' :=
    (chained_flatMap.1 hblocks).imp fun _ _ _ _ => .of_written
  exact ⟨hne, mid, mid', hhead, hspelled, hclose⟩

/-- Forgetting where its instructions end leaves a spelling of the pieces of a function. -/
theorem FunctionText.Spelled.written {w : FunctionText} (h : w.Spelled cs rest) :
    Written (w.pieces .blanks) cs rest := by
  obtain ⟨mid, mid', hhead, hblocks, hclose⟩ := h.spelled
  have hwritten : Written (w.blocks.flatMap (blockPieces .blanks)) mid mid' :=
    chained_flatMap.2 (hblocks.imp fun _ _ _ _ => BlockSpelled.written)
  have hfront := chained_append.2 ⟨mid, hhead, hwritten⟩
  exact chained_append.2 ⟨mid', hfront, hclose⟩

/-- A function begins with its keyword, so with something visible. -/
theorem FunctionText.Spelled.visible {w : FunctionText} (h : w.Spelled cs rest) : Visible cs :=
  Written.visible h.written (by decide)

end Spelled

section Lines

/-- What may come behind an instruction and the blanks that follow it: something visible that is no
sign of equality. -/
def Follows (cs : List Char) : Prop :=
  Visible cs ∧ NoSign cs

/-- One instruction may follow another. -/
theorem follows_of_instruction {inst : Inst} (h : Written inst.pieces cs rest) : Follows cs := by
  obtain ⟨name, ps, mid, hname, -⟩ := instruction_start h
  exact ⟨hname.visible rfl, .of_operand (o := .var name) hname⟩

theorem LineSpelled.follows {inst : Inst} (h : LineSpelled inst cs rest) : Follows cs := by
  obtain ⟨mid, hinst, -⟩ := h
  exact follows_of_instruction hinst

/-- A line takes at least a character, so repeating it comes to an end. -/
theorem LineSpelled.length_lt {inst : Inst} (h : LineSpelled inst cs rest) :
    rest.length < cs.length := by
  obtain ⟨mid, hinst, -, hblank⟩ := h
  obtain ⟨name, ps, hwritten⟩ := instruction_start hinst
  have hlt := Written.length_lt hwritten rfl
  have hle := hblank.suffix.length_le
  omega

/-- What is read as an instruction with its blanks spells one, and no blank is left behind it. -/
theorem instructionLine_sound {inst : Inst} (h : instructionLine cs = some (inst, rest)) :
    LineSpelled inst cs rest ∧ skipBlanks rest = rest := by
  simp only [instructionLine, Reader.bind_eq_some_iff, Reader.pure_apply] at h
  obtain ⟨inst', mid, hinst, u, mid', hblanks, ⟨⟩⟩ := h
  obtain rfl : skipBlanks mid = rest := congrArg Prod.snd (Option.some.inj hblanks)
  obtain ⟨hwritten, hends⟩ := instruction_sound hinst
  exact ⟨⟨mid, hwritten, hends, blank_skipBlanks mid⟩, skipBlanks_skipBlanks mid⟩

/-- An instruction is read up to where it ends, and the blanks behind it up to what is visible. -/
theorem instructionLine_of_written {inst : Inst} (hinst : Written inst.pieces cs mid)
    (hends : inst.EndsAt mid) (hsign : NoSign mid) (hblank : Blank mid rest)
    (hrest : Visible rest) : instructionLine cs = some (inst, rest) := by
  have hblanks : blanks mid = some ((), rest) :=
    blanks_eq_some_iff.2 (Blank.skipBlanks_of_visible hblank hrest)
  rw [instructionLine, Reader.bind_of_eq_some (instruction_complete hinst hends hsign),
    Reader.bind_of_eq_some hblanks, Reader.pure_apply]

/-- An instruction is read wherever it is spelled, if what comes next may follow one. -/
theorem instructionLine_complete {inst : Inst} (h : LineSpelled inst cs rest)
    (hrest : Follows rest) : instructionLine cs = some (inst, rest) := by
  obtain ⟨mid, hinst, hends, hblank⟩ := h
  exact instructionLine_of_written hinst hends (.of_blank hblank hrest.2) hblank hrest.1

/-- The blanks behind an instruction never make up for a missing one. -/
theorem instructionLine_eq_none (h : instruction cs = none) : instructionLine cs = none :=
  Reader.bind_of_eq_none h

/-- What ends the instructions of a block: something that may follow an instruction and is none. -/
def EndsBlock (cs : List Char) : Prop :=
  Follows cs ∧ instruction cs = none

/-- What is read as the instructions of a block spells them one after the other. -/
theorem many_instructionLine_sound (hcs : skipBlanks cs = cs) :
    Chained LineSpelled (instructionLine.many cs).1 cs (instructionLine.many cs).2 ∧
      skipBlanks (instructionLine.many cs).2 = (instructionLine.many cs).2 :=
  Reader.chained_of_many (I := fun cs => skipBlanks cs = cs)
    (fun _ hline => instructionLine_sound hline) hcs

/-- What may follow an instruction may also begin with further ones. -/
theorem follows_of_lines {insts : List Inst} (h : Chained LineSpelled insts cs rest)
    (hrest : Follows rest) : Follows cs := by
  cases insts with
  | nil => exact h ▸ hrest
  | cons inst insts =>
    obtain ⟨mid, hline, -⟩ := h
    exact hline.follows

/-- The instructions of a block are all read, up to what ends the block. -/
theorem many_instructionLine_complete {insts : List Inst} (h : Chained LineSpelled insts cs rest)
    (hrest : EndsBlock rest) : instructionLine.many cs = (insts, rest) :=
  Reader.many_of_chained (F := Follows)
    (fun hline hmid => ⟨instructionLine_complete hline hmid, hline.length_lt⟩)
    LineSpelled.follows h hrest.1 (instructionLine_eq_none hrest.2)

end Lines

section Blocks

/-- A block is read where blanks have been skipped, and leaves off where they have been again. -/
theorem block_sound {b : UInt32 × Block} (hcs : skipBlanks cs = cs)
    (h : block cs = .ok (b, rest)) : BlockSpelled b cs rest ∧ skipBlanks rest = rest := by
  simp only [block, Rule.bind_eq_ok_iff, Rule.lift_eq_ok_iff, blanks_eq_some_iff,
    spaces_eq_some_iff, Reader.literal_eq_some_iff, index_eq_some_iff, Rule.ofFunction_apply,
    Rule.pure_apply, hcs] at h
  obtain ⟨-, _, rfl, -, mid₁, hword, label, mid₂, ⟨hlabel, -⟩, -, mid₃, ⟨hgap, -⟩, -, mid₄, hcolon,
    -, _, rfl, insts, mid₅, hinsts, ⟨⟩⟩ := h
  obtain ⟨rfl, rfl⟩ := Prod.mk.inj (Except.ok.inj hinsts).symm
  obtain ⟨hlines, hrest⟩ := many_instructionLine_sound (skipBlanks_skipBlanks mid₄)
  have hblanks : Written [.blanks] mid₄ (skipBlanks mid₄) := ⟨_, blank_skipBlanks mid₄, rfl⟩
  have hfront : Written [.word "block", .number label.toNat, .gap, .word ":", .blanks] cs
      (skipBlanks mid₄) :=
    ⟨mid₁, hword, mid₂, hlabel, mid₃, hgap, mid₄, hcolon, hblanks⟩
  exact ⟨⟨_, hfront, hlines⟩, hrest⟩

/-- A visible character that is no sign of equality may follow an instruction. -/
theorem follows_cons {c : Char} (hblank : isBlank c = false) (hspace : isSpace c = false)
    (hsign : c ≠ ';' ∧ c ≠ '=') : Follows (c :: cs) := by
  have hvisible : Visible (c :: cs) := ⟨c, cs, rfl, hblank, hsign.1⟩
  have hnoSign : NoSign (c :: cs) := ⟨c, cs, gap_nil _, hspace, hsign.2⟩
  exact ⟨hvisible, hnoSign⟩

/-- A label ends the instructions of the block before it. -/
theorem endsBlock_of_block {b : UInt32 × Block} (h : BlockSpelled b cs rest) : EndsBlock cs := by
  obtain ⟨mid, ⟨mid₁, hword, mid₂, hlabel, mid₃, hgap, mid₄, hcolon, -⟩, -⟩ := h
  have hnone : instruction cs = none :=
    instruction_eq_none_of_label ⟨mid₁, hword, mid₂, hlabel, mid₃, hgap, mid₄, hcolon, rfl⟩
  obtain rfl : cs = 'b' :: ("lock".toList ++ mid₁) := hword
  exact ⟨follows_cons rfl rfl (by decide), hnone⟩

/-- So does the brace that closes a function. -/
theorem endsBlock_of_brace : EndsBlock ('\x7d' :: cs) :=
  ⟨follows_cons rfl rfl (by decide), instruction_eq_none_of_brace⟩

/-- Further blocks end the one before them, and so does what comes behind the last one. -/
theorem endsBlock_of_blocks {bs : List (UInt32 × Block)} (h : Chained BlockSpelled bs cs rest)
    (hrest : EndsBlock rest) : EndsBlock cs := by
  cases bs with
  | nil => exact h ▸ hrest
  | cons b bs =>
    obtain ⟨mid, hb, -⟩ := h
    exact endsBlock_of_block hb

theorem BlockSpelled.suffix {b : UInt32 × Block} (h : BlockSpelled b cs rest) : rest <:+ cs :=
  Written.suffix h.written

/-- What a row of blocks leaves is a rest of the text. -/
theorem suffix_of_blocks {bs : List (UInt32 × Block)} (h : Chained BlockSpelled bs cs rest) :
    rest <:+ cs :=
  h.suffix fun _ _ _ _ => BlockSpelled.suffix

/-- A block takes at least a character, so repeating it comes to an end. -/
theorem BlockSpelled.length_lt {b : UInt32 × Block} (h : BlockSpelled b cs rest) :
    rest.length < cs.length :=
  Written.length_lt h.written (by decide)

/-- A block is its label and as many instructions as can be read behind it. -/
theorem block_of_lines {b : UInt32 × Block}
    (hlabel : Written [.word "block", .number b.1.toNat, .gap, .word ":", .blanks] cs mid)
    (hmid : Visible mid) (hlines : instructionLine.many mid = (b.2, rest)) :
    block cs = .ok (b, rest) := by
  have hblanks : blanks cs = some ((), cs) :=
    blanks_eq_some_iff.2 (Written.visible hlabel rfl).skipBlanks
  obtain ⟨mid₁, hword, mid₂, hnumber, mid₃, hgap, mid₄, hcolon, mid₅, hblank, rfl⟩ := hlabel
  have hkeyword : Reader.literal "block" cs = some ((), mid₁) :=
    Reader.literal_eq_some_iff.2 hword
  have hindex : index mid₁ = some (b.1, mid₂) := by
    have hends : WordEnds mid₂ := .of_gap hgap (hcolon ▸ stops_cons.2 rfl)
    exact index_eq_some_iff.2 ⟨hnumber, hends.digit⟩
  have hspaces : spaces mid₂ = some ((), mid₃) :=
    spaces_eq_some_iff.2 ⟨hgap, hcolon ▸ stops_cons.2 rfl⟩
  have hsign : Reader.literal ":" mid₃ = some ((), mid₄) := Reader.literal_eq_some_iff.2 hcolon
  have hblanks' : blanks mid₄ = some ((), mid₅) :=
    blanks_eq_some_iff.2 (Blank.skipBlanks_of_visible hblank hmid)
  have hinsts : Rule.ofFunction instructionLine.many mid₅ = .ok (b.2, rest) :=
    congrArg Except.ok hlines
  rw [block, Rule.bind_of_eq_some hblanks, Rule.bind_of_eq_some hkeyword,
    Rule.bind_of_eq_some hindex, Rule.bind_of_eq_some hspaces, Rule.bind_of_eq_some hsign,
    Rule.bind_of_eq_some hblanks', Rule.bind_of_eq_ok hinsts, Rule.pure_apply]

/-- A block is read wherever it is spelled, if what comes next ends it. -/
theorem block_complete {b : UInt32 × Block} (h : BlockSpelled b cs rest)
    (hrest : EndsBlock rest) : block cs = .ok (b, rest) := by
  obtain ⟨mid, hlabel, hlines⟩ := h
  exact block_of_lines hlabel (follows_of_lines hlines hrest.1).1
    (many_instructionLine_complete hlines hrest)

/-- The closing brace is no label, so it ends the row of blocks. -/
theorem toReader_block_of_brace : block.toReader ('\x7d' :: cs) = none := by
  refine Option.eq_none_iff_forall_ne_some.2 fun result hresult => ?_
  have hvisible : Visible ('\x7d' :: cs) := endsBlock_of_brace.1.1
  obtain ⟨⟨_, ⟨mid, hword, -⟩, -⟩, -⟩ :=
    block_sound hvisible.skipBlanks (Rule.toReader_eq_some_iff.1 hresult)
  cases (List.cons.inj hword).1

/-- All blocks of a function are read, up to the brace that closes it. -/
theorem many1_block_complete {bs : List (UInt32 × Block)} (hbs : bs ≠ [])
    (h : Chained BlockSpelled bs cs ('\x7d' :: rest)) :
    Rule.many1 block cs = .ok (bs, '\x7d' :: rest) :=
  Rule.many1_of_chained (F := EndsBlock) (fun hb hmid => ⟨block_complete hb hmid, hb.length_lt⟩)
    endsBlock_of_block hbs h endsBlock_of_brace toReader_block_of_brace

/-- What is read as the blocks of a function spells one or more of them. -/
theorem many1_block_sound {bs : List (UInt32 × Block)} (hcs : skipBlanks cs = cs)
    (h : Rule.many1 block cs = .ok (bs, rest)) :
    bs ≠ [] ∧ Chained BlockSpelled bs cs rest := by
  obtain ⟨first, mid, hfirst, rfl, rfl⟩ := Rule.many1_eq_ok_iff.1 h
  obtain ⟨hspelled, hmid⟩ := block_sound hcs hfirst
  obtain ⟨hlater, -⟩ : Chained BlockSpelled
      (block.toReader.many mid).1 mid (block.toReader.many mid).2 ∧ _ :=
    Reader.chained_of_many (I := fun cs => skipBlanks cs = cs)
      (fun hcs hb => block_sound hcs (Rule.toReader_eq_some_iff.1 hb)) hmid
  exact ⟨List.cons_ne_nil _ _, mid, hspelled, hlater⟩

end Blocks

section Text

variable {last : List Char}

/-- The lines of a block as they are printed behind a line break. Each of them is indented, so what
is written at its front begins where the indentation ends. -/
theorem exists_printed_lines {insts : List Inst} (h : ∀ inst ∈ insts, inst.isWritable)
    (hgap : Gap last rest) (hrest : Stops isSpace rest) :
    ∃ mid,
      NewLine ('\n' :: ((String.join
        (insts.map fun inst => "    " ++ inst.toString ++ "\n")).toList ++ last)) mid ∧
      Printed (insts.flatMap fun inst => inst.pieces ++ [.lineEnd]) mid rest := by
  induction insts with
  | nil => exact ⟨rest, ⟨last, rfl, hgap, hrest⟩, rfl⟩
  | cons inst insts ih =>
    obtain ⟨hinst, hinsts⟩ := List.forall_mem_cons.1 h
    obtain ⟨mid, hline, hlater⟩ := ih hinsts
    have hprinted := Inst.printed_toString hinst ('\n' ::
      ((String.join (insts.map fun inst => "    " ++ inst.toString ++ "\n")).toList ++ last))
    have hindent : ∀ c ∈ "    ".toList, isSpace c := by simp [isSpace]
    simp only [List.map_cons, String.join_cons, String.toList_append, List.append_assoc]
    refine ⟨_, ⟨_, rfl, ⟨_, hindent, rfl⟩, ?_⟩, ?_⟩
    · exact (follows_of_instruction hprinted.written).1.stops_space
    · rw [List.flatMap_cons]
      have hend : Printed [.lineEnd] _ mid := ⟨mid, hline, rfl⟩
      have hfirst := chained_append.2 ⟨_, hprinted, hend⟩
      exact chained_append.2 ⟨mid, hfirst, hlater⟩

/-- A block is printed as its pieces. The end of its last line takes the spaces behind it. -/
theorem printed_blockText {number : Nat} {block : Block} (hnumber : number < UInt32.size)
    (h : ∀ inst ∈ block, inst.isWritable) (hgap : Gap last rest) (hrest : Stops isSpace rest) :
    Printed (blockPieces .lineEnd (UInt32.ofNat number, block))
      ((Function.blockText number block).toList ++ last) rest := by
  obtain ⟨mid, hline, hlines⟩ := exists_printed_lines h hgap hrest
  have hlabel : (UInt32.ofNat number).toNat = number := UInt32.toNat_ofNat_of_lt' hnumber
  simp only [blockPieces, hlabel, Function.blockText, String.toList_append, List.append_assoc]
  have hbreak : Printed (.blanks :: block.flatMap fun inst => inst.pieces ++ [.lineEnd]) _ rest :=
    ⟨mid, .inr (.inr hline), hlines⟩
  have hcolon : Printed ([.gap, .word ":"] ++ .blanks ::
      block.flatMap fun inst => inst.pieces ++ [.lineEnd]) _ rest := ⟨_, .inl rfl, _, rfl, hbreak⟩
  exact ⟨_, rfl, _, number_toString number _, hcolon⟩

/-- No space stands in front of a label. -/
theorem stops_blockText (number : Nat) (block : Block) (rest : List Char) :
    Stops isSpace ((Function.blockText number block).toList ++ rest) := by
  simp only [Function.blockText, String.toList_append, List.append_assoc]
  exact stops_cons.2 rfl

/-- The blocks of a function as they are printed behind a line break. -/
theorem exists_printed_blocks {blocks : List (Block × Nat)}
    (h : ∀ b ∈ blocks, b.2 < UInt32.size ∧ ∀ inst ∈ b.1, inst.isWritable)
    (hgap : Gap last rest) (hrest : Stops isSpace rest) :
    ∃ mid,
      NewLine ('\n' :: ((String.join
        (blocks.map fun (block, number) => Function.blockText number block)).toList ++ last)) mid ∧
      Printed
        ((blocks.map fun (block, number) => (UInt32.ofNat number, block)).flatMap
          (blockPieces .lineEnd)) mid rest := by
  induction blocks with
  | nil => exact ⟨rest, ⟨last, rfl, hgap, hrest⟩, rfl⟩
  | cons b blocks ih =>
    obtain ⟨⟨hnumber, hinsts⟩, hblocks⟩ := List.forall_mem_cons.1 h
    obtain ⟨mid, ⟨later, hcons, hlater, hmid⟩, hprinted⟩ := ih hblocks
    obtain rfl := (List.cons.inj hcons).2
    simp only [List.map_cons, String.join_cons, String.toList_append, List.append_assoc,
      List.flatMap_cons]
    have hblock := printed_blockText hnumber hinsts hlater hmid
    refine ⟨_, ⟨_, rfl, gap_nil _, stops_blockText _ _ _⟩, ?_⟩
    exact chained_append.2 ⟨mid, hblock, hprinted⟩

/-- What is printed of a function in front of its brace. -/
theorem printed_openText {f : Function} (h : f.Writable) (hgap : Gap last rest)
    (hrest : Stops isSpace rest) :
    Printed
      ([.word "function", .blanks, .word "%", .functionName f.name, .blanks, .word "\x7b",
        .blanks] ++ f.written.blocks.flatMap (blockPieces .lineEnd))
      (f.openText.toList ++ last) rest := by
  have hblocks : ∀ b ∈ f.blocks.zipIdx, b.2 < UInt32.size ∧ ∀ inst ∈ b.1, inst.isWritable := by
    rintro ⟨block, number⟩ hmem
    obtain ⟨hlt, hblock⟩ := List.getElem?_eq_some_iff.1 (List.mk_mem_zipIdx_iff_getElem?.1 hmem)
    exact ⟨Nat.lt_of_lt_of_le hlt h.length_le, h.insts block (hblock ▸ List.getElem_mem hlt)⟩
  obtain ⟨mid, hline, hprinted⟩ := exists_printed_blocks hblocks hgap hrest
  simp only [Function.openText, String.toList_append, List.append_assoc]
  -- The name is printed between two spaces, and the line breaks off behind the brace.
  have hopen : Printed ([.word "\x7b", .blanks] ++ f.written.blocks.flatMap (blockPieces .lineEnd))
      _ rest := ⟨_, rfl, mid, .inr (.inr hline), hprinted⟩
  have hname : Printed ([.functionName f.name, .blanks, .word "\x7b", .blanks] ++
      f.written.blocks.flatMap (blockPieces .lineEnd)) _ rest :=
    ⟨_, ⟨h.name, rfl⟩, _, .inr (.inl rfl), hopen⟩
  exact ⟨_, rfl, _, .inr (.inl rfl), _, rfl, hname⟩

/-- A function is printed as its pieces, without blanks behind it. -/
theorem printed_functionText {f : Function} (h : f.Writable) (rest : List Char) :
    Printed (f.written.pieces .lineEnd) (f.toString.toList ++ rest) rest := by
  rw [Function.toString_eq_openText, String.toList_append, List.append_assoc]
  have hfront := printed_openText h (gap_nil ('\x7d' :: rest)) (stops_cons.2 rfl)
  have hclose : Printed [.word "\x7d", .blanks] ('\x7d' :: rest) rest :=
    ⟨rest, rfl, rest, .inl rfl, rfl⟩
  exact chained_append.2 ⟨'\x7d' :: rest, hfront, hclose⟩

/-- Further blanks behind a function are blanks behind it. -/
theorem FunctionText.written_of_blank {w : FunctionText} {ending : Piece}
    (h : Written (w.pieces ending) cs mid) (hblank : Blank mid rest) :
    Written (w.pieces ending) cs rest := by
  obtain ⟨mid₁, hfront, mid₂, hclose, _, hblank', rfl⟩ := chained_append.1 h
  have hend : Written [.word "\x7d", .blanks] mid₁ rest :=
    ⟨mid₂, hclose, rest, hblank'.trans hblank, rfl⟩
  exact chained_append.2 ⟨mid₁, hfront, hend⟩

/-- The printed form of a function is a spelling of it, with any blanks behind it. -/
theorem written_functionText {f : Function} (h : f.Writable) (hblank : Blank cs rest) :
    Written (f.written.pieces .lineEnd) (f.toString.toList ++ cs) rest :=
  FunctionText.written_of_blank (printed_functionText h cs).written hblank

end Text

section Whole

/-- What is read as a function spells it, and no blank is left behind it. -/
theorem function_sound {w : FunctionText} (h : function cs = .ok (w, rest)) :
    w.Spelled cs rest ∧ skipBlanks rest = rest := by
  simp only [function, Rule.bind_eq_ok_iff, Rule.lift_eq_ok_iff, blanks_eq_some_iff,
    Reader.literal_eq_some_iff, bareFunctionName_eq_some_iff, Rule.pure_apply] at h
  obtain ⟨-, mid₁, hword, -, _, rfl, -, mid₂, hmark, name, mid₃, ⟨hname, -⟩, -, _, rfl, -, mid₄,
    hopen, -, _, rfl, blocks, mid₅, hblocks, -, mid₆, hclose, -, _, rfl, ⟨⟩⟩ := h
  obtain ⟨hne, hspelled⟩ := many1_block_sound (skipBlanks_skipBlanks mid₄) hblocks
  have hbrace : Written [.word "\x7b", .blanks] (skipBlanks mid₃) (skipBlanks mid₄) :=
    ⟨mid₄, hopen, _, blank_skipBlanks mid₄, rfl⟩
  have hnamed : Written [.word "%", .functionName name, .blanks, .word "\x7b", .blanks]
      (skipBlanks mid₁) (skipBlanks mid₄) :=
    ⟨mid₂, hmark, mid₃, hname, _, blank_skipBlanks mid₃, hbrace⟩
  have hend : Written [.word "\x7d", .blanks] mid₅ (skipBlanks mid₆) :=
    ⟨mid₆, hclose, _, blank_skipBlanks mid₆, rfl⟩
  refine ⟨⟨hne, _, mid₅, ?_, hspelled, hend⟩, skipBlanks_skipBlanks mid₆⟩
  exact ⟨mid₁, hword, _, blank_skipBlanks mid₁, hnamed⟩

/-- What stands in front of the blocks of a function is read up to the first of them. -/
theorem function_eq_of_head {name : String}
    (h : Written [.word "function", .blanks, .word "%", .functionName name, .blanks, .word "\x7b",
      .blanks] cs mid) (hmid : Visible mid) :
    function cs = (do
      let blocks ← Rule.many1 block
      Reader.literal "\x7d"
      blanks
      return ⟨name, blocks⟩ : Rule FunctionText) mid := by
  obtain ⟨mid₁, hword, mid₂, hblank₁, mid₃, hmark, mid₄, hname, mid₅, hblank₂, mid₆, hopen, mid₇,
    hblank₃, rfl⟩ := h
  have hmid₂ : skipBlanks mid₁ = mid₂ :=
    Blank.skipBlanks_of_visible hblank₁ (hmark.visible rfl)
  have hmid₅ : skipBlanks mid₄ = mid₅ :=
    Blank.skipBlanks_of_visible hblank₂ (hopen.visible rfl)
  have hmid₇ : skipBlanks mid₆ = mid₇ := Blank.skipBlanks_of_visible hblank₃ hmid
  have hends : WordEnds mid₄ := .of_blank hblank₂ (hopen ▸ stops_cons.2 rfl)
  have hkeyword : Reader.literal "function" cs = some ((), mid₁) :=
    Reader.literal_eq_some_iff.2 hword
  have hsign : Reader.literal "%" mid₂ = some ((), mid₃) := Reader.literal_eq_some_iff.2 hmark
  have hread : bareFunctionName mid₃ = some (name, mid₄) :=
    bareFunctionName_eq_some_iff.2 ⟨hname, hends.functionName⟩
  have hbrace : Reader.literal "\x7b" mid₅ = some ((), mid₆) := Reader.literal_eq_some_iff.2 hopen
  rw [function, Rule.bind_of_eq_some hkeyword, Rule.bind_of_eq_some (blanks_of_eq hmid₂),
    Rule.bind_of_eq_some hsign, Rule.bind_of_eq_some hread,
    Rule.bind_of_eq_some (blanks_of_eq hmid₅), Rule.bind_of_eq_some hbrace,
    Rule.bind_of_eq_some (blanks_of_eq hmid₇)]

/-- A function is read wherever it is spelled, if all blanks behind it belong to it. -/
theorem function_complete {w : FunctionText} (h : w.Spelled cs rest)
    (hrest : skipBlanks rest = rest) : function cs = .ok (w, rest) := by
  obtain ⟨mid, mid', hhead, hblocks, mid'', hclose, last, hblank, rfl⟩ := h.spelled
  obtain rfl : mid' = '\x7d' :: mid'' := hclose
  have hlast : skipBlanks mid'' = last := (Blank.skipBlanks_eq hblank).trans hrest
  have hread := many1_block_complete h.ne_nil hblocks
  have hbrace : Reader.literal "\x7d" ('\x7d' :: mid'') = some ((), mid'') :=
    Reader.literal_eq_some_iff.2 rfl
  rw [function_eq_of_head hhead (endsBlock_of_blocks hblocks endsBlock_of_brace).1.1,
    Rule.bind_of_eq_ok hread, Rule.bind_of_eq_some hbrace,
    Rule.bind_of_eq_some (blanks_of_eq hlast), Rule.pure_apply]

/-- What is written as a function with its labels in sequence is a function that can be written. -/
theorem writable_of_written {w : FunctionText} {ending : Piece} (hlabels : w.InSequence)
    (hne : w.blocks ≠ []) (h : Written (w.pieces ending) cs rest) : w.function.Writable where
  name := Written.isSpellable h (.functionName w.name) (by simp [FunctionText.pieces])
  ne_nil := by simpa [FunctionText.function] using hne
  length_le := by
    -- Behind `2 ^ 32` blocks there is no label left.
    rw [FunctionText.function, List.length_map]
    refine Nat.le_of_not_lt fun hlt => ?_
    exact Nat.ne_of_lt w.blocks[UInt32.size].1.toNat_lt_size (hlabels UInt32.size hlt)
  insts := by
    intro block hblock inst hinst
    obtain ⟨b, hb, rfl⟩ := List.mem_map.1 hblock
    rw [Inst.isWritable_eq, List.all_eq_true]
    intro p hp
    refine Written.isSpellable h p ?_
    have hpiece : p ∈ b.2.flatMap fun inst => inst.pieces ++ [ending] :=
      List.mem_flatMap.2 ⟨inst, hinst, List.mem_append_left _ hp⟩
    have hbPiece : p ∈ blockPieces ending b := List.mem_append_right _ hpiece
    simp only [FunctionText.pieces, List.mem_append, List.mem_flatMap]
    exact .inl (.inr ⟨b, hb, hbPiece⟩)

end Whole

end Grammar

namespace Function

/-- A text spells a function: it is the function with its blocks labelled in sequence, and nothing
but blanks in front of it and behind it. -/
def SpelledBy (f : Function) (text : String) : Prop :=
  ∃ w : FunctionText, w.InSequence ∧ w.function = f ∧
    ∃ mid, Blank text.toList mid ∧ w.Spelled mid []

/-- A text is read as the function it spells, and no other text is read. -/
theorem parse_eq_ok_iff {text : String} {f : Function} : parse text = .ok f ↔ f.SpelledBy text := by
  rw [parse, except_bind_eq_ok_iff]
  simp only [whole_eq_ok_iff, FunctionText.check_eq_ok_iff]
  constructor
  · rintro ⟨w, hread, hlabels, hf⟩
    exact ⟨w, hlabels, hf, _, blank_skipBlanks _, (function_sound hread).1⟩
  · rintro ⟨w, hlabels, hf, mid, hblank, hspelled⟩
    refine ⟨w, ?_, hlabels, hf⟩
    rw [Blank.skipBlanks_of_visible hblank hspelled.visible]
    exact function_complete hspelled (by simp [skipBlanks])

/-- A text is read as the function it is a spelling of, line by line. -/
theorem parse_eq_ok_of_written {f : Function} (h : f.Writable) {text : String}
    (htext : Written (.blanks :: f.written.pieces .lineEnd) text.toList []) :
    parse text = .ok f := by
  obtain ⟨mid, hblank, hfunction⟩ := htext
  have hne : f.written.blocks ≠ [] := by simpa [written] using h.ne_nil
  exact parse_eq_ok_iff.2 ⟨f.written, inSequence_written h.length_le, function_written f, mid,
    hblank, .of_written hne hfunction⟩

/-- Only functions that can be written are read. -/
theorem writable_of_parse {text : String} {f : Function} (h : parse text = .ok f) : f.Writable := by
  obtain ⟨w, hlabels, rfl, mid, -, hspelled⟩ := parse_eq_ok_iff.1 h
  exact writable_of_written hlabels hspelled.ne_nil hspelled.written

/-- The printed form of a function that can be written is read back as that function. -/
theorem parse_toString {f : Function} (h : f.Writable) : parse f.toString = .ok f := by
  have htext := written_functionText h (.nothing [])
  rw [List.append_nil] at htext
  exact parse_eq_ok_of_written h ⟨_, .nothing _, htext⟩

/-- The functions whose printed form is read back are those whose names are names and whose blocks
can be numbered; no other function is ever the result of reading a text. -/
theorem parse_roundTrip :
    (∀ f : Function, parse f.toString = .ok f ↔ f.Writable) ∧
      ∀ (text : String) (f : Function), parse text = .ok f →
        f.Writable ∧ parse f.toString = .ok f := by
  refine ⟨fun f => ⟨writable_of_parse, parse_toString⟩, fun text f h => ?_⟩
  exact ⟨writable_of_parse h, parse_toString (writable_of_parse h)⟩

/-- A function whose names are all words of the grammar. -/
def keywordSample : Function :=
  ⟨"function",
    [[.const "return" (-5), .copy "block1" (.var "return"), .param "jump" 0,
      .binary .add "const" (.var "block1") (.var "jump"),
      .call (some "call") "block0" [.var "copy", .imm 7], .load "load" "store", .nop,
      .brif (.var "const") 1 9],
    [],
    [.store "nop" (.var "return"), .call none "entry" [], .jump 2],
    [.ret (some (.var "nop"))],
    [.ret none]]⟩

theorem parse_roundTrip_keywords :
    parse keywordSample.toString = .ok keywordSample ∧ keywordSample.Writable ∧
      parse keywordSample.toString = .ok keywordSample := by
  have hwritable : keywordSample.Writable :=
    ⟨by decide, by decide, by decide, by decide⟩
  have hread := (parse_roundTrip.1 keywordSample).2 hwritable
  exact ⟨hread, parse_roundTrip.2 keywordSample.toString keywordSample hread⟩

example : keywordSample.toString =
    "function %function \x7b\n" ++
    "block0:\n    return = const -5\n    block1 = copy return\n    jump = param 0\n" ++
    "    const = add block1, jump\n    call = call %block0(copy, 7)\n    load = load @store\n" ++
    "    nop\n    brif const, block1, block9\n" ++
    "block1:\n" ++
    "block2:\n    store @nop, return\n    call %entry()\n    jump block2\n" ++
    "block3:\n    return nop\n" ++
    "block4:\n    return\n\x7d" := by decide +kernel

/-- What is read as a function spells it, up to the last character, and spells no other function. -/
theorem spelledBy_of_parse {text : String} {f : Function} (h : parse text = .ok f) :
    f.SpelledBy text ∧ ∀ g : Function, g.SpelledBy text → g = f := by
  refine ⟨parse_eq_ok_iff.1 h, fun g hg => ?_⟩
  exact Except.ok.inj ((parse_eq_ok_iff.2 hg).symm.trans h)

/-- Instructions one behind the other, the second of them named by the return in front of it. -/
def crowdedSample : Function :=
  ⟨"f", [[.ret (some (.var "nop")), .const "y" 1, .copy "x" (.var "y")]]⟩

def crowdedText : String :=
  "function%f\x7bblock0:return nop y=const 1x=copy y\x7d"

theorem spelledBy_of_parse_crowded :
    parse crowdedText = .ok crowdedSample ∧ crowdedSample.SpelledBy crowdedText ∧
      ∀ g : Function, g.SpelledBy crowdedText → g = crowdedSample := by
  have hread : parse crowdedText = .ok crowdedSample := by decide +kernel
  exact ⟨hread, spelledBy_of_parse hread⟩

end Function

end DefiniteAssignment
