import DefiniteAssignment.Proofs.Grammar.Tokens
/-!
# Instructions as read

The reader of instructions tries one form after the other, and each form gives back all it has
taken where it fails half way. So two things have to be known of every form: what it takes is a
spelling of the instruction it gives, up to where that instruction ends (`instruction_sound`), and
on a spelling of another instruction it declines, so that the right form gets its turn
(`instruction_complete`).

What keeps the forms apart is the first word. It ends where it is followed by anything but a
character of a name, so the keywords of all other forms are declined there
(`keyword_eq_none_of_opcode`). An assignment is recognised by its sign of equality instead, and its
variable may be called like any keyword.

What an instruction is depends on what follows it. A name or numeral at its end could go on, and a
return has a value if one begins on its line. `Inst.EndsAt` says that neither is so; in front of the
end of a line every instruction ends (`Inst.EndsAt.of_lineEnd`).
-/

namespace DefiniteAssignment

open Grammar
open Text (isIdentStart isIdentChar isFunctionNameChar)

/-- An instruction ends here: its last name, numeral or word does not go on, and a return without a
value has none behind it on its line. -/
structure Inst.EndsAt (inst : Inst) (rest : List Char) : Prop where
  last : ∀ p ∈ inst.pieces.getLast?, p.EndsAt rest
  bare : inst = .ret none → ∀ (o : Operand) (mid : List Char),
    Written [.space, o.piece] rest mid → ¬o.piece.EndsAt mid

namespace Inst.EndsAt

variable {inst : Inst} {rest : List Char}

/-- An instruction other than a bare return ends where its last piece does. -/
theorem of_last {p : Piece} (hlast : inst.pieces.getLast? = some p) (h : p.EndsAt rest)
    (hne : inst ≠ .ret none) : inst.EndsAt rest where
  last q hq := by
    obtain rfl : p = q := Option.some.inj (hlast.symm.trans hq)
    exact h
  bare heq := absurd heq hne

/-- A call ends with a parenthesis, which never goes on. -/
theorem of_call (dest : Option String) (callee : String) (args : List Operand) :
    (Inst.call dest callee args).EndsAt rest := by
  refine of_last (p := .word ")") ?_ (fun h => absurd h (by decide)) (by simp)
  rw [pieces, operandPieces, ← List.cons_append, ← List.append_assoc]
  exact List.getLast?_concat

/-- In front of the end of a line every instruction ends. -/
theorem of_lineEnd (inst : Inst) (h : LineEnd rest) : inst.EndsAt rest where
  last p _ := (WordEnds.of_lineEnd h).endsAt p
  bare _ o mid hwritten := by
    -- The spaces lead up to the end of the line, where no operand begins.
    obtain ⟨mid', hspace, last, ho, rfl⟩ := hwritten
    obtain ⟨c, tail, hgap, hc⟩ := h
    obtain rfl : mid' = c :: tail :=
      (gap_of_space hspace).unique (operand_visible ho).stops_space hgap
        (stops_cons.2 (by rcases hc with rfl | rfl | rfl <;> rfl))
    obtain ⟨d, run, hd, hstart⟩ := operand_start ho
    obtain rfl := (List.cons.inj hd).1
    rcases hc with rfl | rfl | rfl <;> exact absurd hstart (by decide)

end Inst.EndsAt

namespace Grammar

variable {α : Type} {cs mid rest : List Char}

section Calls

/-- What is read as arguments is a spelling of them. -/
theorem arguments_sound {args : List Operand} (h : arguments cs = some (args, rest)) :
    Written (.word "(" :: (Inst.argumentPieces args ++ [.word ")"])) cs rest := by
  simp only [arguments, Reader.bind_eq_some_iff, spaces_eq_some_iff, Reader.literal_eq_some_iff,
    Reader.pure_apply] at h
  obtain ⟨-, mid₁, hopen, -, mid₂, ⟨hgap, -⟩, args', mid₃, hargs, -, mid₄, ⟨hgap', -⟩, -, mid₅,
    hclose, ⟨⟩⟩ := h
  have hclosed : Written [.word ")"] mid₄ rest := ⟨rest, hclose, rfl⟩
  suffices hinner : Written (Inst.argumentPieces args) mid₁ mid₄ from
    ⟨mid₁, hopen, chained_append.2 ⟨mid₄, hinner, hclosed⟩⟩
  unfold Reader.separated at hargs
  split at hargs
  next =>
    obtain ⟨rfl, rfl⟩ := Prod.mk.inj (Option.some.inj hargs)
    exact ⟨mid₄, hgap.trans hgap', rfl⟩
  next first mid₆ hfirst =>
    obtain ⟨rfl, rfl⟩ := Prod.mk.inj (Option.some.inj hargs)
    have hlater : Written ((Reader.many (do comma; operand) mid₆).1.flatMap
        fun arg => Inst.commaPieces ++ [arg.piece]) mid₆
          (Reader.many (do comma; operand) mid₆).2 := by
      refine chained_flatMap.2 (Reader.chained_of_many (I := fun _ => True) ?_ trivial).1
      intro arg cs mid _ hread
      obtain ⟨u, mid', hcomma, harg⟩ := Reader.bind_eq_some_iff.1 hread
      have hpiece : Written [arg.piece] mid' mid := ⟨mid, operand_sound harg, rfl⟩
      exact ⟨chained_append.2 ⟨mid', comma_sound hcomma, hpiece⟩, trivial⟩
    have hgapped : Written [.gap] (Reader.many (do comma; operand) mid₆).2 mid₄ :=
      ⟨mid₄, hgap', rfl⟩
    exact ⟨mid₂, hgap, mid₆, operand_sound hfirst, chained_append.2 ⟨_, hlater, hgapped⟩⟩

/-- Behind an argument stands a comma or what closes the arguments. -/
theorem WordEnds.of_arguments {args : List Operand} (hclose : Gap rest (')' :: mid))
    (h : Written (args.flatMap fun arg => Inst.commaPieces ++ [arg.piece]) cs rest) :
    WordEnds cs := by
  cases args with
  | nil => exact h ▸ .of_gap hclose (stops_cons.2 rfl)
  | cons arg args =>
    obtain ⟨mid', harg, -⟩ := chained_append.1 h
    obtain ⟨mid'', hcomma, -⟩ := chained_append.1 harg
    exact .of_comma hcomma

/-- The arguments behind the first are read up to the parenthesis that closes them. -/
theorem many_operand_complete {args : List Operand} (hclose : Gap rest (')' :: mid))
    (h : Written (args.flatMap fun arg => Inst.commaPieces ++ [arg.piece]) cs rest) :
    Reader.many (do comma; operand) cs = (args, rest) := by
  refine Reader.many_of_chained (F := WordEnds) ?_ ?_ (chained_flatMap.1 h)
    (.of_gap hclose (stops_cons.2 rfl)) ?_
  · intro arg cs mid harg hmid
    obtain ⟨mid', hcomma, last, hpiece, rfl⟩ := chained_append.1 harg
    refine ⟨?_, ?_⟩
    · rw [Reader.bind_of_eq_some (comma_complete hcomma (operand_visible hpiece))]
      exact operand_complete hpiece (hmid.endsAt _)
    · obtain ⟨mid₁, hgap, hword⟩ := hcomma
      have hlt := Written.length_lt hword rfl
      have hle := (Piece.Spans.suffix (p := .gap) hgap).length_le
      have hle' := hpiece.suffix.length_le
      omega
  · intro arg cs mid harg
    obtain ⟨mid', hcomma, -⟩ := chained_append.1 harg
    exact .of_comma hcomma
  · refine Reader.bind_of_eq_none ?_
    have hspaces : spaces rest = some ((), ')' :: mid) :=
      spaces_eq_some_iff.2 ⟨hclose, stops_cons.2 rfl⟩
    exact (Reader.bind_of_eq_some hspaces).trans (Reader.bind_of_eq_none rfl)

/-- Arguments are read wherever they stand: their parenthesis ends them. -/
theorem arguments_complete {args : List Operand}
    (h : Written (.word "(" :: (Inst.argumentPieces args ++ [.word ")"])) cs rest) :
    arguments cs = some (args, rest) := by
  obtain ⟨mid₁, hopen, h⟩ := h
  have hopened : Reader.literal "(" cs = some ((), mid₁) := Reader.literal_eq_some_iff.2 hopen
  have hclosed (mid : List Char) : Reader.literal ")" (')' :: mid) = some ((), mid) :=
    Reader.literal_eq_some_iff.2 rfl
  rw [arguments, Reader.bind_of_eq_some hopened]
  cases args with
  | nil =>
    obtain ⟨mid₂, hgap, mid₃, hclose, rfl⟩ := h
    obtain rfl : mid₂ = ')' :: mid₃ := hclose
    have hspaces : spaces mid₁ = some ((), ')' :: mid₃) :=
      spaces_eq_some_iff.2 ⟨hgap, stops_cons.2 rfl⟩
    have hargs : Reader.separated operand comma (')' :: mid₃) = some ([], ')' :: mid₃) := rfl
    have hspaces' : spaces (')' :: mid₃) = some ((), ')' :: mid₃) :=
      spaces_eq_some_iff.2 ⟨gap_nil _, stops_cons.2 rfl⟩
    rw [Reader.bind_of_eq_some hspaces, Reader.bind_of_eq_some hargs,
      Reader.bind_of_eq_some hspaces', Reader.bind_of_eq_some (hclosed mid₃), Reader.pure_apply]
  | cons first later =>
    obtain ⟨mid₂, hgap, mid₃, hfirst, h⟩ := h
    obtain ⟨mid₄, hwritten, mid₅, hclose, rfl⟩ := chained_append.1 h
    obtain ⟨mid₆, hlater, mid₇, hgap', rfl⟩ := chained_append.1 hwritten
    obtain rfl : mid₇ = ')' :: mid₅ := hclose
    have hspaces : spaces mid₁ = some ((), mid₂) :=
      spaces_eq_some_iff.2 ⟨hgap, (operand_visible hfirst).stops_space⟩
    have hargs : Reader.separated operand comma mid₂ = some (first :: later, mid₆) := by
      have hends : WordEnds mid₃ := .of_arguments hgap' hlater
      simp only [Reader.separated, operand_complete hfirst (hends.endsAt _),
        many_operand_complete hgap' hlater]
    have hspaces' : spaces mid₆ = some ((), ')' :: mid₅) :=
      spaces_eq_some_iff.2 ⟨hgap', stops_cons.2 rfl⟩
    rw [Reader.bind_of_eq_some hspaces, Reader.bind_of_eq_some hargs,
      Reader.bind_of_eq_some hspaces', Reader.bind_of_eq_some (hclosed mid₅), Reader.pure_apply]

/-- What is read as a call is a spelling of it, whatever takes its result. -/
theorem call_sound {callee : String} {args : List Operand} (dest : Option String)
    (h : call cs = some ((callee, args), rest)) :
    Written (.word "call" :: (Inst.call dest callee args).operandPieces) cs rest := by
  simp only [call, functionName, Reader.bind_eq_some_iff, keyword_eq_some_iff,
    spaces1_eq_some_iff, spaces_eq_some_iff, Reader.literal_eq_some_iff,
    bareFunctionName_eq_some_iff, Reader.pure_apply] at h
  obtain ⟨-, mid₁, ⟨hword, -⟩, -, mid₂, ⟨hspace, -⟩, name, mid₃, ⟨-, mid₄, hmark, hname, -⟩, -,
    mid₅, ⟨hgap, -⟩, args', mid₆, hargs, ⟨⟩⟩ := h
  exact ⟨mid₁, hword, mid₂, hspace, mid₄, hmark, mid₃, hname, mid₅, hgap, arguments_sound hargs⟩

/-- A call is read wherever it stands. -/
theorem call_complete {dest : Option String} {callee : String} {args : List Operand}
    (h : Written (.word "call" :: (Inst.call dest callee args).operandPieces) cs rest) :
    call cs = some ((callee, args), rest) := by
  obtain ⟨mid₁, hword, mid₂, hspace, mid₃, hmark, mid₄, hname, mid₅, hgap, hargs⟩ := h
  obtain ⟨mid₆, hopen, -⟩ := id hargs
  have hkeyword : keyword "call" cs = some ((), mid₁) :=
    keyword_eq_some_iff.2 ⟨hword, (WordEnds.of_space hspace).ident⟩
  have hspaces1 : spaces1 mid₁ = some ((), mid₂) :=
    spaces1_eq_some_iff.2 ⟨hspace, hmark ▸ stops_cons.2 rfl⟩
  have hcallee : functionName mid₂ = some (callee, mid₄) := by
    have hends : WordEnds mid₄ := .of_gap hgap (hopen ▸ stops_cons.2 rfl)
    have hsign : Reader.literal "%" mid₂ = some ((), mid₃) := Reader.literal_eq_some_iff.2 hmark
    rw [functionName, Reader.bind_of_eq_some hsign]
    exact bareFunctionName_eq_some_iff.2 ⟨hname, hends.functionName⟩
  have hspaces : spaces mid₄ = some ((), mid₅) :=
    spaces_eq_some_iff.2 ⟨hgap, hopen ▸ stops_cons.2 rfl⟩
  rw [call, Reader.bind_of_eq_some hkeyword, Reader.bind_of_eq_some hspaces1,
    Reader.bind_of_eq_some hcallee, Reader.bind_of_eq_some hspaces,
    Reader.bind_of_eq_some (arguments_complete hargs), Reader.pure_apply]

end Calls

section Forms

/-- An instruction with such a result is written without its assignment, up to where it ends. -/
def BodySpelled (dest : Option String) (inst : Inst) (cs rest : List Char) : Prop :=
  inst.dest? = dest ∧ Written (.word inst.opcode :: inst.operandPieces) cs rest ∧ inst.EndsAt rest

/-- An opcode is read with a space behind it, and then what it applies to. -/
theorem applied_eq_some_iff {word : String} {read : Reader α} {a : α} :
    applied word read cs = some (a, rest) ↔
      ∃ mid mid', (Piece.word word).Spans cs mid ∧ Piece.space.Spans mid mid' ∧
        Stops isSpace mid' ∧ read mid' = some (a, rest) := by
  simp only [applied, Reader.bind_eq_some_iff, keyword_eq_some_iff, spaces1_eq_some_iff]
  constructor
  · rintro ⟨-, mid, ⟨hword, -⟩, -, mid', ⟨hspace, hstops⟩, hread⟩
    exact ⟨mid, mid', hword, hspace, hstops, hread⟩
  · rintro ⟨mid, mid', hword, hspace, hstops, hread⟩
    exact ⟨(), mid, ⟨hword, (WordEnds.of_space hspace).ident⟩, (), mid', ⟨hspace, hstops⟩, hread⟩

/-- A name of a block is read up to the end of its number. -/
theorem blockName_eq_some_iff {n : UInt32} :
    blockName cs = some (n, rest) ↔
      Written (Inst.blockNamePieces n) cs rest ∧ Stops Char.isDigit rest := by
  simp only [blockName, Reader.bind_eq_some_iff, Reader.literal_eq_some_iff, index_eq_some_iff]
  constructor
  · rintro ⟨-, mid, hword, hnumber, hstops⟩
    exact ⟨⟨mid, hword, rest, hnumber, rfl⟩, hstops⟩
  · rintro ⟨⟨mid, hword, last, hnumber, rfl⟩, hstops⟩
    exact ⟨(), mid, hword, hnumber, hstops⟩

/-- A global is read up to the end of its name. -/
theorem global_eq_some_iff {name : String} :
    global cs = some (name, rest) ↔
      Written [.word "@", .identifier name] cs rest ∧ Stops isIdentChar rest := by
  simp only [global, Reader.bind_eq_some_iff, Reader.literal_eq_some_iff, identifier_eq_some_iff]
  constructor
  · rintro ⟨-, mid, hmark, hname, hstops⟩
    exact ⟨⟨mid, hmark, rest, hname, rfl⟩, hstops⟩
  · rintro ⟨⟨mid, hmark, last, hname, rfl⟩, hstops⟩
    exact ⟨(), mid, hmark, hname, hstops⟩

/-- What is read as a binary operation is a spelling of one. -/
theorem binary_sound {dest : String} {inst : Inst} (h : binary dest cs = some (inst, rest)) :
    BodySpelled (some dest) inst cs rest := by
  simp only [binary, Reader.bind_eq_some_iff, Reader.mapAccepted_eq_some_iff, spaces1_eq_some_iff,
    identifier_eq_some_iff, operand_eq_some_iff, Reader.pure_apply] at h
  obtain ⟨op, mid₁, ⟨word, ⟨⟨-, hword⟩, -⟩, hop⟩, -, mid₂, ⟨hspace, -⟩, lhs, mid₃, ⟨hlhs, -⟩, u,
    mid₄, hcomma, rhs, mid₅, ⟨hrhs, hends⟩, ⟨⟩⟩ := h
  obtain rfl := BinOp.mnemonic_of_ofMnemonic? hop
  have hright : Written (Inst.commaPieces ++ [rhs.piece]) mid₃ rest :=
    chained_append.2 ⟨mid₄, comma_sound hcomma, rest, hrhs, rfl⟩
  exact ⟨rfl, ⟨mid₁, hword, mid₂, hspace, mid₃, hlhs, hright⟩, .of_last rfl hends (by simp)⟩

/-- The words for operations could be names. -/
theorem isIdentifier_mnemonic (op : BinOp) : isIdentifier op.mnemonic := by
  cases op <;> decide

/-- So could all opcodes. -/
theorem isIdentifier_opcode (inst : Inst) : isIdentifier inst.opcode := by
  cases inst with
  | binary op => exact isIdentifier_mnemonic op
  | _ => simp only [Inst.opcode]; decide

/-- A binary operation is read where its second operand ends. -/
theorem binary_complete {op : BinOp} {dest : String} {lhs rhs : Operand}
    (h : Written (.word op.mnemonic :: (Inst.binary op dest lhs rhs).operandPieces) cs rest)
    (hrest : rhs.piece.EndsAt rest) : binary dest cs = some (.binary op dest lhs rhs, rest) := by
  obtain ⟨mid₁, hword, mid₂, hspace, mid₃, hlhs, h⟩ := h
  obtain ⟨mid₄, hcomma, mid₅, hrhs, rfl⟩ := chained_append.1 h
  have hop : identifier.mapAccepted BinOp.ofMnemonic? cs = some (op, mid₁) := by
    have hmnemonic : identifier cs = some (op.mnemonic, mid₁) :=
      identifier_eq_some_iff.2
        ⟨⟨isIdentifier_mnemonic op, hword⟩, (WordEnds.of_space hspace).ident⟩
    exact Reader.mapAccepted_eq_some_iff.2
      ⟨op.mnemonic, hmnemonic, BinOp.ofMnemonic?_mnemonic op⟩
  have hspaces1 : spaces1 mid₁ = some ((), mid₂) :=
    spaces1_eq_some_iff.2 ⟨hspace, (operand_visible hlhs).stops_space⟩
  have hleft : operand mid₂ = some (lhs, mid₃) :=
    operand_complete hlhs ((WordEnds.of_comma hcomma).endsAt _)
  have hsep : comma mid₃ = some ((), mid₄) := comma_complete hcomma (operand_visible hrhs)
  rw [binary, Reader.bind_of_eq_some hop, Reader.bind_of_eq_some hspaces1,
    Reader.bind_of_eq_some hleft, Reader.bind_of_eq_some hsep,
    Reader.bind_of_eq_some (operand_complete hrhs hrest), Reader.pure_apply]

/-- What follows the sign of equality is the opcode of an instruction that assigns to the variable
in front of it, and what the opcode applies to. -/
theorem assigned_sound {dest : String} {inst : Inst} (h : assigned dest cs = some (inst, rest)) :
    BodySpelled (some dest) inst cs rest := by
  simp only [assigned, Reader.orElse_eq_some_iff, Reader.bind_eq_some_iff, applied_eq_some_iff,
    integer_eq_some_iff, index_eq_some_iff, global_eq_some_iff, operand_eq_some_iff,
    Reader.pure_apply] at h
  obtain h | ⟨-, h | ⟨-, h | ⟨-, h | ⟨-, h | ⟨-, h⟩⟩⟩⟩⟩ := h
  · obtain ⟨value, mid, ⟨mid₁, mid₂, hword, hspace, -, hvalue, hends⟩, ⟨⟩⟩ := h
    exact ⟨rfl, ⟨mid₁, hword, mid₂, hspace, rest, hvalue, rfl⟩, .of_last rfl hends (by simp)⟩
  · obtain ⟨src, mid, ⟨mid₁, mid₂, hword, hspace, -, hsrc, hends⟩, ⟨⟩⟩ := h
    exact ⟨rfl, ⟨mid₁, hword, mid₂, hspace, rest, hsrc, rfl⟩, .of_last rfl hends (by simp)⟩
  · obtain ⟨index, mid, ⟨mid₁, mid₂, hword, hspace, -, hindex, hends⟩, ⟨⟩⟩ := h
    exact ⟨rfl, ⟨mid₁, hword, mid₂, hspace, rest, hindex, rfl⟩, .of_last rfl hends (by simp)⟩
  · obtain ⟨name, mid, ⟨mid₁, mid₂, hword, hspace, -, hname, hends⟩, ⟨⟩⟩ := h
    exact ⟨rfl, ⟨mid₁, hword, mid₂, hspace, hname⟩, .of_last rfl hends (by simp)⟩
  · obtain ⟨⟨callee, args⟩, mid, hcall, ⟨⟩⟩ := h
    exact ⟨rfl, call_sound (some dest) hcall, .of_call _ _ _⟩
  · exact binary_sound h

/-- What is read as a call whose result is dropped is a spelling of it. -/
theorem callStatement_sound {inst : Inst} (h : callStatement cs = some (inst, rest)) :
    BodySpelled none inst cs rest := by
  obtain ⟨⟨callee, args⟩, mid, hcall, ⟨⟩⟩ := Reader.bind_eq_some_iff.1 h
  exact ⟨rfl, call_sound none hcall, .of_call _ _ _⟩

/-- What is read as a jump is a spelling of it. -/
theorem jump_sound {inst : Inst} (h : jump cs = some (inst, rest)) :
    BodySpelled none inst cs rest := by
  simp only [jump, Reader.bind_eq_some_iff, applied_eq_some_iff, blockName_eq_some_iff,
    Reader.pure_apply] at h
  obtain ⟨target, mid, ⟨mid₁, mid₂, hword, hspace, -, htarget, hends⟩, ⟨⟩⟩ := h
  exact ⟨rfl, ⟨mid₁, hword, mid₂, hspace, htarget⟩, .of_last rfl hends (by simp)⟩

/-- What is read as a branch is a spelling of it. -/
theorem brif_sound {inst : Inst} (h : brif cs = some (inst, rest)) :
    BodySpelled none inst cs rest := by
  simp only [brif, Reader.bind_eq_some_iff, applied_eq_some_iff, blockName_eq_some_iff,
    Reader.pure_apply] at h
  obtain ⟨condition, mid₃, ⟨mid₁, mid₂, hword, hspace, -, hcondition⟩, u, mid₄, hcomma, onTrue,
    mid₅, ⟨hTrue, -⟩, u', mid₆, hcomma', onFalse, mid₇, ⟨hFalse, hends⟩, ⟨⟩⟩ := h
  have hfirst : Written (Inst.commaPieces ++ Inst.blockNamePieces onTrue) mid₃ mid₅ :=
    chained_append.2 ⟨mid₄, comma_sound hcomma, hTrue⟩
  have hboth : Written (Inst.commaPieces ++ Inst.blockNamePieces onTrue ++ Inst.commaPieces ++
      Inst.blockNamePieces onFalse) mid₃ rest :=
    chained_append.2 ⟨mid₆, chained_append.2 ⟨mid₅, hfirst, comma_sound hcomma'⟩, hFalse⟩
  exact ⟨rfl, ⟨mid₁, hword, mid₂, hspace, mid₃, operand_sound hcondition, hboth⟩,
    .of_last rfl hends (by simp)⟩

/-- What is read as a store is a spelling of it. -/
theorem store_sound {inst : Inst} (h : store cs = some (inst, rest)) :
    BodySpelled none inst cs rest := by
  simp only [store, Reader.bind_eq_some_iff, applied_eq_some_iff, global_eq_some_iff,
    operand_eq_some_iff, Reader.pure_apply] at h
  obtain ⟨name, mid₃, ⟨mid₁, mid₂, hword, hspace, -, hname, -⟩, u, mid₄, hcomma, value, mid₅,
    ⟨hvalue, hends⟩, ⟨⟩⟩ := h
  have hglobal : Written ([.word "@", .identifier name] ++ Inst.commaPieces) mid₂ mid₄ :=
    chained_append.2 ⟨mid₃, hname, comma_sound hcomma⟩
  have hstored : Written [value.piece] mid₄ rest := ⟨rest, hvalue, rfl⟩
  refine ⟨rfl, ⟨mid₁, hword, mid₂, hspace, ?_⟩, .of_last rfl hends (by simp)⟩
  exact chained_append.2 ⟨mid₄, hglobal, hstored⟩

/-- What is read as a return is a spelling of it, and no value that it could take stands behind
it. -/
theorem ret_sound {inst : Inst} (h : ret cs = some (inst, rest)) :
    BodySpelled none inst cs rest := by
  obtain ⟨u, mid, hkeyword, h⟩ := Reader.bind_eq_some_iff.1 h
  obtain ⟨hword, hstops⟩ := keyword_eq_some_iff.1 hkeyword
  obtain ⟨value, mid', hvalue, ⟨⟩⟩ := Reader.bind_eq_some_iff.1 h
  obtain ⟨o, rfl, ho⟩ | ⟨rfl, rfl, hnone⟩ := Reader.optional_eq_some_iff.1 hvalue
  · obtain ⟨⟨mid₁, hspace, ho⟩, hends⟩ := spaced_operand_eq_some_iff.1 ho
    exact ⟨rfl, ⟨mid, hword, mid₁, hspace, ho⟩, .of_last rfl hends (by simp)⟩
  · refine ⟨rfl, ⟨rest, hword, rfl⟩, fun p hp => ?_, fun _ o mid hwritten hends => ?_⟩
    · obtain rfl : Piece.word "return" = p := Option.some.inj hp
      exact fun _ => hstops
    · cases hnone.symm.trans (spaced_operand_eq_some_iff.2 ⟨hwritten, hends⟩)

/-- What is read as nothing to do is a spelling of it. -/
theorem nop_sound {inst : Inst} (h : nop cs = some (inst, rest)) :
    BodySpelled none inst cs rest := by
  simp only [nop, Reader.bind_eq_some_iff, keyword_eq_some_iff, Reader.pure_apply] at h
  obtain ⟨-, mid, ⟨hword, hstops⟩, ⟨⟩⟩ := h
  exact ⟨rfl, ⟨rest, hword, rfl⟩, .of_last rfl (fun _ => hstops) (by simp)⟩

/-- What is read as an instruction is a spelling of it, up to where the instruction ends. -/
theorem instruction_sound {inst : Inst} (h : instruction cs = some (inst, rest)) :
    Written inst.pieces cs rest ∧ inst.EndsAt rest := by
  have statement (h : BodySpelled none inst cs rest) :
      Written inst.pieces cs rest ∧ inst.EndsAt rest := by
    rw [Inst.pieces, h.1]
    exact h.2
  simp only [instruction, Reader.orElse_eq_some_iff] at h
  obtain h | ⟨-, h | ⟨-, h | ⟨-, h | ⟨-, h | ⟨-, h | ⟨-, h⟩⟩⟩⟩⟩⟩ := h
  · simp only [assignment, Reader.bind_eq_some_iff, identifier_eq_some_iff, spaces_eq_some_iff,
      Reader.literal_eq_some_iff] at h
    obtain ⟨dest, mid₁, ⟨hdest, -⟩, -, mid₂, ⟨hgap, -⟩, -, mid₃, hsign, -, mid₄, ⟨hgap', -⟩,
      hassigned⟩ := h
    obtain ⟨hinst, hwritten, hends⟩ := assigned_sound hassigned
    refine ⟨?_, hends⟩
    rw [Inst.pieces, hinst]
    exact ⟨mid₁, hdest, mid₂, hgap, mid₃, hsign, mid₄, hgap', hwritten⟩
  · exact statement (jump_sound h)
  · exact statement (brif_sound h)
  · exact statement (ret_sound h)
  · exact statement (store_sound h)
  · exact statement (callStatement_sound h)
  · exact statement (nop_sound h)

end Forms

section Choice

/-- An opcode ends where its operands begin, or where the instruction does. -/
theorem stops_of_operandPieces {inst : Inst} (h : Written inst.operandPieces cs rest)
    (hrest : inst.EndsAt rest) : Stops isIdentChar cs := by
  have of_space {ps : List Piece} (h : Written (.space :: ps) cs rest) : Stops isIdentChar cs := by
    obtain ⟨mid, hspace, -⟩ := h
    exact (WordEnds.of_space hspace).ident
  cases inst with
  | nop => exact h ▸ hrest.last (.word "nop") rfl (by decide)
  | ret value =>
    cases value with
    | none => exact h ▸ hrest.last (.word "return") rfl (by decide)
    | some => exact of_space h
  | _ => exact of_space h

/-- The keyword of any other form is declined where an opcode stands. -/
theorem keyword_eq_none_of_opcode {inst : Inst}
    (h : Written (.word inst.opcode :: inst.operandPieces) cs rest) (hrest : inst.EndsAt rest)
    {word : String} (hword : isIdentifier word) (hne : word ≠ inst.opcode) :
    keyword word cs = none := by
  obtain ⟨mid, rfl, htail⟩ := h
  refine keyword_eq_none (isIdentChar_of_isIdentifier hword) ?_
  rw [takeWhile_append_of_stops (isIdentChar_of_isIdentifier (isIdentifier_opcode inst))
    (stops_of_operandPieces htail hrest)]
  exact fun heq => hne (String.toList_inj.1 heq.symm)

/-- The reader of another form is passed over where an opcode stands. -/
theorem orElse_of_opcode {inst : Inst}
    (h : Written (.word inst.opcode :: inst.operandPieces) cs rest) (hrest : inst.EndsAt rest)
    {word : String} {first second : Reader Inst} (hfirst : keyword word cs = none → first cs = none)
    (hword : isIdentifier word) (hne : word ≠ inst.opcode) :
    (first <|> second) cs = second cs :=
  Reader.orElse_of_eq_none (hfirst (keyword_eq_none_of_opcode h hrest hword hne))

/-- A form with an opcode is declined where its keyword is. -/
theorem bind_applied_eq_none {word : String} {read : Reader α} {next : α → Reader Inst}
    (h : keyword word cs = none) : (applied word read >>= next) cs = none :=
  Reader.bind_of_eq_none (Reader.bind_of_eq_none h)

/-- So is a call. -/
theorem bind_call_eq_none {next : String × List Operand → Reader Inst}
    (h : keyword "call" cs = none) : (call >>= next) cs = none :=
  Reader.bind_of_eq_none (Reader.bind_of_eq_none h)

/-- What is assigned to a variable is read by the form of its opcode, since all forms before it are
passed over. -/
theorem assigned_complete {dest : String} {inst : Inst} (hdest : inst.dest? = some dest)
    (h : Written (.word inst.opcode :: inst.operandPieces) cs rest) (hrest : inst.EndsAt rest) :
    assigned dest cs = some (inst, rest) := by
  have pass (word : String) {α : Type} {read : Reader α} {next : α → Reader Inst}
      {second : Reader Inst} (hne : word ≠ inst.opcode) (hword : isIdentifier word) :
      ((applied word read >>= next) <|> second) cs = second cs :=
    orElse_of_opcode h hrest bind_applied_eq_none hword hne
  have take (word : String) {α : Type} {read : Reader α} {next : α → Reader Inst}
      {second : Reader Inst} {a : α} {mid mid' : List Char}
      (hnext : next a rest = some (inst, rest)) (hword : (Piece.word word).Spans cs mid)
      (hspace : Piece.space.Spans mid mid') (hvisible : Visible mid')
      (hread : read mid' = some (a, rest)) :
      ((applied word read >>= next) <|> second) cs = some (inst, rest) := by
    refine Reader.orElse_of_eq_some ((Reader.bind_of_eq_some ?_).trans hnext)
    exact applied_eq_some_iff.2 ⟨mid, mid', hword, hspace, hvisible.stops_space, hread⟩
  rw [assigned]
  cases inst with
  | const d value =>
    obtain rfl : d = dest := Option.some.inj hdest
    obtain ⟨mid, hword, mid', hspace, last, hvalue, rfl⟩ := h
    exact take "const" rfl hword hspace (hvalue.visible rfl)
      (integer_eq_some_iff.2 ⟨hvalue, hrest.last _ rfl⟩)
  | copy d src =>
    obtain rfl : d = dest := Option.some.inj hdest
    obtain ⟨mid, hword, mid', hspace, last, hsrc, rfl⟩ := id h
    rw [pass "const" (by simp [Inst.opcode]) (by decide)]
    exact take "copy" rfl hword hspace (operand_visible hsrc)
      (operand_complete hsrc (hrest.last _ rfl))
  | param d index =>
    obtain rfl : d = dest := Option.some.inj hdest
    obtain ⟨mid, hword, mid', hspace, last, hindex, rfl⟩ := id h
    rw [pass "const" (by simp [Inst.opcode]) (by decide),
      pass "copy" (by simp [Inst.opcode]) (by decide)]
    exact take "param" rfl hword hspace (hindex.visible rfl)
      (index_eq_some_iff.2 ⟨hindex, hrest.last _ rfl⟩)
  | load d name =>
    obtain rfl : d = dest := Option.some.inj hdest
    obtain ⟨mid, hword, mid', hspace, hname⟩ := id h
    rw [pass "const" (by simp [Inst.opcode]) (by decide),
      pass "copy" (by simp [Inst.opcode]) (by decide),
      pass "param" (by simp [Inst.opcode]) (by decide)]
    exact take "load" rfl hword hspace (Written.visible hname rfl)
      (global_eq_some_iff.2 ⟨hname, hrest.last _ rfl⟩)
  | call d callee args =>
    obtain rfl : d = some dest := hdest
    rw [pass "const" (by simp [Inst.opcode]) (by decide),
      pass "copy" (by simp [Inst.opcode]) (by decide),
      pass "param" (by simp [Inst.opcode]) (by decide),
      pass "load" (by simp [Inst.opcode]) (by decide)]
    exact Reader.orElse_of_eq_some (Reader.bind_of_eq_some (call_complete h))
  | binary op d lhs rhs =>
    obtain rfl : d = dest := Option.some.inj hdest
    have hne : ∀ word ∈ ["const", "copy", "param", "load", "call"], word ≠ op.mnemonic := by
      cases op <;> decide
    rw [pass "const" (hne _ (by simp)) (by decide), pass "copy" (hne _ (by simp)) (by decide),
      pass "param" (hne _ (by simp)) (by decide), pass "load" (hne _ (by simp)) (by decide)]
    exact (orElse_of_opcode h hrest bind_call_eq_none (by decide) (hne _ (by simp))).trans
      (binary_complete h (hrest.last _ rfl))
  | store | nop | jump | brif | ret => cases hdest

/-- Opcodes are visible. -/
theorem visible_of_opcode {inst : Inst} {ps : List Piece}
    (h : Written (.word inst.opcode :: ps) cs rest) : Visible cs := by
  obtain ⟨mid, hword, -⟩ := h
  exact Piece.Spans.visible (p := .identifier inst.opcode) ⟨isIdentifier_opcode inst, hword⟩ rfl

/-- No sign of equality comes next, also not behind spaces. -/
def NoSign (cs : List Char) : Prop :=
  ∃ c rest, Gap cs (c :: rest) ∧ isSpace c = false ∧ c ≠ '='

/-- A gap does not hide a sign of equality. -/
theorem NoSign.of_gap (h : Gap cs rest) (hrest : NoSign rest) : NoSign cs := by
  obtain ⟨c, tail, hgap, hc⟩ := hrest
  exact ⟨c, tail, h.trans hgap, hc⟩

/-- No operand begins with a sign of equality. -/
theorem NoSign.of_operand {o : Operand} (h : o.piece.Spans cs rest) : NoSign cs := by
  obtain ⟨c, run, rfl, hc⟩ := operand_start h
  refine ⟨c, run, gap_nil _, ?_, ?_⟩
  · cases hblank : isSpace c with
    | false => rfl
    | true => rcases isSpace_eq_or hblank with rfl | rfl <;> revert hc <;> decide
  · rintro rfl
    revert hc
    decide

/-- Blanks and comments do not hide one, though a line may end in them. -/
theorem NoSign.of_blank (h : Blank cs rest) (hrest : NoSign rest) : NoSign cs := by
  induction h with
  | nothing => exact hrest
  | char blank _ ih =>
    rcases isBlank_eq_or blank with rfl | rfl | rfl | rfl
    · exact .of_gap (gap_of_space ⟨' ', _, rfl, rfl, gap_nil _⟩) (ih hrest)
    · exact .of_gap (gap_of_space ⟨'\t', _, rfl, rfl, gap_nil _⟩) (ih hrest)
    · exact ⟨'\r', _, gap_nil _, by decide⟩
    · exact ⟨'\n', _, gap_nil _, by decide⟩
  | comment => exact ⟨';', _, gap_nil _, by decide⟩

/-- Behind the opcode of an instruction that assigns nothing there is no sign of equality, unless
one follows the instruction. -/
theorem noSign_of_dest?_eq_none {inst : Inst} (hdest : inst.dest? = none)
    (h : Written inst.operandPieces cs rest) (hrest : NoSign rest) : NoSign cs := by
  cases inst with
  | const | copy | param | load | binary => cases hdest
  | store =>
    obtain ⟨mid, hspace, mid', rfl, -⟩ := h
    exact ⟨'@', mid', gap_of_space hspace, by decide⟩
  | call =>
    obtain ⟨mid, hspace, mid', rfl, -⟩ := h
    exact ⟨'%', mid', gap_of_space hspace, by decide⟩
  | nop => exact h ▸ hrest
  | jump =>
    obtain ⟨mid, hspace, mid', rfl, -⟩ := h
    exact ⟨'b', _, gap_of_space hspace, by decide⟩
  | brif =>
    obtain ⟨mid, hspace, mid', hcondition, -⟩ := h
    exact .of_gap (gap_of_space hspace) (.of_operand hcondition)
  | ret value =>
    cases value with
    | none => exact h ▸ hrest
    | some =>
      obtain ⟨mid, hspace, mid', hvalue, -⟩ := h
      exact .of_gap (gap_of_space hspace) (.of_operand hvalue)

/-- Without a sign of equality behind a name there is no assignment. -/
theorem assignment_eq_none {name : String} (hname : identifier cs = some (name, mid))
    (h : NoSign mid) : assignment cs = none := by
  obtain ⟨c, rest, hgap, hc, hne⟩ := h
  have hspaces : spaces mid = some ((), c :: rest) := spaces_eq_some_iff.2 ⟨hgap, stops_cons.2 hc⟩
  have hsign : Reader.literal "=" (c :: rest) = none := by
    refine Option.eq_none_iff_forall_ne_some.2 fun result hresult => hne ?_
    exact (List.cons.inj (Reader.literal_eq_some_iff.1 hresult)).1
  exact (Reader.bind_of_eq_some hname).trans <| (Reader.bind_of_eq_some hspaces).trans <|
    Reader.bind_of_eq_none hsign

/-- A branch is read where the number of its second block ends. -/
theorem brif_complete {condition : Operand} {onTrue onFalse : UInt32}
    (h : Written (.word "brif" :: (Inst.brif condition onTrue onFalse).operandPieces) cs rest)
    (hrest : Stops Char.isDigit rest) : brif cs = some (.brif condition onTrue onFalse, rest) := by
  obtain ⟨mid₁, hword, mid₂, hspace, mid₃, hcondition, h⟩ := h
  obtain ⟨mid₆, hpieces, hFalse⟩ := chained_append.1 h
  obtain ⟨mid₅, hpieces', hcomma'⟩ := chained_append.1 hpieces
  obtain ⟨mid₄, hcomma, hTrue⟩ := chained_append.1 hpieces'
  have hbranch : applied "brif" operand cs = some (condition, mid₃) := by
    have hoperand : operand mid₂ = some (condition, mid₃) :=
      operand_complete hcondition ((WordEnds.of_comma hcomma).endsAt _)
    exact applied_eq_some_iff.2
      ⟨mid₁, mid₂, hword, hspace, (operand_visible hcondition).stops_space, hoperand⟩
  have hsep : comma mid₃ = some ((), mid₄) := comma_complete hcomma (Written.visible hTrue rfl)
  have htrue : blockName mid₄ = some (onTrue, mid₅) :=
    blockName_eq_some_iff.2 ⟨hTrue, (WordEnds.of_comma hcomma').digit⟩
  have hsep' : comma mid₅ = some ((), mid₆) := comma_complete hcomma' (Written.visible hFalse rfl)
  have hfalse : blockName mid₆ = some (onFalse, rest) := blockName_eq_some_iff.2 ⟨hFalse, hrest⟩
  rw [brif, Reader.bind_of_eq_some hbranch, Reader.bind_of_eq_some hsep,
    Reader.bind_of_eq_some htrue, Reader.bind_of_eq_some hsep', Reader.bind_of_eq_some hfalse,
    Reader.pure_apply]

/-- A store is read where the stored value ends. -/
theorem store_complete {name : String} {value : Operand}
    (h : Written (.word "store" :: (Inst.store name value).operandPieces) cs rest)
    (hrest : value.piece.EndsAt rest) : store cs = some (.store name value, rest) := by
  obtain ⟨mid₁, hword, mid₂, hspace, h⟩ := h
  obtain ⟨mid₄, hpieces, mid₅, hvalue, rfl⟩ := chained_append.1 h
  obtain ⟨mid₃, hname, hcomma⟩ := chained_append.1 hpieces
  have htarget : applied "store" global cs = some (name, mid₃) := by
    have hglobal : global mid₂ = some (name, mid₃) :=
      global_eq_some_iff.2 ⟨hname, (WordEnds.of_comma hcomma).ident⟩
    exact applied_eq_some_iff.2
      ⟨mid₁, mid₂, hword, hspace, (Written.visible hname rfl).stops_space, hglobal⟩
  have hsep : comma mid₃ = some ((), mid₄) := comma_complete hcomma (operand_visible hvalue)
  rw [store, Reader.bind_of_eq_some htarget, Reader.bind_of_eq_some hsep,
    Reader.bind_of_eq_some (operand_complete hvalue hrest), Reader.pure_apply]

/-- A return takes a value if one stands on its line, and only then. -/
theorem ret_complete {value : Option Operand}
    (h : Written (.word "return" :: (Inst.ret value).operandPieces) cs rest)
    (hrest : (Inst.ret value).EndsAt rest) : ret cs = some (.ret value, rest) := by
  obtain ⟨mid, hword, h⟩ := h
  have hkeyword : keyword "return" cs = some ((), mid) :=
    keyword_eq_some_iff.2 ⟨hword, stops_of_operandPieces h hrest⟩
  suffices hvalue : Reader.optional (do spaces1; operand) mid = some (value, rest) by
    rw [ret, Reader.bind_of_eq_some hkeyword, Reader.bind_of_eq_some hvalue, Reader.pure_apply]
  refine Reader.optional_eq_some_iff.2 ?_
  cases value with
  | some o => exact .inl ⟨o, rfl, spaced_operand_eq_some_iff.2 ⟨h, hrest.last _ rfl⟩⟩
  | none =>
    obtain rfl : mid = rest := h
    refine .inr ⟨rfl, rfl, Option.eq_none_iff_forall_ne_some.2 fun result hresult => ?_⟩
    obtain ⟨hwritten, hends⟩ := spaced_operand_eq_some_iff.1 hresult
    exact hrest.bare rfl _ _ hwritten hends

/-- No jump is read where its keyword is declined. -/
theorem jump_eq_none (h : keyword "jump" cs = none) : jump cs = none :=
  bind_applied_eq_none h

/-- Nor is a branch. -/
theorem brif_eq_none (h : keyword "brif" cs = none) : brif cs = none :=
  bind_applied_eq_none h

/-- Nor is a return. -/
theorem ret_eq_none (h : keyword "return" cs = none) : ret cs = none :=
  Reader.bind_of_eq_none h

/-- Nor is a store. -/
theorem store_eq_none (h : keyword "store" cs = none) : store cs = none :=
  bind_applied_eq_none h

/-- Nor is a call. -/
theorem callStatement_eq_none (h : keyword "call" cs = none) : callStatement cs = none :=
  bind_call_eq_none h

/-- An instruction that assigns nothing is read by the reader of its form. -/
theorem statement_complete {inst : Inst} (hdest : inst.dest? = none)
    (h : Written (.word inst.opcode :: inst.operandPieces) cs rest) (hrest : inst.EndsAt rest) :
    (jump <|> brif <|> ret <|> store <|> callStatement <|> nop) cs = some (inst, rest) := by
  have pass {word : String} {first second : Reader Inst}
      (hfirst : keyword word cs = none → first cs = none) (hne : word ≠ inst.opcode)
      (hword : isIdentifier word) : (first <|> second) cs = second cs :=
    orElse_of_opcode h hrest hfirst hword hne
  cases inst with
  | const | copy | param | load | binary => cases hdest
  | jump target =>
    obtain ⟨mid, hword, mid', hspace, htarget⟩ := h
    have hname : blockName mid' = some (target, rest) :=
      blockName_eq_some_iff.2 ⟨htarget, hrest.last _ rfl⟩
    have hjump : applied "jump" blockName cs = some (target, rest) := applied_eq_some_iff.2
      ⟨mid, mid', hword, hspace, (Written.visible htarget rfl).stops_space, hname⟩
    exact Reader.orElse_of_eq_some (Reader.bind_of_eq_some hjump)
  | brif condition onTrue onFalse =>
    rw [pass jump_eq_none (by simp [Inst.opcode]) (by decide)]
    exact Reader.orElse_of_eq_some (brif_complete h (hrest.last _ rfl))
  | ret value =>
    rw [pass jump_eq_none (by simp [Inst.opcode]) (by decide),
      pass brif_eq_none (by simp [Inst.opcode]) (by decide)]
    exact Reader.orElse_of_eq_some (ret_complete h hrest)
  | store name value =>
    rw [pass jump_eq_none (by simp [Inst.opcode]) (by decide),
      pass brif_eq_none (by simp [Inst.opcode]) (by decide),
      pass ret_eq_none (by simp [Inst.opcode]) (by decide)]
    exact Reader.orElse_of_eq_some (store_complete h (hrest.last _ rfl))
  | call dest callee args =>
    obtain rfl : dest = none := hdest
    rw [pass jump_eq_none (by simp [Inst.opcode]) (by decide),
      pass brif_eq_none (by simp [Inst.opcode]) (by decide),
      pass ret_eq_none (by simp [Inst.opcode]) (by decide),
      pass store_eq_none (by simp [Inst.opcode]) (by decide)]
    exact Reader.orElse_of_eq_some (Reader.bind_of_eq_some (call_complete h))
  | nop =>
    rw [pass jump_eq_none (by simp [Inst.opcode]) (by decide),
      pass brif_eq_none (by simp [Inst.opcode]) (by decide),
      pass ret_eq_none (by simp [Inst.opcode]) (by decide),
      pass store_eq_none (by simp [Inst.opcode]) (by decide),
      pass callStatement_eq_none (by simp [Inst.opcode]) (by decide)]
    obtain ⟨mid, hword, rfl⟩ := h
    have hkeyword : keyword "nop" cs = some ((), mid) :=
      keyword_eq_some_iff.2 ⟨hword, hrest.last _ rfl (by decide)⟩
    exact Reader.bind_of_eq_some hkeyword

/-- An instruction is read where it ends and no sign of equality follows, which would make its
opcode a variable. -/
theorem instruction_complete {inst : Inst} (h : Written inst.pieces cs rest)
    (hrest : inst.EndsAt rest) (hsign : NoSign rest) : instruction cs = some (inst, rest) := by
  cases hdest : inst.dest? with
  | some dest =>
    rw [Inst.pieces, hdest] at h
    obtain ⟨mid₁, hname, mid₂, hgap, mid₃, rfl, mid₄, hgap', h⟩ := h
    have hvariable : identifier cs = some (dest, mid₁) :=
      identifier_eq_some_iff.2 ⟨hname, (WordEnds.of_gap hgap (stops_cons.2 rfl)).ident⟩
    have hspaces : spaces mid₁ = some ((), '=' :: mid₃) :=
      spaces_eq_some_iff.2 ⟨hgap, stops_cons.2 rfl⟩
    have hequals : Reader.literal "=" ('=' :: mid₃) = some ((), mid₃) :=
      Reader.literal_eq_some_iff.2 rfl
    have hspaces' : spaces mid₃ = some ((), mid₄) :=
      spaces_eq_some_iff.2 ⟨hgap', (visible_of_opcode h).stops_space⟩
    refine Reader.orElse_of_eq_some ?_
    rw [assignment, Reader.bind_of_eq_some hvariable, Reader.bind_of_eq_some hspaces,
      Reader.bind_of_eq_some hequals, Reader.bind_of_eq_some hspaces']
    exact assigned_complete hdest h hrest
  | none =>
    rw [Inst.pieces, hdest] at h
    obtain ⟨mid, hword, htail⟩ := id h
    have hname : identifier cs = some (inst.opcode, mid) := identifier_eq_some_iff.2
      ⟨⟨isIdentifier_opcode inst, hword⟩, stops_of_operandPieces htail hrest⟩
    rw [instruction, Reader.orElse_of_eq_none
      (assignment_eq_none hname (noSign_of_dest?_eq_none hdest htail hsign))]
    exact statement_complete hdest h hrest

/-- An instruction begins with a word that could be a name. -/
theorem instruction_start {inst : Inst} (h : Written inst.pieces cs rest) :
    ∃ name ps, Written (.identifier name :: ps) cs rest := by
  cases hdest : inst.dest? with
  | some dest =>
    rw [Inst.pieces, hdest] at h
    exact ⟨dest, _, h⟩
  | none =>
    rw [Inst.pieces, hdest] at h
    obtain ⟨mid, hword, htail⟩ := h
    exact ⟨inst.opcode, inst.operandPieces, mid, ⟨isIdentifier_opcode inst, hword⟩, htail⟩

/-- No instruction begins where a block or function ends. -/
theorem instruction_eq_none_of_brace : instruction ('\x7d' :: cs) = none := by
  refine Option.eq_none_iff_forall_ne_some.2 fun result hresult => ?_
  obtain ⟨name, ps, mid, ⟨hname, hcs⟩, -⟩ := instruction_start (instruction_sound hresult).1
  obtain ⟨c, run, htext, hc, -⟩ := isIdentifier_iff.1 hname
  rw [htext] at hcs
  obtain rfl := (List.cons.inj hcs).1
  revert hc
  decide

/-- Where a block begins, no instruction does: its label is followed by a colon. -/
theorem instruction_eq_none_of_label {n : Nat}
    (h : Written [.word "block", .number n, .gap, .word ":"] cs rest) : instruction cs = none := by
  obtain ⟨mid₁, rfl, mid₂, ⟨digits, hdigits, rfl⟩, mid₃, hgap, mid₄, rfl, rfl⟩ := h
  have hends : Stops isIdentChar mid₂ := (WordEnds.of_gap hgap (stops_cons.2 rfl)).ident
  have hlabel : ∀ c ∈ "block".toList ++ digits, isIdentChar c := by
    intro c hc
    rcases List.mem_append.1 hc with hc | hc
    · exact isIdentChar_of_isIdentifier (show isIdentifier "block" by decide) c hc
    · exact isIdentChar_of_isDigit (hdigits.isDigit c hc)
  have hlead := takeWhile_append_of_stops hlabel hends
  rw [List.append_assoc] at hlead
  have hassignment : assignment ("block".toList ++ (digits ++ mid₂)) = none := by
    have hname : isIdentifier (String.ofList ("block".toList ++ digits)) := by
      refine isIdentifier_iff.2 ⟨'b', "lock".toList ++ digits, by simp, by decide, ?_⟩
      exact fun c hc => hlabel c (List.mem_cons_of_mem 'b' hc)
    have hread : identifier ("block".toList ++ (digits ++ mid₂)) =
        some (String.ofList ("block".toList ++ digits), mid₂) :=
      identifier_eq_some_iff.2 ⟨⟨hname, by simp⟩, hends⟩
    exact assignment_eq_none hread ⟨':', mid₄, hgap, by decide⟩
  have hnone (word : String) (hword : isIdentifier word)
      (hne : "block".toList ++ digits ≠ word.toList) :
      keyword word ("block".toList ++ (digits ++ mid₂)) = none :=
    keyword_eq_none (isIdentChar_of_isIdentifier hword) (hlead ▸ hne)
  rw [instruction, Reader.orElse_of_eq_none hassignment,
    Reader.orElse_of_eq_none (jump_eq_none (hnone "jump" (by decide) (by simp))),
    Reader.orElse_of_eq_none (brif_eq_none (hnone "brif" (by decide) (by simp))),
    Reader.orElse_of_eq_none (ret_eq_none (hnone "return" (by decide) (by simp))),
    Reader.orElse_of_eq_none (store_eq_none (hnone "store" (by decide) (by simp))),
    Reader.orElse_of_eq_none (callStatement_eq_none (hnone "call" (by decide) (by simp)))]
  exact Reader.bind_of_eq_none (hnone "nop" (by decide) (by simp))

end Choice

end Grammar

end DefiniteAssignment
