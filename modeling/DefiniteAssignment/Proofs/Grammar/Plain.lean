import DefiniteAssignment.Proofs.Grammar.Instructions
import DefiniteAssignment.Proofs.Grammar.Printed
/-!
# Instructions in plain characters

An instruction is written on one line, without a brace or a semicolon (`Inst.isPlain_pieces`). So
neither a comment nor the end of a function can begin within it, however it is spelled
(`Written.exists_isPlain`).
-/

namespace DefiniteAssignment

open Grammar

namespace Grammar

/-- A character that neither counts for the end of a function nor ends a line. -/
def isPlain (c : Char) : Bool :=
  c != '\x7b' && c != '\x7d' && c != ';' && c != '\n' && c != '\r'

variable {cs rest : List Char}

/-- Whether a piece is written on one line with plain characters only. -/
def Piece.isPlain : Piece → Bool
  | gap | space => true
  | p => p.isOf Grammar.isPlain

/-- Names are plain, whatever they are. -/
@[simp]
theorem Piece.isPlain_name (name : String) :
    (identifier name).isPlain ∧ (functionName name).isPlain := ⟨rfl, rfl⟩

/-- Numbers are plain. -/
@[simp]
theorem Piece.isPlain_number (n : Nat) : (number n).isPlain := rfl

/-- Integers are plain. -/
@[simp]
theorem Piece.isPlain_integer (value : Int) : (integer value).isPlain := rfl

/-- What stands between the words of an instruction is plain. -/
@[simp]
theorem Piece.isPlain_between : gap.isPlain ∧ space.isPlain := ⟨rfl, rfl⟩

/-- The signs of an instruction are plain. -/
@[simp]
theorem Piece.isPlain_sign : (word "@").isPlain ∧ (word "%").isPlain ∧ (word "(").isPlain ∧
    (word ")").isPlain := ⟨rfl, rfl, rfl, rfl⟩

/-- Names and numbers consist of plain characters. -/
theorem holdsNames_isPlain : HoldsNames isPlain := by
  have hothers : ∀ c, isPlain c = false → c ∈ ['\x7b', '\x7d', ';', '\n', '\r'] := by
    intro c hc
    simp only [List.mem_cons]
    grind [isPlain]
  exact .of_others hothers rfl rfl rfl

/-- A plain piece is spelled with plain characters. -/
theorem Piece.Spans.exists_isPlain {p : Piece} (hp : p.isPlain) (h : p.Spans cs rest) :
    ∃ run, (∀ c ∈ run, Grammar.isPlain c) ∧ cs = run ++ rest := by
  have hgap (hgap : Gap cs rest) : ∃ run, (∀ c ∈ run, Grammar.isPlain c) ∧ cs = run ++ rest := by
    obtain ⟨run, hrun, rfl⟩ := hgap
    refine ⟨run, fun c hc => ?_, rfl⟩
    rcases isSpace_eq_or (hrun c hc) with rfl | rfl <;> rfl
  cases p with
  | gap => exact hgap h
  | space => exact hgap (gap_of_space h)
  | word | identifier | functionName | number | integer | blanks | lineEnd =>
    obtain ⟨run, hrun, heq, -⟩ := Piece.Spans.exists_run h holdsNames_isPlain hp
    exact ⟨run, hrun, heq⟩

/-- A row of plain pieces is spelled with plain characters. -/
theorem Written.exists_isPlain {ps : List Piece} (hps : ∀ p ∈ ps, p.isPlain)
    (h : Written ps cs rest) : ∃ run, (∀ c ∈ run, Grammar.isPlain c) ∧ cs = run ++ rest := by
  induction ps generalizing cs with
  | nil => exact ⟨[], by simp, h⟩
  | cons p ps ih =>
    obtain ⟨hp, hps⟩ := List.forall_mem_cons.1 hps
    obtain ⟨mid, hspans, hwritten⟩ := h
    obtain ⟨first, hfirst, rfl⟩ := hspans.exists_isPlain hp
    obtain ⟨later, hlater, rfl⟩ := ih hps hwritten
    refine ⟨first ++ later, fun c hc => ?_, (List.append_assoc _ _ _).symm⟩
    exact (List.mem_append.1 hc).elim (hfirst c) (hlater c)

end Grammar

namespace Inst

@[simp]
theorem isPlain_piece (o : Operand) : o.piece.isPlain := by
  cases o <;> rfl

/-- Opcodes are names, so they are plain. -/
theorem isPlain_opcode (inst : Inst) : (Piece.word inst.opcode).isPlain :=
  holdsNames_isPlain.isOf_word (isIdentifier_opcode inst)

@[simp]
theorem all_isPlain_commaPieces : commaPieces.all Piece.isPlain := rfl

@[simp]
theorem all_isPlain_blockNamePieces (index : UInt32) :
    (blockNamePieces index).all Piece.isPlain := rfl

/-- The arguments of a call are plain, with the commas between them. -/
@[simp]
theorem all_isPlain_argumentPieces (args : List Operand) :
    (argumentPieces args).all Piece.isPlain := by
  cases args with
  | nil => rfl
  | cons first later => simp [argumentPieces, List.all_flatMap]

/-- What an opcode applies to is plain. -/
theorem all_isPlain_operandPieces (inst : Inst) : inst.operandPieces.all Piece.isPlain := by
  cases inst with
  | ret value => cases value <;> simp [operandPieces]
  | _ => simp [operandPieces]

/-- All pieces of an instruction are plain. -/
theorem isPlain_pieces (inst : Inst) : ∀ p ∈ inst.pieces, p.isPlain := by
  refine List.all_eq_true.1 ?_
  rw [pieces, List.all_append, List.all_cons, isPlain_opcode, all_isPlain_operandPieces]
  cases inst.dest? with
  | none => rfl
  | some dest => rfl

/-- An instruction is printed with plain characters. -/
theorem isPlain_toString {inst : Inst} (h : inst.isWritable) :
    ∀ c ∈ inst.toString.toList, isPlain c := by
  obtain ⟨run, hrun, htext⟩ :=
    Written.exists_isPlain inst.isPlain_pieces (printed_toString h []).written
  rw [List.append_nil, List.append_nil] at htext
  exact htext ▸ hrun

end Inst

end DefiniteAssignment
