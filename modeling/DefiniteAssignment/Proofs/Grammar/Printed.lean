import Mathlib.Tactic.ByContra
import DefiniteAssignment.Proofs.Grammar.Tokens
/-!
# Instructions as printed

The printed form of an instruction is one of its spellings (`Inst.printed_toString`), provided that
every name in it is a name. Of the many ways to write gaps and blanks it uses few: `Piece.Prints`
says which, and `Printed` lays pieces out as they are printed. Whether all names are names can be
told from the pieces (`Inst.isWritable_eq`): what has been read consists of pieces that have a
spelling, so it can be written again.
-/

namespace DefiniteAssignment

open Grammar

namespace Grammar

/-- Whether a piece has a spelling: a name has one only if it is a name. -/
def Piece.isSpellable : Piece → Bool
  | identifier name => isIdentifier name
  | functionName name => isFunctionName name
  | word _ | number _ | integer _ | gap | space | blanks | lineEnd => true

@[simp]
theorem Piece.isSpellable_identifier (name : String) :
    (identifier name).isSpellable = isIdentifier name := rfl

@[simp]
theorem Piece.isSpellable_functionName (name : String) :
    (functionName name).isSpellable = isFunctionName name := rfl

@[simp]
theorem Piece.isSpellable_word (text : String) : (word text).isSpellable = true := rfl

@[simp]
theorem Piece.isSpellable_number (n : Nat) : (number n).isSpellable = true := rfl

@[simp]
theorem Piece.isSpellable_integer (value : Int) : (integer value).isSpellable = true := rfl

/-- What stands between pieces with a meaning always has a spelling. -/
@[simp]
theorem Piece.isSpellable_between : gap.isSpellable = true ∧ space.isSpellable = true ∧
    blanks.isSpellable = true ∧ lineEnd.isSpellable = true := ⟨rfl, rfl, rfl, rfl⟩

/-- What is spelled somewhere has a spelling. -/
theorem Piece.Spans.isSpellable {p : Piece} {cs rest : List Char} (h : p.Spans cs rest) :
    p.isSpellable := by
  cases p with
  | identifier | functionName => exact h.1
  | _ => rfl

/-- So does every piece of a row that is written somewhere. -/
theorem Written.isSpellable {ps : List Piece} {cs rest : List Char} (h : Written ps cs rest) :
    ∀ p ∈ ps, p.isSpellable := by
  induction ps generalizing cs with
  | nil => simp
  | cons p ps ih =>
    obtain ⟨mid, hp, hps⟩ := h
    exact List.forall_mem_cons.2 ⟨hp.isSpellable, ih hps⟩

section Prints

variable {cs rest : List Char}

/-- The start of a new line, up to where its indentation ends. -/
def NewLine (cs rest : List Char) : Prop :=
  ∃ mid, cs = '\n' :: mid ∧ Gap mid rest ∧ Stops isSpace rest

/-- A text begins with a piece as it is printed, and the rest follows. A gap is printed as one space
or not at all, and blanks as a gap or a new line. -/
def Piece.Prints : Piece → List Char → List Char → Prop
  | gap, cs, rest => cs = rest ∨ cs = ' ' :: rest
  | space, cs, rest => cs = ' ' :: rest
  | blanks, cs, rest => cs = rest ∨ cs = ' ' :: rest ∨ NewLine cs rest
  | lineEnd, cs, rest => NewLine cs rest
  | p, cs, rest => p.Spans cs rest

/-- A row of pieces is printed at the front of a text, and the rest follows. -/
abbrev Printed : List Piece → List Char → List Char → Prop :=
  Chained Piece.Prints

/-- A single space is a gap. -/
theorem gap_blank (cs : List Char) : Gap (' ' :: cs) cs :=
  ⟨[' '], List.forall_mem_singleton.2 rfl, rfl⟩

/-- A new line is an end of a line, with the indentation as the blanks behind it. -/
theorem NewLine.spans (h : NewLine cs rest) : Piece.lineEnd.Spans cs rest := by
  obtain ⟨mid, rfl, hgap, -⟩ := h
  exact ⟨⟨'\n', mid, gap_nil _, .inr (.inl rfl)⟩, .char rfl hgap.blank⟩

/-- What is printed is a spelling. -/
theorem Piece.Prints.spans {p : Piece} (h : p.Prints cs rest) : p.Spans cs rest := by
  cases p with
  | gap =>
    rcases h with rfl | rfl
    · exact gap_nil _
    · exact gap_blank _
  | space => exact ⟨' ', rest, rfl, h, gap_nil _⟩
  | blanks =>
    rcases h with rfl | rfl | hline
    · exact .nothing _
    · exact .char rfl (.nothing _)
    · exact hline.spans.2
  | lineEnd => exact NewLine.spans h
  | _ => exact h

/-- So a row of pieces as it is printed is a row of pieces as it may be written. -/
theorem Printed.written {ps : List Piece} (h : Printed ps cs rest) : Written ps cs rest :=
  h.imp fun _ _ _ _ => Piece.Prints.spans

/-- The digits of a number in base ten have its value. -/
theorem digits_toString (n : Nat) : Digits n (toString n).toList := by
  rw [Nat.toString_eq_repr, Nat.toList_repr]
  exact ⟨Nat.toDigits_ne_nil, fun c hc => Nat.isDigit_of_mem_toDigits (by decide) (by decide) hc,
    Nat.ofDigitChars_ten_toDigits⟩

/-- Numbers are printed in decimal digits. -/
theorem number_toString (n : Nat) (rest : List Char) :
    (Piece.number n).Prints ((toString n).toList ++ rest) rest :=
  ⟨_, digits_toString n, rfl⟩

/-- So are integers, with the sign in front of the digits of the absolute value. -/
theorem integer_toString (value : Int) (rest : List Char) :
    (Piece.integer value).Prints ((toString value).toList ++ rest) rest := by
  cases value with
  | ofNat n => exact ⟨n, (toString n).toList, digits_toString n, .inl ⟨rfl, rfl⟩⟩
  | negSucc n =>
    refine ⟨n + 1, (toString (n + 1)).toList, digits_toString (n + 1), .inr ⟨rfl, ?_⟩⟩
    have : toString (Int.negSucc n) = "-" ++ toString (n + 1) := rfl
    simp [this]

end Prints

section Classes

variable {inClass : Char → Bool} {cs rest : List Char}

/-- A class of characters that has all those of names and numerals. -/
structure HoldsNames (inClass : Char → Bool) : Prop where
  ident : ∀ c, Text.isIdentChar c → inClass c
  functionName : ∀ c, Text.isFunctionNameChar c → inClass c
  minus : inClass '-'

/-- To see that a class has these characters, look at those that it does not have. -/
theorem HoldsNames.of_others {others : List Char} (hothers : ∀ c, inClass c = false → c ∈ others)
    (hident : others.any Text.isIdentChar = false)
    (hfunction : others.any Text.isFunctionNameChar = false) (hminus : inClass '-') :
    HoldsNames inClass := by
  have hin {p : Char → Bool} (hp : others.any p = false) (c : Char) (hc : p c) : inClass c := by
    by_contra hnot
    exact List.any_eq_false.1 hp c (hothers c (Bool.eq_false_iff.2 hnot)) hc
  exact ⟨hin hident, hin hfunction, hminus⟩

/-- A class with the characters of names has those of numerals. -/
theorem HoldsNames.digits (h : HoldsNames inClass) {n : Nat} {digits : List Char}
    (hdigits : Digits n digits) : ∀ c ∈ digits, inClass c :=
  fun c hc => h.ident c (isIdentChar_of_isDigit (hdigits.isDigit c hc))

/-- Whether a piece is a name, a numeral, or a word of a class of characters. -/
def Piece.isOf (inClass : Char → Bool) : Piece → Bool
  | word text => text.toList.all inClass
  | identifier _ | functionName _ | number _ | integer _ => true
  | gap | space | blanks | lineEnd => false

/-- A word that could be a name, such as an opcode, is of every class with the characters of
names. -/
theorem HoldsNames.isOf_word (h : HoldsNames inClass) {name : String} (hname : isIdentifier name) :
    (Piece.word name).isOf inClass := by
  refine List.all_eq_true.2 fun c hc => ?_
  exact h.ident c (isIdentChar_of_isIdentifier hname c hc)

/-- Such a piece is written with characters of the class only, and what they spell does not depend
on what follows. -/
theorem Piece.Spans.exists_run {p : Piece} (h : p.Spans cs rest) (hclass : HoldsNames inClass)
    (hp : p.isOf inClass) :
    ∃ run, (∀ c ∈ run, inClass c) ∧ cs = run ++ rest ∧ ∀ mid, p.Spans (run ++ mid) mid := by
  cases p with
  | word text => exact ⟨text.toList, List.all_eq_true.1 hp, h, fun _ => rfl⟩
  | identifier name =>
    obtain ⟨hname, rfl⟩ := h
    exact ⟨name.toList, fun c hc => hclass.ident c (isIdentChar_of_isIdentifier hname c hc), rfl,
      fun _ => ⟨hname, rfl⟩⟩
  | functionName name =>
    obtain ⟨hname, rfl⟩ := h
    exact ⟨name.toList, fun c hc => hclass.functionName c ((isFunctionName_iff.1 hname).2 c hc),
      rfl, fun _ => ⟨hname, rfl⟩⟩
  | number n =>
    obtain ⟨digits, h, rfl⟩ := h
    exact ⟨digits, hclass.digits h, rfl, fun _ => ⟨digits, h, rfl⟩⟩
  | integer value =>
    obtain ⟨n, digits, h, ⟨hvalue, rfl⟩ | ⟨hvalue, rfl⟩⟩ := h
    · exact ⟨digits, hclass.digits h, rfl, fun _ => ⟨n, digits, h, .inl ⟨hvalue, rfl⟩⟩⟩
    · exact ⟨'-' :: digits, List.forall_mem_cons.2 ⟨hclass.minus, hclass.digits h⟩, rfl,
        fun _ => ⟨n, digits, h, .inr ⟨hvalue, rfl⟩⟩⟩
  | gap | space | blanks | lineEnd => cases hp

end Classes

end Grammar

/-- An operand is printed as its piece, if its name is a name. -/
theorem Operand.prints_toString {o : Operand} (h : o.piece.isSpellable) (rest : List Char) :
    o.piece.Prints (o.toString.toList ++ rest) rest := by
  cases o with
  | var name => exact ⟨h, rfl⟩
  | imm value => exact integer_toString value.toInt rest

namespace Inst

/-- The places that are read have names that can be written if the operands can be. -/
theorem all_places_eq (operands : List Operand) :
    ((operands.filterMap Operand.var?).map Place.loc).all (isIdentifier ·.name) =
      operands.all (·.piece.isSpellable) := by
  induction operands with
  | nil => rfl
  | cons o operands ih => cases o <;> simp_all [Operand.var?, Operand.piece, Place.name]

/-- Gaps and commas can always be written, so arguments can be if the operands can. -/
theorem all_argumentPieces (args : List Operand) :
    (argumentPieces args).all (·.isSpellable) = args.all (·.piece.isSpellable) := by
  cases args with
  | nil => rfl
  | cons first later =>
    induction later with
    | nil => simp [argumentPieces]
    | cons arg later ih => simp_all [argumentPieces, commaPieces]

/-- What an instruction reads can be written if its operands can be. A `load` is left out: it reads
a global, which is none of its operands. -/
theorem all_uses_eq {inst : Inst} (hload : ∀ dest global, inst ≠ load dest global) :
    inst.uses.all (isIdentifier ·.name) = inst.operands.all (·.piece.isSpellable) := by
  cases inst with
  | load dest global => exact absurd rfl (hload dest global)
  | _ => simp only [uses, all_places_eq]

/-- An instruction can be written exactly if all its pieces can be. -/
theorem isWritable_eq (inst : Inst) : inst.isWritable = inst.pieces.all (·.isSpellable) := by
  rw [isWritable, List.all_append]
  cases inst with
  | load dest global =>
    simp [uses, pieces, defs, dest?, operandPieces, callee?, Place.name]
  | call dest callee args =>
    rw [all_uses_eq (by simp)]
    cases dest <;> simp [pieces, defs, operands, dest?, operandPieces, callee?,
      all_argumentPieces, Place.name, Bool.and_comm, Bool.and_left_comm]
  | ret value =>
    rw [all_uses_eq (by simp)]
    cases value <;> simp [pieces, defs, operands, dest?, operandPieces, callee?]
  | _ =>
    rw [all_uses_eq (by simp)]
    simp [pieces, defs, operands, dest?, operandPieces, callee?,
      commaPieces, blockNamePieces, Place.name]

/-! How an instruction is printed, from its end: each lemma puts what is printed next in front of
the pieces that are printed already. -/

section Fronts

variable {ps : List Piece} {cs rest : List Char}

/-- An operand in front of other pieces. -/
theorem printed_operand {o : Operand} (ho : o.piece.isSpellable) (h : Printed ps cs rest) :
    Printed (o.piece :: ps) (o.toString.toList ++ cs) rest :=
  ⟨cs, Operand.prints_toString ho cs, h⟩

/-- A comma is printed with a space behind it. -/
theorem printed_comma (h : Printed ps cs rest) :
    Printed (commaPieces ++ ps) (", ".toList ++ cs) rest := by
  have hgap : Printed (.gap :: ps) (' ' :: cs) rest := ⟨cs, .inr rfl, h⟩
  have hword : Printed (.word "," :: .gap :: ps) (',' :: ' ' :: cs) rest := ⟨_, rfl, hgap⟩
  exact ⟨_, .inl rfl, hword⟩

/-- The name of a block is printed without a space in it. -/
theorem printed_blockName (index : UInt32) (h : Printed ps cs rest) :
    Printed (blockNamePieces index ++ ps) ((blockName index).toList ++ cs) rest := by
  rw [blockName, String.toList_append, List.append_assoc]
  have hnumber : Printed (.number index.toNat :: ps) ((toString index.toNat).toList ++ cs) rest :=
    ⟨cs, number_toString _ cs, h⟩
  exact ⟨_, rfl, hnumber⟩

/-- An opcode is printed with a space between it and what it applies to. -/
theorem printed_applied (opcode : String) (h : Printed ps cs rest) :
    Printed (.word opcode :: .space :: ps) (opcode.toList ++ (" ".toList ++ cs)) rest := by
  have hspace : Printed (.space :: ps) (" ".toList ++ cs) rest := ⟨cs, rfl, h⟩
  exact ⟨_, rfl, hspace⟩

/-- The name of a global is printed behind its sign. -/
theorem printed_global {global : String} (hglobal : isIdentifier global)
    (h : Printed ps cs rest) :
    Printed (.word "@" :: .identifier global :: ps) ("@".toList ++ (global.toList ++ cs)) rest := by
  have hname : Printed (.identifier global :: ps) (global.toList ++ cs) rest :=
    ⟨cs, ⟨hglobal, rfl⟩, h⟩
  exact ⟨_, rfl, hname⟩

/-- The variable that takes a result is printed with spaces around the sign of equality. -/
theorem printed_assignText {dest : String} (hdest : isIdentifier dest) (h : Printed ps cs rest) :
    Printed ([.identifier dest, .gap, .word "=", .gap] ++ ps)
      (dest.toList ++ (" = ".toList ++ cs)) rest := by
  have hgap : Printed (.gap :: ps) (' ' :: cs) rest := ⟨cs, .inr rfl, h⟩
  have hword : Printed (.word "=" :: .gap :: ps) ('=' :: ' ' :: cs) rest := ⟨_, rfl, hgap⟩
  have hsign : Printed (.gap :: .word "=" :: .gap :: ps) (" = ".toList ++ cs) rest :=
    ⟨_, .inr rfl, hword⟩
  exact ⟨_, ⟨hdest, rfl⟩, hsign⟩

end Fronts

/-- Operands one behind the other are printed with commas between them. -/
theorem printed_operandText {first : Operand} {later : List Operand}
    (hfirst : first.piece.isSpellable) (hlater : ∀ arg ∈ later, arg.piece.isSpellable)
    (rest : List Char) :
    Printed (first.piece :: later.flatMap fun arg => commaPieces ++ [arg.piece])
      ((", ".intercalate ((first :: later).map Operand.toString)).toList ++ rest) rest := by
  induction later generalizing first with
  | nil =>
    rw [List.map_singleton, String.intercalate_singleton]
    exact printed_operand hfirst rfl
  | cons arg later ih =>
    obtain ⟨harg, hlater⟩ := List.forall_mem_cons.1 hlater
    rw [List.map_cons, List.map_cons, String.intercalate_cons_cons, ← List.map_cons]
    simp only [String.toList_append, List.append_assoc]
    exact printed_operand hfirst (printed_comma (ih harg hlater))

/-- The arguments of a call as they are printed, up to the parenthesis that closes them. -/
theorem printed_argumentText {args : List Operand} (h : ∀ arg ∈ args, arg.piece.isSpellable)
    (rest : List Char) :
    Printed (argumentPieces args)
      ((", ".intercalate (args.map Operand.toString)).toList ++ rest) rest := by
  have hgap : Printed [.gap] rest rest := ⟨rest, .inl rfl, rfl⟩
  cases args with
  | nil => exact hgap
  | cons first later =>
    obtain ⟨hfirst, hlater⟩ := List.forall_mem_cons.1 h
    have hoperands := printed_operandText hfirst hlater rest
    exact ⟨_, .inl rfl, chained_append.2 ⟨rest, hoperands, hgap⟩⟩

/-- A call is printed with no spaces but the one behind its opcode and those behind commas. -/
theorem printed_callText {dest : Option String} {callee : String} {args : List Operand}
    (hcallee : isFunctionName callee) (hargs : ∀ arg ∈ args, arg.piece.isSpellable)
    (rest : List Char) :
    Printed (.word "call" :: (call dest callee args).operandPieces)
      ((callText callee args).toList ++ rest) rest := by
  simp only [callText, String.toList_append, List.append_assoc]
  have hclose : Printed [.word ")"] (")".toList ++ rest) rest := ⟨rest, rfl, rfl⟩
  have hargs := chained_append.2 ⟨_, printed_argumentText hargs (")".toList ++ rest), hclose⟩
  have hopen : Printed (.word "(" :: (argumentPieces args ++ [.word ")"]))
      ("(".toList ++ ((", ".intercalate (args.map Operand.toString)).toList ++
        (")".toList ++ rest))) rest := ⟨_, rfl, hargs⟩
  have hgap : Printed (.gap :: .word "(" :: (argumentPieces args ++ [.word ")"])) _ rest :=
    ⟨_, .inl rfl, hopen⟩
  have hname : Printed (.functionName callee :: .gap :: .word "(" ::
      (argumentPieces args ++ [.word ")"])) _ rest := ⟨_, ⟨hcallee, rfl⟩, hgap⟩
  have hsign : Printed (.word "%" :: .functionName callee :: .gap :: .word "(" ::
      (argumentPieces args ++ [.word ")"])) _ rest := ⟨_, rfl, hname⟩
  exact printed_applied "call" hsign

/-- An instruction is printed as its pieces. -/
theorem printed_toString {inst : Inst} (h : inst.isWritable) (rest : List Char) :
    Printed inst.pieces (inst.toString.toList ++ rest) rest := by
  rw [isWritable_eq] at h
  have hend : Printed [] rest rest := rfl
  cases inst with
  | const dest value =>
    have hdest : isIdentifier dest := by simpa [pieces, dest?, operandPieces] using h
    have hvalue : Printed [.integer value.toInt] ((toString value.toInt).toList ++ rest) rest :=
      ⟨rest, integer_toString _ rest, hend⟩
    simp only [Inst.toString, String.toList_append, List.append_assoc]
    exact printed_assignText hdest (printed_applied "const" hvalue)
  | copy dest src =>
    obtain ⟨hdest, hsrc⟩ : isIdentifier dest ∧ src.piece.isSpellable := by
      simpa [pieces, dest?, operandPieces] using h
    have hvalue := printed_operand hsrc hend
    simp only [Inst.toString, String.toList_append, List.append_assoc]
    exact printed_assignText hdest (printed_applied "copy" hvalue)
  | param dest index =>
    have hdest : isIdentifier dest := by simpa [pieces, dest?, operandPieces] using h
    have hindex : Printed [.number index.toNat] ((toString index.toNat).toList ++ rest) rest :=
      ⟨rest, number_toString _ rest, hend⟩
    simp only [Inst.toString, String.toList_append, List.append_assoc]
    exact printed_assignText hdest (printed_applied "param" hindex)
  | binary op dest lhs rhs =>
    obtain ⟨hdest, hlhs, hrhs⟩ :
        isIdentifier dest ∧ lhs.piece.isSpellable ∧ rhs.piece.isSpellable := by
      simpa [pieces, dest?, operandPieces, commaPieces] using h
    have hright := printed_comma (printed_operand hrhs hend)
    have hboth := printed_operand hlhs hright
    simp only [Inst.toString, String.toList_append, List.append_assoc]
    exact printed_assignText hdest (printed_applied op.mnemonic hboth)
  | load dest global =>
    obtain ⟨hdest, hglobal⟩ : isIdentifier dest ∧ isIdentifier global := by
      simpa [pieces, dest?, operandPieces] using h
    have hname := printed_global hglobal hend
    simp only [Inst.toString, String.toList_append, List.append_assoc]
    exact printed_assignText hdest (printed_applied "load" hname)
  | store global value =>
    obtain ⟨hglobal, hvalue⟩ : isIdentifier global ∧ value.piece.isSpellable := by
      simpa [pieces, dest?, operandPieces, commaPieces] using h
    have hstored := printed_comma (printed_operand hvalue hend)
    have hname := printed_global hglobal hstored
    simp only [Inst.toString, String.toList_append, List.append_assoc]
    exact printed_applied "store" hname
  | call dest callee args =>
    cases dest with
    | none =>
      obtain ⟨hcallee, hargs⟩ : isFunctionName callee ∧ ∀ arg ∈ args, arg.piece.isSpellable := by
        simpa [pieces, dest?, operandPieces, all_argumentPieces] using h
      exact printed_callText hcallee hargs rest
    | some dest =>
      obtain ⟨hdest, hcallee, hargs⟩ : isIdentifier dest ∧ isFunctionName callee ∧
          ∀ arg ∈ args, arg.piece.isSpellable := by
        simpa [pieces, dest?, operandPieces, all_argumentPieces] using h
      simp only [Inst.toString, String.toList_append, List.append_assoc]
      exact printed_assignText hdest (printed_callText hcallee hargs rest)
  | nop =>
    have hword : Printed [.word "nop"] ("nop".toList ++ rest) rest := ⟨rest, rfl, hend⟩
    exact hword
  | jump target =>
    have htarget := printed_blockName target hend
    simp only [Inst.toString, String.toList_append, List.append_assoc]
    exact printed_applied "jump" htarget
  | brif condition onTrue onFalse =>
    have hcondition : condition.piece.isSpellable := by
      simpa [pieces, dest?, operandPieces, commaPieces, blockNamePieces] using h
    have hfalse := printed_comma (printed_blockName onFalse hend)
    have htrue := printed_comma (printed_blockName onTrue hfalse)
    have hall := printed_operand hcondition htrue
    simp only [Inst.toString, String.toList_append, List.append_assoc]
    exact printed_applied "brif" hall
  | ret value =>
    cases value with
    | none =>
      have hword : Printed [.word "return"] ("return".toList ++ rest) rest := ⟨rest, rfl, hend⟩
      exact hword
    | some value =>
      have hvalue : value.piece.isSpellable := by simpa [pieces, dest?, operandPieces] using h
      simp only [Inst.toString, String.toList_append, List.append_assoc]
      exact printed_applied "return" (printed_operand hvalue hend)

end Inst

end DefiniteAssignment
