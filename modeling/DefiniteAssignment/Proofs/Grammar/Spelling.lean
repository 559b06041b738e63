import DefiniteAssignment.Grammar.Parse
/-!
# Spellings

What a text has to look like to stand for an instruction, a function or a module, said without a
reader. Everything that is written is a row of pieces: fixed words, names, numerals, and the gaps
and blanks between them. `Piece.Spans p cs rest` says that `cs` begins with a spelling of `p` and
that `rest` is what follows it; `Written` lays a row of pieces out one behind the other, each from
where the one before it stopped, so that no character is left over or used twice.

A piece has many spellings. Gaps are any spaces and tabs, blanks any blanks and comments, numerals
any digits with the value. What the pieces are is fixed by what they stand for: `Inst.pieces`,
`FunctionText.pieces` and `ModuleText.pieces`. The last two leave open what separates an instruction
from what comes next. A reader asks for no more than blanks there; a writer who does not want two
lines read as one ends the line first (`Piece.lineEnd`).

Some things have no spelling, for their names are no names: `Function.Writable` and
`Module.Writable` say which have one.
-/

namespace DefiniteAssignment

open Text (isIdentStart isIdentChar isFunctionNameChar)

/-- Whether a text is the name of a variable or global. -/
def isIdentifier (name : String) : Bool :=
  match name.toList with
  | [] => false
  | c :: cs => isIdentStart c && cs.all isIdentChar

/-- Whether a text is the name of a function. -/
def isFunctionName (name : String) : Bool :=
  !name.toList.isEmpty && name.toList.all isFunctionNameChar

/-- The name of a place, without the mark of a global. -/
def Place.name : Place → String
  | loc name | glob name => name

/-- The function an instruction calls. -/
def Inst.callee? : Inst → Option String
  | call _ callee _ => some callee
  | _ => none

/-- Whether every name in an instruction is one that can be written. -/
def Inst.isWritable (inst : Inst) : Bool :=
  (inst.defs ++ inst.uses).all (isIdentifier ·.name) && inst.callee?.all isFunctionName

/-- A function that can be written: its names are names, it has a block, and every block has a
number below `2 ^ 32` for a label. -/
structure Function.Writable (f : Function) : Prop where
  name : isFunctionName f.name
  ne_nil : f.blocks ≠ []
  length_le : f.blocks.length ≤ UInt32.size
  insts : ∀ block ∈ f.blocks, ∀ inst ∈ block, inst.isWritable

/-- A module that can be written: so can its functions, each is stored under its own name, and an
entry names one of them. -/
structure Module.Writable (m : Module) : Prop where
  functions : ∀ f ∈ m.functions.values, f.Writable
  keyed : m.KeyedByName
  entry : ∀ name ∈ m.entry, m.functions.contains name

namespace Grammar

section Chains

variable {α β : Type}

/-- A row of items, each of which takes the text from where the one before it stopped. -/
def Chained (R : α → List Char → List Char → Prop) : List α → List Char → List Char → Prop
  | [], cs, rest => cs = rest
  | a :: as, cs, rest => ∃ mid, R a cs mid ∧ Chained R as mid rest

variable {R S : α → List Char → List Char → Prop}

@[simp]
theorem chained_nil {cs rest : List Char} : Chained R [] cs rest ↔ cs = rest := Iff.rfl

@[simp]
theorem chained_cons {a : α} {as : List α} {cs rest : List Char} :
    Chained R (a :: as) cs rest ↔ ∃ mid, R a cs mid ∧ Chained R as mid rest := Iff.rfl

/-- Two rows one behind the other are laid out from where the first one stops. -/
@[simp]
theorem chained_append {as bs : List α} {cs rest : List Char} :
    Chained R (as ++ bs) cs rest ↔ ∃ mid, Chained R as cs mid ∧ Chained R bs mid rest := by
  induction as generalizing cs with
  | nil => simp
  | cons a as ih =>
    simp only [List.cons_append, chained_cons, ih]
    constructor
    · rintro ⟨mid, ha, mid', has, hbs⟩
      exact ⟨mid', ⟨mid, ha, has⟩, hbs⟩
    · rintro ⟨mid', ⟨mid, ha, has⟩, hbs⟩
      exact ⟨mid, ha, mid', has, hbs⟩

/-- A row of rows is the row of all their items. -/
theorem chained_flatMap {f : β → List α} {bs : List β} {cs rest : List Char} :
    Chained R (bs.flatMap f) cs rest ↔ Chained (fun b => Chained R (f b)) bs cs rest := by
  induction bs generalizing cs with
  | nil => simp
  | cons b bs ih => simp [ih]

/-- A relation between items that implies another does so for rows of them. -/
theorem Chained.imp {as : List α} {cs rest : List Char} (h : Chained R as cs rest)
    (hRS : ∀ a ∈ as, ∀ cs rest, R a cs rest → S a cs rest) : Chained S as cs rest := by
  induction as generalizing cs with
  | nil => exact h
  | cons a as ih =>
    obtain ⟨mid, ha, has⟩ := h
    exact ⟨mid, hRS a List.mem_cons_self cs mid ha,
      ih has fun b hb => hRS b (List.mem_cons_of_mem a hb)⟩

/-- If every item is a front part of its text, so is the row. -/
theorem Chained.suffix {as : List α} {cs rest : List Char} (h : Chained R as cs rest)
    (hR : ∀ a ∈ as, ∀ cs rest, R a cs rest → rest <:+ cs) : rest <:+ cs := by
  induction as generalizing cs with
  | nil => exact h ▸ List.suffix_refl _
  | cons a as ih =>
    obtain ⟨mid, ha, has⟩ := h
    exact (ih has fun b hb => hR b (List.mem_cons_of_mem a hb)).trans
      (hR a List.mem_cons_self cs mid ha)

/-- What no item changes is the same before a row and behind it. -/
theorem Chained.eq_of_forall {g : List Char → β} {as : List α} {cs rest : List Char}
    (h : Chained R as cs rest) (hR : ∀ a ∈ as, ∀ cs rest, R a cs rest → g cs = g rest) :
    g cs = g rest := by
  induction as generalizing cs with
  | nil => rw [show cs = rest from h]
  | cons a as ih =>
    obtain ⟨mid, ha, has⟩ := h
    rw [hR a List.mem_cons_self cs mid ha, ih has fun b hb => hR b (List.mem_cons_of_mem a hb)]

/-- Every item of a row stands somewhere in the text. -/
theorem Chained.exists_of_mem {as : List α} {a : α} {cs rest : List Char} (h : Chained R as cs rest)
    (ha : a ∈ as) : ∃ cs rest, R a cs rest := by
  induction as generalizing cs with
  | nil => cases ha
  | cons b bs ih =>
    obtain ⟨mid, hb, hbs⟩ := h
    rcases List.mem_cons.1 ha with rfl | ha
    · exact ⟨cs, mid, hb⟩
    · exact ih hbs ha

end Chains

/-- Decimal digits with a value. Zeros in front are allowed. -/
structure Digits (n : Nat) (digits : List Char) : Prop where
  ne_nil : digits ≠ []
  isDigit : ∀ c ∈ digits, c.isDigit
  value : Nat.ofDigitChars 10 digits 0 = n

/-- Spaces and tabs, or nothing. -/
def Gap (cs rest : List Char) : Prop :=
  ∃ run : List Char, (∀ c ∈ run, isSpace c) ∧ cs = run ++ rest

/-- The end of the text or of a line, up to which a comment goes. -/
inductive EndsComment : List Char → Prop where
  | text : EndsComment []
  | lineFeed (rest : List Char) : EndsComment ('\n' :: rest)
  | both (rest : List Char) : EndsComment ('\r' :: '\n' :: rest)

/-- Blanks and comments, or nothing. -/
inductive Blank : List Char → List Char → Prop where
  | nothing (cs : List Char) : Blank cs cs
  | char {c : Char} {cs rest : List Char} (blank : isBlank c) (later : Blank cs rest) :
      Blank (c :: cs) rest
  | comment {body cs rest : List Char} (body_ne : ∀ c ∈ body, c ≠ '\n' ∧ c ≠ '\r')
      (ends : EndsComment cs) (later : Blank cs rest) : Blank (';' :: (body ++ cs)) rest

/-- Nothing more stands on the line: after spaces it ends or a comment begins. -/
def LineEnd (cs : List Char) : Prop :=
  ∃ c rest, Gap cs (c :: rest) ∧ (c = ';' ∨ c = '\n' ∨ c = '\r')

/-- The smallest things that are written. -/
inductive Piece where
  /-- A fixed text. -/
  | word (text : String)
  /-- A name of a variable or global. -/
  | identifier (name : String)
  /-- A name of a function. -/
  | functionName (name : String)
  /-- A number in decimal digits. -/
  | number (n : Nat)
  /-- A number in decimal digits, with a minus sign in front if it is negative. -/
  | integer (value : Int)
  /-- Spaces and tabs, or nothing. -/
  | gap
  /-- At least one space or tab. -/
  | space
  /-- Blanks and comments, or nothing. -/
  | blanks
  /-- Blanks and comments that begin with the end of the line. -/
  | lineEnd

/-- A text begins with a spelling of the piece, and the rest follows. -/
def Piece.Spans : Piece → List Char → List Char → Prop
  | word text, cs, rest => cs = text.toList ++ rest
  | identifier name, cs, rest => isIdentifier name ∧ cs = name.toList ++ rest
  | functionName name, cs, rest => isFunctionName name ∧ cs = name.toList ++ rest
  | number n, cs, rest => ∃ digits, Digits n digits ∧ cs = digits ++ rest
  | integer value, cs, rest => ∃ n digits, Digits n digits ∧
      ((value = n ∧ cs = digits ++ rest) ∨ (value = -n ∧ cs = '-' :: (digits ++ rest)))
  | gap, cs, rest => Gap cs rest
  | space, cs, rest => ∃ c mid, isSpace c ∧ cs = c :: mid ∧ Gap mid rest
  | blanks, cs, rest => Blank cs rest
  | lineEnd, cs, rest => LineEnd cs ∧ Blank cs rest

/-- A row of pieces is written at the front of a text, and the rest follows. -/
abbrev Written : List Piece → List Char → List Char → Prop :=
  Chained Piece.Spans

end Grammar

open Grammar (Piece)

/-- The piece an operand is. -/
def Operand.piece : Operand → Piece
  | var name => .identifier name
  | imm value => .integer value.toInt

namespace Inst

/-- A comma with gaps around it. -/
def commaPieces : List Piece :=
  [.gap, .word ",", .gap]

/-- The number of a block, with the word in front of it. -/
def blockNamePieces (index : UInt32) : List Piece :=
  [.word "block", .number index.toNat]

/-- What stands between the parentheses of a call. -/
def argumentPieces : List Operand → List Piece
  | [] => [.gap]
  | first :: later =>
    .gap :: first.piece :: (later.flatMap fun arg => commaPieces ++ [arg.piece]) ++ [.gap]

/-- The variable to which an instruction assigns its result. -/
def dest? : Inst → Option String
  | const dest _ | copy dest _ | param dest _ | binary _ dest _ _ | load dest _ => some dest
  | call dest _ _ => dest
  | store _ _ | nop | jump _ | brif _ _ _ | ret _ => none

/-- The word that says what an instruction does. -/
def opcode : Inst → String
  | const _ _ => "const"
  | copy _ _ => "copy"
  | param _ _ => "param"
  | binary op _ _ _ => op.mnemonic
  | load _ _ => "load"
  | store _ _ => "store"
  | call _ _ _ => "call"
  | nop => "nop"
  | jump _ => "jump"
  | brif _ _ _ => "brif"
  | ret _ => "return"

/-- What stands behind the opcode. -/
def operandPieces : Inst → List Piece
  | const _ value => [.space, .integer value.toInt]
  | copy _ src => [.space, src.piece]
  | param _ index => [.space, .number index.toNat]
  | binary _ _ lhs rhs => [.space, lhs.piece] ++ commaPieces ++ [rhs.piece]
  | load _ global => [.space, .word "@", .identifier global]
  | store global value =>
    [.space, .word "@", .identifier global] ++ commaPieces ++ [value.piece]
  | call _ callee args =>
    [.space, .word "%", .functionName callee, .gap, .word "("] ++ argumentPieces args ++ [.word ")"]
  | nop => []
  | jump target => .space :: blockNamePieces target
  | brif condition onTrue onFalse =>
    [.space, condition.piece] ++ commaPieces ++ blockNamePieces onTrue ++ commaPieces ++
      blockNamePieces onFalse
  | ret none => []
  | ret (some value) => [.space, value.piece]

/-- The pieces of an instruction, in order: the assigned variable and the sign of equality if it has
a result, its opcode, and what the opcode applies to. -/
def pieces (inst : Inst) : List Piece :=
  (match inst.dest? with
    | some dest => [.identifier dest, .gap, .word "=", .gap]
    | none => []) ++
  .word inst.opcode :: inst.operandPieces

end Inst

namespace Grammar

/-- A block as written, where every instruction is followed by a piece `ending`. -/
def blockPieces (ending : Piece) (block : UInt32 × Block) : List Piece :=
  [.word "block", .number block.1.toNat, .gap, .word ":", .blanks] ++
    block.2.flatMap fun inst => inst.pieces ++ [ending]

/-- A function as written, with the blanks behind it. -/
def FunctionText.pieces (ending : Piece) (f : FunctionText) : List Piece :=
  [.word "function", .blanks, .word "%", .functionName f.name, .blanks, .word "\x7b", .blanks] ++
    f.blocks.flatMap (blockPieces ending) ++ [.word "\x7d", .blanks]

/-- The line that names the entry, if there is an entry. -/
def entryPieces (ending : Piece) : Option String → List Piece
  | none => []
  | some name => [.word "entry", .blanks, .word ":", .blanks, .word "%", .functionName name, ending]

/-- A module as written, with the blanks behind it. -/
def ModuleText.pieces (ending : Piece) (m : ModuleText) : List Piece :=
  [.word "module", .blanks, .word "\x7b", .blanks] ++ entryPieces ending m.entry ++
    m.functions.flatMap (FunctionText.pieces ending) ++ [.word "\x7d", .blanks]

end Grammar

end DefiniteAssignment
