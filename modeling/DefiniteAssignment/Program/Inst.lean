/-!
# Instructions

The instructions of the intermediate representation, what each of them writes and reads, where it
may send control, and its printed form.

A local variable, a global and a function are each given by a name. Only locals can stand as
operands; globals are reached by `load` and `store` alone.
-/

namespace DefiniteAssignment

/-- Something an instruction can read or write. -/
inductive Place where
  | loc (name : String)
  | glob (name : String)
  deriving DecidableEq, Repr

/-- An instruction's argument: a local variable or a 64-bit integer. -/
inductive Operand where
  | var (name : String)
  | imm (value : Int64)
  deriving DecidableEq

/-- The binary operations. -/
inductive BinOp where
  | add | sub | mul | div | rem | and | or | xor | eq | ne | lt | le | gt | ge
  deriving DecidableEq, Repr

/-- One instruction. Branch targets are block numbers. -/
inductive Inst where
  | const (dest : String) (value : Int64)
  | copy (dest : String) (src : Operand)
  | param (dest : String) (index : UInt32)
  | binary (op : BinOp) (dest : String) (lhs rhs : Operand)
  | load (dest : String) (global : String)
  | store (global : String) (value : Operand)
  | call (dest : Option String) (callee : String) (args : List Operand)
  | nop
  | jump (target : UInt32)
  | brif (condition : Operand) (onTrue onFalse : UInt32)
  | ret (value : Option Operand)
  deriving DecidableEq

namespace Place

/-- The order of places: locals come before globals, and each kind is ordered by name. -/
protected def lt : Place → Place → Prop
  | loc a, loc b => a < b
  | loc _, glob _ => True
  | glob _, loc _ => False
  | glob a, glob b => a < b

instance : LT Place :=
  ⟨Place.lt⟩

instance : DecidableLT Place
  | loc a, loc b => inferInstanceAs (Decidable (a < b))
  | loc _, glob _ => isTrue trivial
  | glob _, loc _ => isFalse id
  | glob a, glob b => inferInstanceAs (Decidable (a < b))

/-- The name of a local; `none` for a global. -/
def local? : Place → Option String
  | loc name => some name
  | glob _ => none

/-- A global is written with an at sign in front. -/
protected def toString : Place → String
  | loc name => name
  | glob name => "@" ++ name

instance : ToString Place :=
  ⟨Place.toString⟩

end Place

namespace Operand

/-- The variable an operand reads, if it reads one. -/
def var? : Operand → Option String
  | var name => some name
  | imm _ => none

/-- An operand is written as the variable's name or as the integer in decimal digits. -/
protected def toString : Operand → String
  | var name => name
  | imm value => toString value.toInt

instance : ToString Operand :=
  ⟨Operand.toString⟩

end Operand

namespace BinOp

/-- All binary operations. -/
def all : List BinOp :=
  [add, sub, mul, div, rem, and, or, xor, eq, ne, lt, le, gt, ge]

/-- The word that stands for an operation. -/
def mnemonic : BinOp → String
  | add => "add"
  | sub => "sub"
  | mul => "mul"
  | div => "div"
  | rem => "rem"
  | and => "and"
  | or => "or"
  | xor => "xor"
  | eq => "eq"
  | ne => "ne"
  | lt => "lt"
  | le => "le"
  | gt => "gt"
  | ge => "ge"

/-- The operation that a word stands for. -/
def ofMnemonic? (word : String) : Option BinOp :=
  all.find? (·.mnemonic == word)

theorem ofMnemonic?_mnemonic (op : BinOp) : ofMnemonic? op.mnemonic = some op := by
  cases op <;> decide

theorem mnemonic_of_ofMnemonic? {word : String} {op : BinOp} (h : ofMnemonic? word = some op) :
    op.mnemonic = word := by
  simpa using List.find?_some h

end BinOp

namespace Inst

/-- The places an instruction writes. -/
def defs : Inst → List Place
  | const dest _ | copy dest _ | param dest _ | binary _ dest _ _ | load dest _ => [.loc dest]
  | call dest _ _ => dest.toList.map .loc
  | store global _ => [.glob global]
  | nop | jump _ | brif _ _ _ | ret _ => []

/-- The operands of an instruction, in the order in which they are written. -/
def operands : Inst → List Operand
  | copy _ src => [src]
  | binary _ _ lhs rhs => [lhs, rhs]
  | store _ value => [value]
  | call _ _ args => args
  | brif condition _ _ => [condition]
  | ret value => value.toList
  | const _ _ | param _ _ | load _ _ | nop | jump _ => []

/-- The places an instruction reads: the global it loads, or the variables among its operands. -/
def uses (inst : Inst) : List Place :=
  match inst with
  | load _ global => [.glob global]
  | _ => (inst.operands.filterMap Operand.var?).map .loc

/-- The blocks an instruction may branch to. -/
def targets : Inst → List UInt32
  | jump target => [target]
  | brif _ onTrue onFalse => [onTrue, onFalse]
  | _ => []

/-- Whether control never goes on to what is written next. -/
def isTerminator : Inst → Bool
  | jump _ | brif _ _ _ | ret _ => true
  | _ => false

/-- The number of a block as it is written. -/
def blockName (index : UInt32) : String :=
  "block" ++ toString index.toNat

/-- A call without the variable that takes its result. -/
def callText (callee : String) (args : List Operand) : String :=
  "call %" ++ callee ++ "(" ++ ", ".intercalate (args.map Operand.toString) ++ ")"

/-- The printed form of an instruction. -/
protected def toString : Inst → String
  | const dest value => dest ++ " = const " ++ toString value.toInt
  | copy dest src => dest ++ " = copy " ++ src.toString
  | param dest index => dest ++ " = param " ++ toString index.toNat
  | binary op dest lhs rhs =>
    dest ++ " = " ++ op.mnemonic ++ " " ++ lhs.toString ++ ", " ++ rhs.toString
  | load dest global => dest ++ " = load @" ++ global
  | store global value => "store @" ++ global ++ ", " ++ value.toString
  | call none callee args => callText callee args
  | call (some dest) callee args => dest ++ " = " ++ callText callee args
  | nop => "nop"
  | jump target => "jump " ++ blockName target
  | brif condition onTrue onFalse =>
    "brif " ++ condition.toString ++ ", " ++ blockName onTrue ++ ", " ++ blockName onFalse
  | ret none => "return"
  | ret (some value) => "return " ++ value.toString

instance : ToString Inst :=
  ⟨Inst.toString⟩

end Inst

end DefiniteAssignment
