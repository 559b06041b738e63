import DefiniteAssignment.NameTable
import DefiniteAssignment.Program.Function
/-!
# Modules

A module holds functions by name and may name one of them as its entry.

Main statements: adding a function keeps the table keyed by the functions' own names
(`Module.KeyedByName`), and an entry can only be set to a function that is there.
-/

namespace DefiniteAssignment

/-- Functions by name, and the name of the entry function. -/
structure Module where
  functions : NameTable Function
  entry : Option String
  deriving DecidableEq

namespace Module

/-- The module without functions. -/
def empty : Module :=
  ⟨NameTable.empty, none⟩

/-- Stores a function under its name, in place of the one that had the name. -/
def add (m : Module) (f : Function) : Module :=
  { m with functions := m.functions.insert f.name f }

/-- The function of a name. -/
def find? (m : Module) (name : String) : Option Function :=
  m.functions.find? name

/-- Stores a function under its name, and gives the function that had the name before. -/
def findThenAdd (m : Module) (f : Function) : Option Function × Module :=
  (m.find? f.name, m.add f)

/-- Makes a function the entry; `none` if the module has no function of that name. -/
def setEntry? (m : Module) (name : String) : Option Module :=
  if m.functions.contains name then some { m with entry := some name } else none

/-- The entry function, if an entry is named and is there. -/
def entryFunction? (m : Module) : Option Function :=
  m.entry.bind m.find?

/-- The printed form of a module: the entry, then the functions in the order of their names. -/
protected def toString (m : Module) : String :=
  "module \x7b\n" ++
    (match m.entry with
      | some name => "entry: %" ++ name ++ "\n"
      | none => "") ++
    String.join (m.functions.values.map fun f => f.toString ++ "\n") ++ "\x7d"

instance : ToString Module :=
  ⟨Module.toString⟩

/-- Every function is stored under its own name. -/
def KeyedByName (m : Module) : Prop :=
  ∀ entry ∈ m.functions.entries, entry.1 = entry.2.name

theorem keyedByName_empty : empty.KeyedByName := by
  simp [KeyedByName, empty, NameTable.empty]

theorem KeyedByName.add {m : Module} (h : m.KeyedByName) (f : Function) :
    (m.add f).KeyedByName := by
  intro entry hmem
  rcases Ascending.key_mem_insertBy hmem with rfl | hmem
  · rfl
  · exact h entry hmem

theorem find?_add (m : Module) (f : Function) (name : String) :
    (m.add f).find? name = if name = f.name then some f else m.find? name :=
  NameTable.find?_insert m.functions f.name name f

end Module

end DefiniteAssignment
