/-!
# Configuration

The settings of an analysis: how many steps it may take, what is reported for instructions that
control cannot reach, and which of the two dominator algorithms is used.
-/

namespace DefiniteAssignment

/-- What is reported for nodes that cannot be reached. -/
inductive UnreachablePolicy where
  /-- Nothing is reported. -/
  | exclude
  /-- Every variable is reported. -/
  | top
  deriving DecidableEq, Repr

/-- How dominators are found. -/
inductive DominatorAlgorithm where
  /-- By solving for dominator sets with the flow solver. -/
  | iterative
  /-- By passes over immediate dominators. -/
  | cooper
  deriving DecidableEq, Repr

/-- The settings of an analysis. -/
structure Config where
  maxIterations : Nat := 1000000
  unreachable : UnreachablePolicy := .exclude
  dominators : DominatorAlgorithm := .iterative
  deriving DecidableEq, Repr

/-- A word that names none of the values of a setting. -/
structure UnknownName where
  setting : String
  word : String
  expected : List String
  deriving DecidableEq

/-- The error as it is shown to a user. -/
def UnknownName.message (e : UnknownName) : String :=
  "unknown " ++ e.setting ++ " `" ++ e.word ++ "` (expected one of: " ++
    ", ".intercalate e.expected ++ ")"

/-- The value of a setting that a word names, of values that each have a name. -/
def named {α : Type} (setting : String) (values : List α) (name : α → String) (word : String) :
    Except UnknownName α :=
  match values.find? (name · == word) with
  | some value => .ok value
  | none => .error ⟨setting, word, values.map name⟩

namespace UnreachablePolicy

/-- The word for a policy. -/
def name : UnreachablePolicy → String
  | exclude => "exclude"
  | top => "top"

/-- The policy that a word names. -/
def ofName : String → Except UnknownName UnreachablePolicy :=
  named "unreachable policy" [exclude, top] name

theorem ofName_name (p : UnreachablePolicy) : ofName p.name = .ok p := by
  cases p <;> rfl

end UnreachablePolicy

namespace DominatorAlgorithm

/-- The word for an algorithm. -/
def name : DominatorAlgorithm → String
  | iterative => "iterative"
  | cooper => "cooper"

/-- The algorithm that a word names. -/
def ofName : String → Except UnknownName DominatorAlgorithm :=
  named "dominator algorithm" [iterative, cooper] name

theorem ofName_name (a : DominatorAlgorithm) : ofName a.name = .ok a := by
  cases a <;> rfl

end DominatorAlgorithm

end DefiniteAssignment
