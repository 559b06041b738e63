import DefiniteAssignment.Guarantee.Analysis
/-!
# Reports

The text of the guaranteed definitions of a graph, in two layouts. The compact one has a line for
each node, `inst3: [a, b]`; the full one has three, for the instruction, for the locals it reads and
for what is guaranteed before it.
-/

namespace DefiniteAssignment

/-- The layout of a report. -/
inductive ReportStyle where
  | compact
  | full
  deriving DecidableEq, Repr

namespace Report

/-- Names in brackets, with commas between them. -/
def nameList (names : List String) : String :=
  "[" ++ ", ".intercalate names ++ "]"

/-- What is guaranteed at a node; one without an answer is called unreachable. -/
def guaranteed (defined : Option (List String)) : String :=
  match defined with
  | some names => nameList names
  | none => "unreachable"

/-- The name of a node. -/
def nodeName (n : Nat) : String :=
  "inst" ++ toString n

/-- The line of a node in the compact layout. -/
def compactEntry (r : Guarantees) (n : Nat) : String :=
  nodeName n ++ ": " ++ guaranteed (r.definedAt? n) ++ "\n"

/-- The lines of a node in the full layout. -/
def fullEntry (r : Guarantees) (node : Node) (n : Nat) : String :=
  (match node.block with
    | some block => nodeName n ++ " (block" ++ toString block ++ "): " ++ node.text ++ "\n"
    | none => nodeName n ++ ": " ++ node.text ++ "\n") ++
  "    uses: " ++ nameList (Ascending.ofList node.localUses) ++ "\n" ++
  "    guaranteed: " ++ guaranteed (r.definedAt? n) ++ "\n"

/-- The report of a graph. -/
def render (g : Graph) (r : Guarantees) (style : ReportStyle) : String :=
  String.join <| g.nodes.toList.zipIdx.map fun (node, n) =>
    match style with
    | .compact => compactEntry r n
    | .full => fullEntry r node n

end Report

end DefiniteAssignment
