import DefiniteAssignment.Dominance.Tree
/-!
# Guaranteed definitions

A local variable is guaranteed to be defined at an instruction if every path from the entry to the
instruction assigns it on the way. This is a flow problem over sets of variables: facts are merged
by intersection, nothing is known at the entry, and everything is assumed elsewhere until it is
refuted.

What a node adds to the variables is its generate set: all locals that the node or any of its
dominators writes. Since control has passed the dominators anyway, this only adds what is true.
Globals have no part in this.
-/

namespace DefiniteAssignment

/-- The guaranteed definitions of all nodes of a graph. -/
structure Guarantees where
  /-- All locals of the graph, ascending. -/
  locals : List String
  /-- The generate set of each node, ascending. -/
  generate : Array (List String)
  /-- What is reported for each node, ascending; `none` where nothing is reported. -/
  results : Array (Option (List String))
  /-- The number of evaluations that the flow problem took. -/
  steps : Nat
  deriving DecidableEq

namespace Guarantees

/-- The set of the places of names in a list of variables. -/
def indexSet (locals : List String) (names : List String) : BitSet :=
  names.foldl
    (fun set name =>
      match locals.idxOf? name with
      | some i => set.insert i
      | none => set)
    (BitSet.empty locals.length)

/-- The variables whose places are in a set. -/
def namesOf (locals : Array String) (set : BitSet) : List String :=
  set.toList.filterMap (locals[·]?)

/-- The locals that each node writes, as sets of places in the list of all locals. -/
def definedSets (g : Graph) : Array BitSet :=
  let locals := g.locals
  g.nodes.map fun node => indexSet locals node.localDefs

/-- The generate set of each node: what its dominators write. -/
def generateSets (g : Graph) (d : Dominators) : Array BitSet :=
  let count := g.locals.length
  let defined := definedSets g
  (Array.range g.size).map fun n =>
    (d.dominatorsOf n).foldl
      (fun set m => set.union (defined[m]?.getD (BitSet.empty count)))
      (BitSet.empty count)

/-- The flow problem for sets over `count` variables. -/
def problem (count : Nat) (generate : Array BitSet) : Flow.Problem BitSet where
  entryFact := BitSet.empty count
  initialFact := BitSet.full count
  merge := BitSet.intersection
  transfer n defined := defined.union (generate[n]?.getD (BitSet.empty count))

/-- What is reported for a node: the variables that flow into it or, if control cannot reach it,
what the policy says. -/
def resultAt (g : Graph) (policy : UnreachablePolicy) (locals : Array String)
    (before : Array BitSet) (n : Nat) : Option (List String) :=
  if g.isReachable n then before[n]?.map (namesOf locals)
  else
    match policy with
    | .exclude => none
    | .top => some locals.toList

/-- Reads the guaranteed definitions off a solution. -/
def ofSolution (g : Graph) (policy : UnreachablePolicy) (generate : Array BitSet)
    (solution : Flow.Solution BitSet) : Guarantees :=
  let locals := g.locals.toArray
  { locals := g.locals
    generate := generate.map (namesOf locals)
    results := (Array.range g.size).map (resultAt g policy locals solution.before)
    steps := solution.steps }

/-- Finds the guaranteed definitions, given dominators for as many nodes as the graph has. -/
def withDominators (g : Graph) (d : Dominators) (config : Config) :
    Logged (Except AnalysisError Guarantees) := do
  -- Dominators of another graph are accepted as long as they name no node beyond this one.
  if d.size ≠ g.size then return .error (.dominatorSize g.size d.size)
  let generate := generateSets g d
  let run := Flow.solve g (problem g.locals.length generate) config.maxIterations
  match ← run.logged g BitSet.toString with
  | .error e => return .error e
  | .ok solution =>
    Logged.note .debug .guarantees
      ("guaranteed definitions: " ++ toString g.size ++ " nodes, " ++
        toString g.locals.length ++ " variables, " ++ toString solution.steps ++ " steps")
    return .ok (ofSolution g config.unreachable generate solution)

/-- Finds the guaranteed definitions of a graph. -/
def compute (g : Graph) (config : Config) : Logged (Except AnalysisError Guarantees) := do
  match ← Dominators.compute g config with
  | .error e => return .error e
  | .ok d => withDominators g d config

/-- What is guaranteed to be defined before a node; `none` where nothing is reported. -/
def definedAt? (r : Guarantees) (n : Nat) : Option (List String) :=
  r.results[n]?.getD none

/-- The locals that the dominators of a node write; `none` for a number that is no node. -/
def generateSet? (r : Guarantees) (n : Nat) : Option (List String) :=
  r.generate[n]?

/-- The number of nodes. -/
def size (r : Guarantees) : Nat :=
  r.results.size

end Guarantees

end DefiniteAssignment
