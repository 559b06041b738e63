import DefiniteAssignment.Flow.Problem
import DefiniteAssignment.Log
/-!
# The worklist solver

The solver evaluates the nodes of a queue until the queue is empty. It starts with the reachable
nodes in reverse post order; when the output of a node changes, its successors are queued again,
unless they are waiting already. A run may take so many evaluations and no more.

A run is a sequence of states, each made from the last by `State.step`; `run` follows it until the
queue is empty or the limit is reached, and keeps a trail of all evaluations.
-/

namespace DefiniteAssignment

/-- Why an analysis gave no answer. -/
inductive AnalysisError where
  /-- The nodes did not settle within the steps allowed. -/
  | divergence (steps limit : Nat)
  /-- The facts to start from are those of a graph of another size. -/
  | seedSize (expected found : Nat)
  /-- The dominators are those of a graph of another size. -/
  | dominatorSize (expected found : Nat)
  deriving DecidableEq

/-- The error as it is shown to a user. -/
def AnalysisError.message : AnalysisError → String
  | divergence steps limit =>
    "analysis did not converge after " ++ toString steps ++ " steps (limit " ++ toString limit ++
      ")"
  | seedSize expected found => covers "seed result" expected found
  | dominatorSize expected found => covers "dominator set" expected found
where
  /-- Says that something has another number of nodes than the graph. -/
  covers (what : String) (expected found : Nat) : String :=
    what ++ " covers " ++ toString found ++ " nodes but the graph has " ++ toString expected

namespace Flow

variable {F : Type} [DecidableEq F]

/-- The solver between two evaluations. -/
structure State (F : Type) where
  before : Array F
  after : Array F
  /-- The nodes that wait to be evaluated. -/
  queue : List Nat
  /-- Which nodes wait. -/
  queued : Array Bool
  /-- The evaluations so far, the latest first. -/
  trail : List (Event F)

/-- A run: what it came to, and its evaluations in order. -/
structure Run (F : Type) where
  outcome : Except AnalysisError (Solution F)
  events : List (Event F)

namespace State

/-- Lets nodes wait that do not wait already. -/
def enqueue (s : State F) (nodes : List Nat) : State F :=
  nodes.foldl
    (fun s n =>
      if s.queued[n]? = some false then
        { s with queue := s.queue ++ [n], queued := s.queued.setIfInBounds n true }
      else s)
    s

/-- Evaluates a node. -/
def evaluate (s : State F) (g : Graph) (p : Problem F) (n : Nat) : State F :=
  let input := p.inputAt g s.after n
  let output := p.transfer n input
  let changed := s.after[n]? != some output
  -- The node stops waiting before its successors are queued, so that it can queue itself.
  let evaluated : State F :=
    { before := s.before.setIfInBounds n input
      after := s.after.setIfInBounds n output
      queue := s.queue
      queued := s.queued.setIfInBounds n false
      trail := ⟨n, input, output, changed⟩ :: s.trail }
  if changed then evaluated.enqueue (g.succ n) else evaluated

/-- Evaluates the node that has waited longest. -/
def step (s : State F) (g : Graph) (p : Problem F) : State F :=
  match s.queue with
  | [] => s
  | n :: rest => { s with queue := rest }.evaluate g p n

/-- The state in which a run starts: all reachable nodes wait. -/
def start (g : Graph) (before after : Array F) : State F :=
  { before, after
    queue := g.reversePostOrder
    queued := g.reversePostOrder.foldl (fun queued n => queued.setIfInBounds n true)
      (Array.replicate g.size false)
    trail := [] }

/-- The number of evaluations so far. -/
def steps (s : State F) : Nat :=
  s.trail.length

end State

/-- Follows a run for at most `fuel` more evaluations. -/
def run (g : Graph) (p : Problem F) (limit : Nat) : Nat → State F → Run F
  | 0, s =>
    if s.queue.isEmpty then ⟨.ok ⟨s.before, s.after, s.steps⟩, s.trail.reverse⟩
    else ⟨.error (.divergence s.steps limit), s.trail.reverse⟩
  | fuel + 1, s =>
    if s.queue.isEmpty then ⟨.ok ⟨s.before, s.after, s.steps⟩, s.trail.reverse⟩
    else run g p limit fuel (s.step g p)

/-- Solves a problem from its initial facts. -/
def solve (g : Graph) (p : Problem F) (limit : Nat) : Run F :=
  run g p limit limit <|
    .start g (Array.replicate g.size p.initialFact) (Array.replicate g.size p.initialFact)

/-- Solves a problem from the facts of an earlier solution, which must be of as many nodes. -/
def solveFrom (g : Graph) (p : Problem F) (limit : Nat) (seed : Solution F) : Run F :=
  if seed.before.size = g.size then run g p limit limit (.start g seed.before seed.after)
  else ⟨.error (.seedSize g.size seed.before.size), []⟩

namespace Event

/-- The record of an evaluation, with facts written by `render`. -/
def record (render : F → String) (e : Event F) : Record :=
  ⟨.trace, .solver,
    "node " ++ toString e.node ++ ": in " ++ render e.input ++ " out " ++ render e.output ++
      " changed " ++ toString e.changed⟩

end Event

namespace Run

/-- The record of how a run ended. An empty graph leaves none, nor does a run that never began. -/
def endRecord? (g : Graph) (r : Run F) : Option Record :=
  if g.size = 0 then none
  else
    match r.outcome with
    | .ok solution =>
      some ⟨.debug, .solver,
        "flow analysis converged: " ++ toString g.size ++ " nodes (" ++
          toString g.reversePostOrder.length ++ " reachable) in " ++ toString solution.steps ++
          " steps"⟩
    | .error (.divergence _ limit) =>
      some ⟨.warn, .solver,
        "flow analysis exceeded " ++ toString limit ++ " steps on a graph of " ++ toString g.size ++
          " nodes"⟩
    | .error _ => none

/-- The outcome of a run with its log: one record for each evaluation and one for its end. -/
def logged (g : Graph) (render : F → String) (r : Run F) :
    Logged (Except AnalysisError (Solution F)) :=
  ⟨r.outcome, fun limit =>
    (if Level.trace.shownAt limit then r.events.map (Event.record render) else []) ++
      (r.endRecord? g).toList.filter (·.level.shownAt limit)⟩

end Run

end Flow

end DefiniteAssignment
