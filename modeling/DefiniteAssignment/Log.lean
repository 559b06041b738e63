/-!
# Logs

What a computation reports about itself while it works. A `Logged` value is a value together with
the records that lead to it; the records are made only as far down as a reader asks for, so that
a long run costs nothing to those who do not look at its details.
-/

namespace DefiniteAssignment

/-- How important a record is, the gravest first. -/
inductive Level where
  | error | warn | info | debug | trace
  deriving DecidableEq, Repr

/-- The part of the program that a record comes from. -/
inductive Topic where
  | command | report | solver | dominance | guarantees
  deriving DecidableEq, Repr

/-- One record of a log. -/
structure Record where
  level : Level
  topic : Topic
  text : String
  deriving DecidableEq

/-- A value and the records that lead to it, as far down as a given level. -/
structure Logged (α : Type) where
  value : α
  log : Level → List Record

namespace Level

/-- The place of a level in the order from grave to detailed. -/
def rank : Level → Nat
  | error => 1
  | warn => 2
  | info => 3
  | debug => 4
  | trace => 5

/-- The name of a level in a log. -/
def name : Level → String
  | error => "ERROR"
  | warn => "WARN"
  | info => "INFO"
  | debug => "DEBUG"
  | trace => "TRACE"

/-- Whether a reader who asks for records down to `limit` sees those of a level. -/
def shownAt (level limit : Level) : Bool :=
  level.rank ≤ limit.rank

end Level

namespace Topic

/-- The path that stands for a topic in a log line. -/
def path : Topic → String
  | command => "gdef"
  | report => "gdef::driver"
  | solver => "gdef_flow::engine"
  | dominance => "gdef_flow::dominance"
  | guarantees => "gdef_flow::guaranteed"

end Topic

namespace Logged

variable {α β : Type}

instance : Monad Logged where
  pure a := ⟨a, fun _ => []⟩
  bind first next :=
    let second := next first.value
    ⟨second.value, fun limit => first.log limit ++ second.log limit⟩

/-- A single record. -/
def note (level : Level) (topic : Topic) (text : String) : Logged Unit :=
  ⟨(), fun limit => if level.shownAt limit then [⟨level, topic, text⟩] else []⟩

@[simp]
theorem value_pure (a : α) : (pure a : Logged α).value = a := rfl

@[simp]
theorem value_bind (first : Logged α) (next : α → Logged β) :
    (first >>= next).value = (next first.value).value := rfl

@[simp]
theorem log_bind (first : Logged α) (next : α → Logged β) (limit : Level) :
    (first >>= next).log limit = first.log limit ++ (next first.value).log limit := rfl

end Logged

end DefiniteAssignment
