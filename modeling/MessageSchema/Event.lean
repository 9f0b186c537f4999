/-
  What the compiler reports while it works.

  An event is written as a template with its arguments, at a level of
  importance.
-/

namespace MessageSchema

/-- What happens in a compilation. -/
inductive Event where
  /-- a file is about to be read -/
  | loading (path : String)
  /-- a pass is about to run on a file -/
  | running (pass file : String)
  /-- the model of a file is complete -/
  | built (file : String)
  /-- the model of a file could not be built, for so many faults -/
  | failed (file : String) (faults : Nat)
  /-- a file and all that it imports is compiled -/
  | compiled (file : String) (files : Nat)
  /-- a fault ended the compilation -/
  | stopped (fault : String)
  deriving DecidableEq, Repr

namespace Event

/-- How grave an event is. -/
def level : Event → String
  | loading _ | running _ _ | built _ => "debug"
  | compiled _ _ => "info"
  | failed _ _ | stopped _ => "warn"

/-- How an event is written, with places for its arguments. -/
def template : Event → String
  | loading _ => "[wiredef] loading %s"
  | running _ _ => "[wiredef] %s: %s"
  | built _ => "[wiredef] built model for %s"
  | failed _ _ => "[wiredef] %s: compilation failed with %d error(s)"
  | compiled _ _ => "[wiredef] compiled %s (%d file(s))"
  | stopped _ => "[wiredef] %s"

/-- The texts among the arguments of an event, which come first. -/
def texts : Event → List String
  | loading path => [path]
  | running pass file => [pass, file]
  | built file | failed file _ | compiled file _ => [file]
  | stopped fault => [fault]

/-- The number among the arguments of an event, which comes last. -/
def count? : Event → Option Nat
  | failed _ n | compiled _ n => some n
  | _ => none

end Event

end MessageSchema
