/-
  The file-level namespace.

  `Draft.wrap` moves everything that a file declares into one namespace named
  after the file, which becomes the last of the arena.  A file that consists of
  such a namespace already is left alone, so wrapping twice is wrapping once.
-/
import MessageSchema.Draft

namespace MessageSchema

/-- The origin of what now stands in the namespace `home`. -/
def Origin.moveTo (home : String) (o : Origin) : Origin := { o with home }

namespace Draft

/-- The index of the file-level namespace, if the file has one outermost namespace
    of that name. -/
def rootIndex? (d : Draft) : Option Nat :=
  match d.top.children with
  | [i] =>
    match d.arena[i]? with
    | some ns => if ns.name = d.stem then some i else none
    | none => none
  | _ => none

/-- Whether everything in a file is inside its file-level namespace. -/
def isWrapped (d : Draft) : Bool := d.top.declaresNothing && d.rootIndex?.isSome

/-- Moves the declarations of a scope to the namespace `home`. -/
def Scope.moveTo (home : String) (s : Scope) : Scope :=
  { s with
    messages := s.messages.map fun m => { m with origin := m.origin.moveTo home }
    enums := s.enums.map fun e => { e with origin := e.origin.moveTo home }
    options := s.options.map fun e => { e with origin := e.origin.moveTo home }
    compounds := s.compounds.map fun c => { c with origin := c.origin.moveTo home } }

/-- Puts the namespaces with some indices into the namespace with index `parent`. -/
def adopt (parent : Nat) (children : List Nat) (arena : List Namespace) : List Namespace :=
  children.foldl (fun arena i => arena.modify i fun ns => { ns with parent := some parent }) arena

/-- Puts everything that a file declares into its file-level namespace. -/
def wrap (d : Draft) : Draft :=
  if d.isWrapped then d
  else
    let index := d.arena.length
    let root : Namespace :=
      ⟨.none, d.stem, none, none, d.file, 1, d.top.moveTo d.stem⟩
    { d with
      top := { children := [index] }
      arena := adopt index d.top.children d.arena ++ [root] }

end Draft

end MessageSchema
