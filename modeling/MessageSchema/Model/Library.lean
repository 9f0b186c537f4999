/-
  Libraries: the models of files that import each other.
-/
import MessageSchema.Model

namespace MessageSchema

/-- The models of files. -/
abbrev Library := Table Model

namespace Library

/-- Adds a file and what it imports to the files already listed, down to a depth. -/
def reachFrom (lib : Library) : Nat → List String → String → List String
  | 0, seen, _ => seen
  | depth + 1, seen, file =>
    if seen.contains file then seen
    else
      match lib.find? file with
      | none => seen
      | some m => m.imports.values.foldl (reachFrom lib depth) (seen ++ [file])

/-- The files reachable from a file.  No chain of imports without repetition is
    longer than the library. -/
def reachableFiles (lib : Library) (file : String) : List String :=
  reachFrom lib (lib.size + 1) [] file

/-- The models of the files that a file reaches. -/
def reachable (lib : Library) (file : String) : List Model :=
  (reachableFiles lib file).filterMap lib.find?

/-- The entity with a qualified name in a file or a file that it imports, directly
    or not. -/
def lookup? (lib : Library) (file name : String) : Option Model.Entity :=
  (reachable lib file).findSome? fun m => m.own? name

/-- The entity that a reference names, if it is of the right kind. -/
def resolve? (lib : Library) (file : String) (ref : TypeRef) : Option Model.Entity :=
  (lookup? lib file ref.name).filter fun e => e.kind = ref.kind

/-- The message that a name denotes in a file. -/
def message? (lib : Library) (file name : String) : Option Model.Message :=
  (lookup? lib file name).bind Model.Entity.message?

/-- The enumeration that a name denotes in a file. -/
def enumeration? (lib : Library) (file name : String) : Option Model.Enumeration :=
  (lookup? lib file name).bind Model.Entity.enumeration?

/-- The compound that a name denotes in a file. -/
def compound? (lib : Library) (file name : String) : Option Model.Compound :=
  (lookup? lib file name).bind Model.Entity.compound?

/-- The fields of a message after those of its ancestors, as far as no ancestor
    comes again, up to so many ancestors. -/
def fieldsFrom (lib : Library) (file : String) :
    Nat → List String → Model.Message → List Model.Field
  | 0, _, _ => []
  | depth + 1, seen, m =>
    if seen.contains m.qualified then []
    else
      match m.parent.bind fun ref => message? lib file ref.name with
      | none => m.fields
      | some p => fieldsFrom lib file depth (m.qualified :: seen) p ++ m.fields

/-- The number of declarations of all files. -/
def entityCount (lib : Library) : Nat := (lib.values.flatMap Model.entities).length

/-- The fields of a message, those of its ancestors first. -/
def allFields (lib : Library) (file : String) (m : Model.Message) : List Model.Field :=
  fieldsFrom lib file (entityCount lib + 1) [] m

end Library

end MessageSchema
