/-
  Loading a file and all that it imports.

  `Loading.load` reads a file, drafts it, and goes on with its imports, each
  file once, in the order of the texts.  It stops at the first fault, at the
  first import whose file does not exist, and at the first file that cannot be
  read.
-/
import MessageSchema.Draft.Reading
import MessageSchema.Workspace

namespace MessageSchema

/-- The files that can be read, and those that cannot. -/
structure FileSystem where
  texts : Table String
  /-- files that exist and cannot be read -/
  unreadable : List String
  /-- what is said about a file that cannot be read -/
  refusal : String → String

/-- Whether there is a file. -/
def FileSystem.exists (fs : FileSystem) (path : String) : Bool :=
  fs.texts.contains path || fs.unreadable.contains path

/-- Why a compilation fails. -/
inductive Failure where
  /-- the schema is faulty -/
  | rejected (rejection : Rejection)
  /-- a file could not be read -/
  | unreadable (reason : String)

/-- Why loading stops. -/
inductive Interruption where
  | fault (fault : Fault)
  | unreadable (reason : String)

/-- A workspace that is being filled, and the files read. -/
structure Loading where
  workspace : Workspace
  reads : List String

namespace Loading

/-- Loads imports of a draft one by one; `load` loads a file with a text. -/
def loadImports (fs : FileSystem) (load : String → String → Loading → Loading × Option Interruption)
    (d : Draft) : List Draft.Import → Loading → Loading × Option Interruption
  | [], l => (l, none)
  | i :: is, l =>
    let path := l.workspace.target d i
    if l.workspace.registry.contains path then loadImports fs load d is l
    else if fs.exists path then
      let l := { l with reads := l.reads ++ [path] }
      match fs.texts.find? path with
      | none => (l, some (.unreadable (fs.refusal path)))
      | some text =>
        match load path text l with
        | (l, some e) => (l, some e)
        | (l, none) => loadImports fs load d is l
    else
      (l, some (.fault { cause := .importMissing i.path path, file := d.file, line := i.line }))

/-- Loads a file with a text and all that it imports, down to a depth. -/
def load (fs : FileSystem) : Nat → String → String → Loading → Loading × Option Interruption
  | 0, _, _, l => (l, none)
  | depth + 1, path, text, l =>
    let l := { l with workspace := l.workspace.note (.loading path) }
    match Draft.read path text with
    | .error fault => (l, some (.fault fault))
    | .ok d =>
      let l := { l with workspace := l.workspace.insert path d }
      loadImports fs (load fs depth) d d.imports l

/-- Loads a file with a text and all that it imports: every file is loaded once, so
    no chain of imports is longer than there are files. -/
def run (fs : FileSystem) (path text : String) (l : Loading) : Loading × Option Interruption :=
  load fs (fs.texts.size + 2) path text l

end Loading

end MessageSchema
