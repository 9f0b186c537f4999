/-
  Compiling schemas.

  `Compilation.ofText` loads a text and all that it imports, refines the drafts
  in the order of their imports, and builds the model of the text.
  `Compilation.ofFile` does the same for a file.
-/
import MessageSchema.Model.Build
import MessageSchema.Workspace.Loading
import MessageSchema.Workspace.Order

namespace MessageSchema

/-- A compilation: the file compiled, the models built or the failure, the files
    read, and what happened. -/
structure Compilation where
  file : String
  result : Except Failure Library
  reads : List String
  events : List Event

namespace Compilation

/-- The file that a text is taken for if none is given. -/
def defaultFile : String := "schema.def"

/-- A compilation that ends with a fault of the schema. -/
def stop (file : String) (l : Loading) (fault : Fault) : Compilation :=
  ⟨file, .error (.rejected ⟨[fault]⟩), l.reads, l.workspace.events ++ [.stopped fault.format]⟩

/-- Builds the model of a file whose workspace is refined. -/
def build (file : String) (l : Loading) : Compilation :=
  let w := l.workspace
  match (w.registry.find? file).bind w.draft? with
  | none => ⟨file, .ok .empty, l.reads, w.events⟩
  | some d =>
    match Build.run w .empty d with
    | (_, events, .error r) => ⟨file, .error (.rejected r), l.reads, w.events ++ events⟩
    | (lib, events, .ok ()) =>
      ⟨file, .ok lib, l.reads, w.events ++ events ++ [.compiled file lib.size]⟩

/-- Compiles a text that stands for a file; `reads` are the files read before. -/
def ofTextAfter (reads : List String) (fs : FileSystem) (extension file text : String) :
    Compilation :=
  match Loading.run fs file text ⟨.empty extension, reads⟩ with
  | (l, some (.fault fault)) => stop file l fault
  | (l, some (.unreadable reason)) =>
    ⟨file, .error (.unreadable reason), l.reads, l.workspace.events⟩
  | (l, none) =>
    match l.workspace.refineAll with
    | (w, .error fault) => stop file { l with workspace := w } fault
    | (w, .ok _) => build file { l with workspace := w }

/-- Compiles a text that stands for a file, whose imports are read from `fs`. -/
def ofText (fs : FileSystem) (extension path text : String) : Compilation :=
  ofTextAfter [] fs extension (Path.absolute path) text

/-- Compiles a file of the file system. -/
def ofFile (fs : FileSystem) (extension path : String) : Compilation :=
  let file := Path.absolute path
  match fs.texts.find? file with
  | none => ⟨file, .error (.unreadable (fs.refusal file)), [file], []⟩
  | some text => ofTextAfter [file] fs extension file text

end Compilation

end MessageSchema
