/-
  Models of drafts.
-/
import MessageSchema.Model.Fields
import MessageSchema.Workspace

namespace MessageSchema

namespace Model

/-- A compound with its qualified name. -/
def Compound.ofDraft (name : String) (c : Draft.Compound) : Compound :=
  ⟨c.name, name, c.base, c.components, c.origin⟩

/-- What the declarations of a draft became, by qualified name. -/
structure Entities where
  messages : Table Message
  enums : Table Enumeration
  compounds : Table Compound

/-- The entities that some declarations of the namespace `home` became. -/
def pick {α : Type} (home : String) (built : Table α) (names : List String) : List α :=
  names.filterMap fun n => built.find? (QualifiedName.join (some home) n)

/-- A namespace of a draft with the declarations built for it. -/
def namespaceOf (arena : List Draft.Namespace) (es : Entities) (i : Nat) (ns : Draft.Namespace) :
    Namespace :=
  let home := Index.nameOf arena i ns
  { toNotes := ns.toNotes
    name := ns.name
    qualified := home
    parent := ns.parent
    children := ns.scope.children
    messages := pick home es.messages (ns.scope.messages.map (·.name))
    enums := pick home es.enums (ns.scope.enums.map (·.name))
    options := pick home es.enums (ns.scope.options.map (·.name))
    compounds := pick home es.compounds (ns.scope.compounds.map (·.name))
    file := ns.file
    line := ns.line }

/-- The fault of a draft that declares something outside any namespace. -/
def outsideFaults (d : Draft) : List Fault :=
  match declarationsOf d.top with
  | [] => []
  | x :: _ => [faultAt x.origin (.outsideNamespace x.name)]

/-- The compounds among declarations. -/
def compoundsOf (declared : Table Declaration) : Table Compound :=
  declared.entries.foldl (fun t d =>
    match d.2.compound? with
    | some c => t.insert d.1 (.ofDraft d.1 c)
    | none => t) .empty

/-- The model of a draft, given the files of its imports, and its faults. -/
def ofDraft (lib : Library) (d : Draft) (imports : Table String) : Model × List Fault :=
  let ix := Index.ofDraft d
  let b : Binder := ⟨d.file, ix.declared, Binder.importedModels lib imports⟩
  let enums := b.enumerations
  let (messages, messageFaults) := b.messages enums.finished
  let es : Entities := ⟨messages, enums.finished, compoundsOf ix.declared⟩
  ({ file := d.file
     stem := d.stem
     namespaces := d.arena.mapIdx fun i ns => namespaceOf d.arena es i ns
     roots := d.top.children
     imports },
    outsideFaults d ++ ix.faults ++ importedNamespaceFaults lib d ix.namespaces.keys imports
      ++ enums.faults ++ b.messageCycleFaults ++ messageFaults)

end Model

/-! ## Several files -/

/-- The state of a build: the models so far, the faults found, the files that
    failed, and what has happened. -/
structure Build where
  library : Library
  faults : List Fault := []
  failed : List String := []
  events : List Event := []

namespace Build

/-- Notes the faults of a file whose model could not be built. -/
def fail (b : Build) (file : String) (faults : List Fault) : Build :=
  { b with faults := b.faults ++ faults, failed := file :: b.failed }

/-- Builds one more import; with the files of the imports that are built, by their
    keys, and whether all are. -/
def addImport (build : Draft → Build → Build × Bool) :
    Build × Table String × Bool → String × Draft → Build × Table String × Bool
  | (b, done, ok), (key, d) =>
    match build d b with
    | (b, true) => (b, done.insert key d.file, ok)
    | (b, false) => (b, done, false)

/-- Builds a draft after all that it imports, down to a depth; `chain` are the files
    that wait for it.  Tells whether its model is in the library. -/
def file (w : Workspace) : Nat → List String → Draft → Build → Build × Bool
  | 0, _, _, b => (b, false)
  | depth + 1, chain, d, b =>
    if b.library.contains d.file then (b, true)
    else if b.failed.contains d.file then (b, false)
    else if chain.contains d.file then
      let cycle := chain.dropWhile (· ≠ d.file) ++ [d.file]
      (b.fail d.file [{ cause := .importCycle cycle, file := d.file, line := 0 }], false)
    else
      -- all imports are built, even after one has failed
      match (w.attachedTo d).foldl (addImport (file w depth (chain ++ [d.file])))
          (b, .empty, true) with
      | (b, _, false) => (b.fail d.file [], false)
      | (b, done, true) =>
        match Model.ofDraft b.library d done with
        | (m, []) =>
          ({ b with
              library := b.library.insert d.file m
              events := b.events ++ [.built d.file] }, true)
        | (_, faults) => (b.fail d.file faults, false)

/-- Builds a draft: the library with the models that could be built, what happened,
    and the faults if there are any. -/
def run (w : Workspace) (lib : Library) (d : Draft) :
    Library × List Event × Except Rejection Unit :=
  let (b, ok) := file w (w.drafts.length + 1) [] d { library := lib }
  if ok && b.faults.isEmpty then (b.library, b.events, .ok ())
  else
    (b.library, b.events ++ [.failed d.file b.faults.length], .error ⟨b.faults⟩)

end Build

end MessageSchema
