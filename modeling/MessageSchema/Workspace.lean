/-
  Workspaces: the drafts of several files and how they import each other.

  A workspace keeps every draft that was ever opened, under its number, and a
  registry of the draft that each path stands for now.  A draft keeps the
  drafts attached to it even if their paths come to stand for others.

  A pass changes one draft, or breaks down; what it changed before it broke
  down stays.
-/
import MessageSchema.Draft.Attachment
import MessageSchema.Draft.Promotion
import MessageSchema.Draft.Resolution
import MessageSchema.Draft.Separators
import MessageSchema.Event
import MessageSchema.Path

namespace MessageSchema

/-- The drafts of a compilation. -/
structure Workspace where
  /-- every draft opened, by number -/
  drafts : List Draft
  /-- the drafts that paths stand for, in order of first opening -/
  registry : Table DraftId
  /-- what import paths without an extension get -/
  extension : String
  /-- what has happened -/
  events : List Event

namespace Workspace

/-- A workspace without drafts. -/
def empty (extension : String) : Workspace := ⟨[], .empty, extension, []⟩

/-- The draft that has a number. -/
def draft? (w : Workspace) (id : DraftId) : Option Draft := w.drafts[id]?

/-- Opens a draft for a path. -/
def insert (w : Workspace) (path : String) (d : Draft) : Workspace :=
  { w with drafts := w.drafts ++ [d], registry := w.registry.insert path w.drafts.length }

/-- Forgets which draft a path stands for. -/
def drop (w : Workspace) (path : String) : Workspace := { w with registry := w.registry.erase path }

/-- Notes an event. -/
def note (w : Workspace) (e : Event) : Workspace := { w with events := w.events ++ [e] }

/-- The file that an import leads to. -/
def target (w : Workspace) (d : Draft) (i : Draft.Import) : String :=
  Path.ofImport w.extension d.file i.path

/-- The draft that an import leads to. -/
def imported? (w : Workspace) (d : Draft) (i : Draft.Import) : Option DraftId :=
  w.registry.find? (w.target d i)

/-- The drafts attached to a draft, by import key. -/
def attachedTo (w : Workspace) (d : Draft) : List (String × Draft) :=
  d.attached.entries.filterMap fun e => (w.draft? e.2).map fun x => (e.1, x)

end Workspace

/-! ## Passes -/

/-- Why a pass broke down. -/
inductive Breakdown where
  | fault (fault : Fault)
  /-- for a reason that is no fault of the schema -/
  | other (reason : String)

/-- A pass over a draft. -/
structure Pass where
  name : String
  run : Workspace → Draft → Draft × Option Breakdown

namespace Pass

/-- The pass that puts all declarations into a namespace of the file. -/
def wrap : Pass := ⟨"add-file-level-namespace", fun _ d => (d.wrap, none)⟩

/-- The pass that links imports to drafts. -/
def attach : Pass :=
  ⟨"attach-imported-models", fun w d =>
    let (d', fault) := d.attach (w.imported? d)
    (d', fault.map .fault)⟩

/-- The pass that writes all separators as colons. -/
def useColons : Pass := ⟨"canonicalize-colons", fun _ d => (d.useColons, none)⟩

/-- Replaces names by the qualified names of what they denote. -/
def resolve : Pass :=
  ⟨Draft.resolutionName, fun w d =>
    match d.resolve (w.attachedTo d) with
    | .ok d' => (d', none)
    | .error fault => (d, some (.fault fault))⟩

/-- The pass that declares the enumerations written in fields. -/
def promote : Pass :=
  ⟨"promote-inline-enums", fun _ d =>
    let (d', fault) := d.promote
    (d', fault.map .fault)⟩

/-- The passes for a file alone. -/
def single : List Pass := [wrap, useColons, resolve, promote]

/-- The passes for a file with imports. -/
def multi : List Pass := [wrap, attach, useColons, resolve, promote]

end Pass

namespace Workspace

/-- Runs a pass on a draft. -/
def runPass (w : Workspace) (p : Pass) (id : DraftId) : Workspace × Option Breakdown :=
  match w.draft? id with
  | none => (w, none)
  | some d =>
    let (d', breakdown) := p.run w d
    ({ w with drafts := w.drafts.set id d' }, breakdown)

/-- The file of a draft. -/
def fileOf (w : Workspace) (id : DraftId) : String := ((w.draft? id).map (·.file)).getD ""

/-- The fault that a breakdown is reported as. -/
def faultOf (w : Workspace) (p : Pass) (id : DraftId) : Breakdown → Fault
  | .fault fault => fault
  | .other reason => { cause := .passFailed p.name reason, file := w.fileOf id, line := 0 }

/-- Runs passes on a draft one after the other, up to the first that breaks down. -/
def refine (id : DraftId) : List Pass → Workspace → Workspace × Option Fault
  | [], w => (w, none)
  | p :: ps, w =>
    let (w', breakdown) := (w.note (.running p.name (w.fileOf id))).runPass p id
    match breakdown with
    | some b => (w', some (w'.faultOf p id b))
    | none => refine id ps w'

/-- Runs passes on several drafts one after the other, up to the first breakdown. -/
def refineEach (ps : List Pass) : List DraftId → Workspace → Workspace × Option Fault
  | [], w => (w, none)
  | id :: ids, w =>
    match refine id ps w with
    | (w', some fault) => (w', some fault)
    | (w', none) => refineEach ps ids w'

end Workspace

end MessageSchema
