/-
  The declarations of a draft by qualified name.
-/
import MessageSchema.Draft.Walk
import MessageSchema.Fault
import MessageSchema.Model.Library

namespace MessageSchema.Model

/-- Anything that a draft declares under a name, namespaces apart. -/
inductive Declaration where
  | message (message : Draft.Message)
  | enumeration (enumeration : Draft.Enumeration)
  | compound (compound : Draft.Compound)

namespace Declaration

/-- The name of a declaration. -/
def name : Declaration → String
  | message m => m.name
  | enumeration e => e.name
  | compound c => c.name

/-- Where a declaration stands. -/
def origin : Declaration → Origin
  | message m => m.origin
  | enumeration e => e.origin
  | compound c => c.origin

/-- The kind of a declaration. -/
def kind : Declaration → EntityKind
  | message _ => .message
  | enumeration e => if e.kind = .flags then .options else .enumeration
  | compound _ => .compound

/-- The declaration if it is a message. -/
def message? : Declaration → Option Draft.Message
  | message m => some m
  | _ => none

/-- The declaration if it is an enumeration or a set of flags. -/
def enumeration? : Declaration → Option Draft.Enumeration
  | enumeration e => some e
  | _ => none

/-- The declaration if it is a compound. -/
def compound? : Declaration → Option Draft.Compound
  | compound c => some c
  | _ => none

end Declaration

/-- A fault at the place of a declaration. -/
def faultAt (o : Origin) (cause : Cause) : Fault := { cause, file := o.file, line := o.line }

/-- All declarations of a scope. -/
def declarationsOf (s : Draft.Scope) : List Declaration :=
  s.messages.map .message ++ s.enums.map .enumeration ++ s.options.map .enumeration
    ++ s.compounds.map .compound

/-- The namespaces and declarations of a draft. -/
structure Index where
  /-- the qualified names of namespaces and the lines of their first declaration -/
  namespaces : Table Nat := .empty
  /-- declarations by qualified name; of several the last -/
  declared : Table Declaration := .empty
  faults : List Fault := []

namespace Index

/-- Adds the declarations of the namespace `home` one by one; `lines` are the lines
    of the names met so far. -/
def addAll (home : String) : List Declaration → Table Nat → Index → Index
  | [], _, ix => ix
  | d :: ds, lines, ix =>
    match lines.find? d.name with
    | some line =>
      addAll home ds lines
        { ix with faults := ix.faults ++ [faultAt d.origin (.definitionTwice d.name home line)] }
    | none =>
      addAll home ds (lines.insert d.name d.origin.line)
        { ix with declared := ix.declared.insert (QualifiedName.join (some home) d.name) d }

/-- The qualified name of a namespace: the stored one, or else that of its path. -/
def nameOf (arena : List Draft.Namespace) (i : Nat) (ns : Draft.Namespace) : String :=
  ns.qualified.getD (Draft.pathOf arena i)

/-- Adds a namespace and its declarations. -/
def addNamespace (arena : List Draft.Namespace) (ix : Index) (s : Draft.Site) : Index :=
  let home := nameOf arena s.index s.ns
  let ix := match ix.namespaces.find? home with
    | some line =>
      let fault : Fault :=
        { cause := .namespaceTwice home line, file := s.ns.file, line := s.ns.line }
      { ix with faults := ix.faults ++ [fault] }
    | none => { ix with namespaces := ix.namespaces.insert home s.ns.line }
  addAll home (declarationsOf s.ns.scope) .empty ix

/-- The declarations of a draft, in the order of a walk through its namespaces. -/
def ofDraft (d : Draft) : Index := (d.walk.map (·.site)).foldl (addNamespace d.arena) {}

end Index

/-! ## Namespaces of several files -/

/-- The files that namespaces are declared in, and the faults found so far with the
    namespaces that they are about. -/
structure Ownership where
  owners : Table String
  reported : List String := []
  faults : List Fault := []

/-- Adds a namespace of another file, met through an import of `file` at `line`. -/
def Ownership.add (file : String) (line : Nat) (o : Ownership) (other name : String) : Ownership :=
  match o.owners.find? name with
  | none => { o with owners := o.owners.insert name other }
  | some owner =>
    -- a file that is reached twice owns its namespaces already
    if owner = other || o.reported.contains name then o
    else
      let fault : Fault := { cause := .namespaceInFiles name owner other, file, line }
      { o with reported := name :: o.reported, faults := o.faults ++ [fault] }

/-- Adds the namespaces of an imported model. -/
def Ownership.addModel (file : String) (line : Nat) (o : Ownership) (m : Model) : Ownership :=
  m.namespaces.foldl (fun o ns => o.add file line m.file ns.qualified) o

/-- The line of the import that has a key. -/
def importLine (d : Draft) (key : String) : Nat :=
  ((d.imports.find? fun i => i.key = key).map (·.line)).getD 0

/-- The faults of namespaces that a draft and the files that it imports, or two of
    these, declare both. -/
def importedNamespaceFaults (lib : Library) (d : Draft) (own : List String)
    (imports : Table String) : List Fault :=
  let start : Ownership := { owners := own.foldl (fun t q => t.insert q d.file) .empty }
  let all := imports.entries.foldl (fun o i =>
    (lib.reachable i.2).foldl (Ownership.addModel d.file (importLine d i.1)) o) start
  all.faults

end MessageSchema.Model
