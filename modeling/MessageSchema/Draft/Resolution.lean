/-
  What names denote.

  An unqualified name denotes the declaration of that name in the innermost
  enclosing namespace that has one, else in the file-level namespace of the
  first import without a local name that has one.

  A qualified name that starts with the local name of an import denotes a
  declaration of that file.  Otherwise it is read relative to each enclosing
  namespace, innermost first, then as an absolute name of this file, then, for
  each import without a local name, as an absolute name of that file and
  relative to its file-level namespace.

  Types written inline count as declared under the names that they will get.

  * `Draft.symbols` are the names that a file declares.
-/
import MessageSchema.Draft.FileNamespace
import MessageSchema.Draft.Walk
import MessageSchema.Fault

namespace MessageSchema.Draft

/-- Whether a type holds an enumeration or a set of flags written in place. -/
def FieldType.hasInline : FieldType → Bool
  | .element (.inline _ _) | .array (.inline _ _) => true
  | .map _ value => value.hasInline
  | _ => false

/-- The names that a message declares: its own and those of its inline types. -/
def Message.declared (m : Message) : List String :=
  m.name :: (m.fields.filter (·.type.hasInline)).map fun f => QualifiedName.ofInline m.name f.name

/-- The names that a scope declares. -/
def Scope.declared (s : Scope) : List String :=
  s.messages.flatMap Message.declared ++ s.enums.map (·.name) ++ s.options.map (·.name)
    ++ s.compounds.map (·.name)

/-- A scope as lookups see it: its qualified name, absent for the file itself, and
    the names that it declares. -/
structure Region where
  qualified : Option String
  names : List String

/-- The qualified name of a declaration of a region. -/
def Region.find? (r : Region) (name : String) : Option String :=
  if r.names.contains name then some (QualifiedName.join r.qualified name) else none

/-- The qualified names that a region declares. -/
def Region.entities (r : Region) : List String := r.names.map (QualifiedName.join r.qualified)

/-- What lookups see of a file. -/
structure Symbols where
  /-- the file itself and its namespaces -/
  regions : List Region
  /-- the file-level namespace, or the file itself if it has none -/
  root : Region

/-- The qualified names that a file declares. -/
def Symbols.entities (s : Symbols) : List String := s.regions.flatMap Region.entities

/-- A namespace as lookups see it. -/
def Site.region (s : Site) : Region := ⟨some s.qualified, s.ns.scope.declared⟩

/-- The symbols of a draft. -/
def symbols (d : Draft) : Draft.Symbols :=
  let file : Draft.Region := ⟨none, d.top.declared⟩
  let sites := d.walk.map (·.site)
  let root := d.rootIndex?.bind fun i => sites.find? fun s => s.index = i
  ⟨file :: sites.map Site.region, (root.map Site.region).getD file⟩

/-- An import with a local name: that name and the file's own names. -/
structure NamedImport where
  localName : String
  stem : String
  entities : List String

/-- The name of a declaration of an import as seen through the local name: that
    name stands in place of the file-level namespace. -/
def NamedImport.outward (i : NamedImport) (entity : String) : String :=
  i.localName ++ "::" ++ (QualifiedName.strip? i.stem entity).getD entity

/-- The declaration that a name denotes through a local name; of several the last. -/
def NamedImport.find? (i : NamedImport) (name : String) : Option String :=
  i.entities.reverse.find? fun e => i.outward e = name

/-- What names in a file may denote. -/
structure Surroundings where
  own : Symbols
  /-- imports without a local name, in order -/
  plain : List Symbols
  /-- imports with a local name -/
  named : List NamedImport

namespace Surroundings

/-- What an unqualified name denotes inside the namespaces `enclosing`, innermost
    first. -/
def lookupPlain (s : Surroundings) (enclosing : List Region) (name : String) : Option String :=
  (enclosing.findSome? fun r => r.find? name) <|> s.plain.findSome? fun i => i.root.find? name

/-- What a qualified name denotes in the file of an import without a local name. -/
def lookupImported (i : Symbols) (name : String) : Option String :=
  let relative := QualifiedName.join i.root.qualified name
  if i.entities.contains name then some name
  else if i.entities.contains relative then some relative
  else none

/-- What a qualified name denotes inside the namespaces `enclosing`, innermost
    first. -/
def lookupQualified (s : Surroundings) (enclosing : List Region) (name : String) : Option String :=
  let viaLocalName := s.named.find? fun i => i.localName = QualifiedName.head name
  let relative := enclosing.map fun r => QualifiedName.join r.qualified name
  -- what a local name leads to comes before what the file itself declares
  (viaLocalName.bind fun i => i.find? name)
    <|> (relative ++ [name]).find? s.own.entities.contains
    <|> s.plain.findSome? fun i => lookupImported i name

/-- What a name denotes inside the namespaces `enclosing`, innermost first. -/
def lookup (s : Surroundings) (enclosing : List Region) (name : String) : Option String :=
  if QualifiedName.isQualified name then s.lookupQualified enclosing name
  else s.lookupPlain enclosing name

/-- A name with what it denotes, if that is not known yet and there is something. -/
def resolve (s : Surroundings) (enclosing : List Region) (n : TypeName) : TypeName :=
  if n.resolved then n
  else
    match s.lookup enclosing n.text with
    | some q => ⟨q, true⟩
    | none => n

end Surroundings

/-- Notes the qualified name of a visited namespace. -/
def nameSite (arena : List Namespace) (v : Visit) : List Namespace :=
  arena.modify v.site.index fun ns => { ns with qualified := some v.site.qualified }

/-- Resolves the names in the declarations of a visited namespace. -/
def resolveSite (s : Surroundings) (arena : List Namespace) (v : Visit) : List Namespace :=
  arena.modify v.site.index fun ns =>
    { ns with scope := ns.scope.mapNames (s.resolve (v.enclosing.map Site.region)) }

/-- The name of the pass that resolves names. -/
def resolutionName : String := "qfn-reference"

/-- All that the names of a draft can denote, given the drafts of its imports. -/
def surroundings (d : Draft) (imports : List (String × Draft)) : Draft.Surroundings where
  own := d.symbols
  plain := (imports.filter fun i => !d.imports.any (·.localName = some i.1)).map (·.2.symbols)
  named := (imports.filter fun i => d.imports.any (·.localName = some i.1)).map fun i =>
    ⟨i.1, i.2.stem, i.2.symbols.entities.eraseDups⟩

/-- Stores the qualified names of all namespaces, and replaces every name by the
    qualified name of what it denotes.  The file must be wrapped. -/
def resolve (imports : List (String × Draft)) (d : Draft) : Except Fault Draft :=
  if d.isWrapped then
    let s := d.surroundings imports
    .ok { d with arena := d.walk.foldl (resolveSite s) (d.walk.foldl nameSite d.arena) }
  else
    .error { cause := .notWrapped resolutionName d.stem, file := d.file, line := 1 }

end MessageSchema.Draft
