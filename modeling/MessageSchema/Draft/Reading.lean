/-
  Drafts of syntax trees.

  `Draft.ofSource` collects the declarations of a tree, scope by scope.  A
  namespace gets the next index of the arena when it is entered, so the arena
  lists a namespace before those inside it, and those in the order of the text.
-/
import MessageSchema.Draft.Numbering
import MessageSchema.Parser.Source
import MessageSchema.Path

namespace MessageSchema.Draft

/-- What the trees of a source are read with. -/
structure Reader where
  source : Source
  margins : Margins

namespace Reader

/-- The reader of a source. -/
def ofSource (source : Source) : Reader := ⟨source, ⟨source.tokens.toArray, source.comments⟩⟩

/-- The line on which a tree starts. -/
def lineOf (t : Tree) : Nat := (t.tokens.head?.map (·.first.line)).getD 0

/-- What the comments around a tree say. -/
def notesOf (r : Reader) (t : Tree) : Notes :=
  match t.tokens.head?, t.tokens.getLast? with
  | some first, some last => r.margins.notes first last
  | _, _ => .none

/-- The origin of what a tree declares in the namespace `home`. -/
def originOf (r : Reader) (home : String) (t : Tree) : Origin :=
  ⟨r.notesOf t, r.source.file, lineOf t, home⟩

/-- The name that a tree declares. -/
def nameOf (t : Tree) : String := ((t.find? .name).map Tree.image).getD ""

/-- The text from the first to the last token of a tree, as written. -/
def textOf (r : Reader) (t : Tree) : String :=
  match t.tokens.head?, t.tokens.getLast? with
  | some first, some last =>
    String.ofList (Text.slice first.first.offset (last.last.offset + 1) r.source.text.toList)
  | _, _ => ""

/-- The name that a tree spells, not resolved yet. -/
def typeName? (t : Option Tree) : Option TypeName := t.map fun t => { text := t.image }

/-! ## Values -/

/-- A fault at the first token of a tree. -/
def faultAt (r : Reader) (t : Tree) (cause : Cause) : Fault :=
  match t.tokens.head? with
  | some first =>
    { cause, file := r.source.file, line := first.first.line, column := first.first.column,
      token := some first.image }
  | none => { cause, file := r.source.file, line := 0 }

/-- The number written in a tree, if there is one. -/
def numberOf (r : Reader) (t : Tree) : Except Fault (Option Int) :=
  match (t.leaves .number).head? with
  | none => .ok none
  | some literal =>
    match Numeral.integer? literal.image with
    | none => .error (r.faultAt t (.valueNotInteger literal.image))
    | some n =>
      if EnumKind.inRange n then .ok (some n) else .error (r.faultAt t (.literalTooWide n))

/-- Reads a value of an enumeration. -/
def value (r : Reader) (t : Tree) : Except Fault RawValue := do
  let number ← r.numberOf t
  return ⟨r.notesOf t, nameOf t, number, lineOf t⟩

/-- Reads the values listed in a tree. -/
def values (r : Reader) (t : Tree) : Except Fault (List RawValue) :=
  match t.find? .valueList with
  | some list => (list.all .value).mapM r.value
  | none => .ok []

/-! ## Types -/

/-- The primitive type that a tree names. -/
def primitive (t : Tree) : Primitive := (Primitive.ofWord? t.image).getD .string

/-- The names of the components listed in a tree. -/
def components (t : Tree) : List String :=
  match t.find? .componentList with
  | some list => (list.all .name).map Tree.image
  | none => []

/-- Reads a scalar type; what is no primitive type is a name. -/
def scalar (t : Tree) : ScalarType :=
  match t.find? .primitiveType with
  | some p => .primitive (primitive p)
  | none => .named { text := t.image }

/-- The kind of enumeration that a tree with one of its two keywords declares. -/
def enumKind (t : Tree) : EnumKind :=
  if t.hasLeaf (.keyword .openEnum) then .extensible else .closed

/-- Reads an element type. -/
def element (r : Reader) : Tree → Except Fault ElementType
  | .node .elementType [.node .inlineEnum cs] =>
    let t := Tree.node .inlineEnum cs
    match t.find? .qualifiedName with
    | some name => .ok (.scalar (.named { text := name.image }))
    | none => do return .inline (enumKind t) (← r.values t)
  | .node .elementType [.node .inlineOptions cs] => do
    return .inline .flags (← r.values (.node .inlineOptions cs))
  | t =>
    let base := ((t.find? .scalarType).map scalar).getD (.named { text := t.image })
    .ok (if (t.find? .componentList).isSome then .compound base (components t) else .scalar base)

/-- Reads the type of a field. -/
def fieldType (r : Reader) : Tree → Except Fault FieldType
  | .node .type [.node .mapType [_, _, key, _, value, _]] => do
    return .map (scalar key) (← r.fieldType value)
  | .node .type (e :: []) => do return .element (← r.element e)
  | .node .type (e :: _) => do return .array (← r.element e)
  | t => do return .element (← r.element t)
termination_by structural t => t

/-! ## Declarations -/

/-- Reads a field of a message. -/
def field (r : Reader) (home : String) (t : Tree) : Except Fault Field := do
  let type ← r.fieldType ((t.find? .type).getD t)
  return {
    name := nameOf t
    type
    modifiers := (t.leaves .identifier).map (·.image)
    default := (t.find? .default).map r.textOf
    origin := r.originOf home t }

/-- Reads a message and its fields. -/
def message (r : Reader) (home : String) (t : Tree) : Except Fault Message := do
  let fields ← (t.all .field).mapM (r.field home)
  return ⟨nameOf t, typeName? (t.find? .qualifiedName), fields, r.originOf home t⟩

/-- Reads an enumeration and numbers its values. -/
def enumeration (r : Reader) (home : String) (kind : EnumKind) (t : Tree) :
    Except Fault Enumeration := do
  let values ← number kind r.source.file home (← r.values t)
  return ⟨nameOf t, typeName? (t.find? .qualifiedName), kind, values, r.originOf home t⟩

/-- Reads a compound. -/
def compound (r : Reader) (home : String) (t : Tree) : Compound :=
  ⟨nameOf t, ((t.find? .primitiveType).map primitive).getD .string, components t, r.originOf home t⟩

/-- What trees contribute to the scope around them, and the namespaces that they
    add to the arena. -/
structure Contribution where
  scope : Scope := {}
  arena : List Namespace := []

/-- The namespace that trees stand in: its name, its index, and the next free
    index of the arena. -/
structure Place where
  home : String
  index : Option Nat
  free : Nat

mutual

/-- What a tree contributes to the scope that it stands in. -/
def contribution (r : Reader) (p : Place) : Tree → Except Fault Contribution
  | .node .declaration cs => r.contributions p cs
  | .node .namespaceBlock cs => do
    let t := Tree.node .namespaceBlock cs
    let inner ← r.contributions ⟨nameOf t, some p.free, p.free + 1⟩ cs
    let ns : Namespace :=
      ⟨r.notesOf t, nameOf t, p.index, none, r.source.file, lineOf t, inner.scope⟩
    return ⟨{ children := [p.free] }, ns :: inner.arena⟩
  | .node .messageBlock cs => do
    return { scope := { messages := [← r.message p.home (.node .messageBlock cs)] } }
  | .node .enumBlock cs => do
    let t := Tree.node .enumBlock cs
    return { scope := { enums := [← r.enumeration p.home (enumKind t) t] } }
  | .node .optionsBlock cs => do
    return { scope := { options := [← r.enumeration p.home .flags (.node .optionsBlock cs)] } }
  | .node .compoundBlock cs =>
    return { scope := { compounds := [r.compound p.home (.node .compoundBlock cs)] } }
  | _ => .ok {}

/-- What several trees contribute to the scope that they stand in. -/
def contributions (r : Reader) (p : Place) : List Tree → Except Fault Contribution
  | [] => .ok {}
  | t :: ts => do
    let one ← r.contribution p t
    let rest ← r.contributions { p with free := p.free + one.arena.length } ts
    return ⟨one.scope ++ rest.scope, one.arena ++ rest.arena⟩

end

/-- The import that a tree requests.  Its path is what stands between the quotes,
    as written. -/
def importLine (t : Tree) : Import :=
  match (t.leaves .text).head? with
  | some path =>
    ⟨String.ofList (path.image.toList.drop 1).dropLast, (t.find? .name).map Tree.image,
      path.first.line⟩
  | none => ⟨"", none, 0⟩

end Reader

/-- The draft of a text whose file-level namespace is `stem`. -/
def ofSource (stem : String) (source : Source) : Except Fault Draft := do
  let r := Draft.Reader.ofSource source
  let all ← r.contributions ⟨stem, none, 0⟩ source.tree.children
  return {
    file := source.file
    stem
    top := all.scope
    arena := all.arena
    imports := (source.tree.all .importLine).map Draft.Reader.importLine
    attached := .empty }

/-- Reads a text and drafts it, its file-level namespace named after the file. -/
def read (file text : String) : Except Fault Draft := do
  ofSource (Path.stem file) (← Source.read file text)

end MessageSchema.Draft
