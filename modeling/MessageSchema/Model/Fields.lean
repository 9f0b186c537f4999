/-
  Messages and their fields.

  * `Binder.message` builds a message with its fields, and lists what is wrong
    with them; a field that is wrong is left out.
-/
import MessageSchema.Model.Default
import MessageSchema.Model.Inheritance

namespace MessageSchema.Model

/-- A result, if there is one, and the faults met on the way to it. -/
abbrev Checked (α : Type) := Option α × List Fault

/-- The modifiers that a field may have. -/
def knownModifiers : List String := ["optional", "required", "repeated"]

namespace Binder

/-- The declared or imported compound with a qualified name. -/
def compoundParts? (b : Binder) (name : String) : Option (Primitive × List String) :=
  match (b.declared.find? name).bind Declaration.compound? with
  | some c => some (c.base, c.components)
  | none => ((b.importedEntity? name).bind Entity.compound?).map fun c => (c.base, c.components)

/-- The type that a name denotes. -/
def namedType (b : Binder) (place : Origin) (context : String) (n : Draft.TypeName) :
    Checked FieldType :=
  match b.bind? n with
  | none => (none, [faultAt place (.unresolved n.text context)])
  | some ref =>
    if ref.kind = .compound then
      ((b.compoundParts? ref.name).map fun (base, components) =>
        .compound base components (some ref), [])
    else (some (.entity ref), [])

/-- Binds the name in a scalar type. -/
def scalarType (b : Binder) (place : Origin) (context : String) :
    Draft.ScalarType → Checked FieldType
  | .primitive p => (some (.primitive p), [])
  | .named n => b.namedType place context n

/-- Binds the names in an element type. -/
def elementType (b : Binder) (place : Origin) (context : String) :
    Draft.ElementType → Checked FieldType
  | .scalar s => b.scalarType place context s
  | .compound (.primitive p) components => (some (.compound p components none), [])
  | .compound (.named n) _ => (none, [faultAt place (.compoundBase context n.text)])
  | .inline .flags _ => (none, [faultAt place (.notPromoted "options" context)])
  | .inline _ _ => (none, [faultAt place (.notPromoted "enum" context)])

/-- Whether a map may have keys of a type. -/
def isKeyType : FieldType → Bool
  | .primitive _ => true
  | .entity ref => ref.kind = .enumeration || ref.kind = .options
  | _ => false

/-- Binds the names in the type of a field. -/
def fieldType (b : Binder) (place : Origin) (context : String) : Draft.FieldType → Checked FieldType
  | .element e => b.elementType place context e
  | .array e =>
    let (type, faults) := b.elementType place context e
    (type.map .array, faults)
  | .map key value =>
    let (key, fs) := b.scalarType place context key
    let (value, gs) := b.fieldType place context value
    match key, value with
    | some k, some v =>
      if isKeyType k then (some (.map k v), fs ++ gs)
      else (none, fs ++ gs ++ [faultAt place (.mapKey context)])
    | _, _ => (none, fs ++ gs)

/-- The values of the enumeration with a qualified name, declared or imported. -/
def valuesOf (b : Binder) (enums : Table Enumeration) (name : String) : List EnumValue :=
  match enums.find? name with
  | some e => e.values
  | none => b.importedValues name

/-- Binds a field and reads its default. -/
def field (b : Binder) (enums : Table Enumeration) (owner : String) (f : Draft.Field) :
    Checked Field :=
  let context := s!"field {owner}.{f.name}"
  match b.fieldType f.origin context f.type with
  | (none, faults) => (none, faults)
  | (some type, faults) =>
    let unknown := (f.modifiers.filter fun m => !knownModifiers.contains m).map fun m =>
      faultAt f.origin (.unknownModifier m context)
    let build (default : Option DefaultValue) : Field :=
      ⟨f.name, type, f.modifiers, default, f.origin⟩
    match f.default.map fun text => DefaultValue.read (b.valuesOf enums) text type with
    | none => (some (build none), faults ++ unknown)
    | some (.ok value) => (some (build (some value)), faults ++ unknown)
    | some (.error cause) =>
      (some (build none), faults ++ unknown ++ [faultAt f.origin (.defaultUnfit cause context)])

/-- The fields that a message and its ancestors declare, each with the qualified
    name of the nearest that declares it, down to a depth. -/
def fieldOwnersFrom (b : Binder) : Nat → List String → Option String → Table String → Table String
  | 0, _, _, owners => owners
  | _, _, none, owners => owners
  | depth + 1, seen, some name, owners =>
    if seen.contains name then owners
    else
      let addAll (fields : List String) := fields.foldl (fun t f => t.insertNew f name) owners
      match b.message? name with
      | some m =>
        b.fieldOwnersFrom depth (name :: seen) (m.parent.map (·.text))
          (addAll (m.fields.map (·.name)))
      | none =>
        match (b.importedEntity? name).bind Entity.message? with
        | some m =>
          b.fieldOwnersFrom depth (name :: seen) (m.parent.map (·.name))
            (addAll (m.fields.map (·.name)))
        | none => owners

/-- The number of messages that a chain of ancestors can have. -/
def messageCount (b : Binder) : Nat :=
  b.declared.size + (b.imported.flatMap Model.entities).length

/-- The owners of the fields of a message and its ancestors. -/
def fieldOwners (b : Binder) (name : String) : Table String :=
  b.fieldOwnersFrom (b.messageCount + 1) [] (some name) .empty

/-- Builds the fields of a message one by one, leaving out those whose names are
    taken by an earlier field or by an ancestor. -/
def fields (b : Binder) (enums : Table Enumeration) (message : String) (inherited : Table String) :
    List String → List Draft.Field → List Field × List Fault
  | _, [] => ([], [])
  | own, f :: fs =>
    if own.contains f.name then
      let (rest, faults) := b.fields enums message inherited own fs
      (rest, faultAt f.origin (.fieldTwice f.name message) :: faults)
    else
      match inherited.find? f.name with
      | some owner =>
        let (rest, faults) := b.fields enums message inherited own fs
        (rest, faultAt f.origin (.fieldInherited f.name message owner) :: faults)
      | none =>
        let (one, faults) := b.field enums message f
        let (rest, more) := b.fields enums message inherited (f.name :: own) fs
        (one.toList ++ rest, faults ++ more)

/-- Binds the parent of a message. -/
def messageParent (b : Binder) (name : String) (m : Draft.Message) : Checked TypeRef :=
  match m.parent with
  | none => (none, [])
  | some p =>
    match b.bind? p with
    | none => (none, [faultAt m.origin (.unresolved p.text s!"parent of message {name}")])
    | some ref =>
      if ref.kind = .message then (some ref, [])
      else (none, [faultAt m.origin (.parentNotMessage ref.name name)])

/-- Binds a message and its fields. -/
def message (b : Binder) (enums : Table Enumeration) (name : String) (m : Draft.Message) :
    Message × List Fault :=
  let (parent, faults) := b.messageParent name m
  let inherited := match parent with
    | some ref => b.fieldOwners ref.name
    | none => .empty
  let (fields, more) := b.fields enums name inherited [] m.fields
  (⟨m.name, name, parent, fields, m.origin⟩, faults ++ more)

/-- Binds all messages of a draft. -/
def messages (b : Binder) (enums : Table Enumeration) : Table Message × List Fault :=
  b.declared.entries.foldl (fun (done, faults) d =>
    match d.2.message? with
    | some m =>
      let (built, more) := b.message enums d.1 m
      (done.insert d.1 built, faults ++ more)
    | none => (done, faults)) ((.empty, []) : Table Message × List Fault)

end Binder

end MessageSchema.Model
