/-
  Models: schema files in which every name is bound.

  A reference names an entity by its kind and its qualified name.  The models of
  several files form a library, in which a file has one model; a model names the
  models that it imports by their files.
-/
import MessageSchema.Draft

namespace MessageSchema

/-- The kinds of declarations that have names. -/
inductive EntityKind where
  | message | enumeration | options | compound
  deriving DecidableEq, Repr

/-- How a kind of declaration is written. -/
def EntityKind.word : EntityKind → String
  | message => "message" | enumeration => "enum" | options => "options" | compound => "compound"

/-- A reference to a declaration. -/
structure TypeRef where
  kind : EntityKind
  name : String
  deriving DecidableEq, Repr

/-- The type of a field. -/
inductive FieldType where
  | primitive (type : Primitive)
  /-- a message, an enumeration or a set of flags -/
  | entity (ref : TypeRef)
  /-- named components of one type, of a declared compound if `ref` is there -/
  | compound (base : Primitive) (components : List String) (ref : Option TypeRef)
  | array (element : FieldType)
  | map (key value : FieldType)
  deriving DecidableEq, Repr

/-- The outermost entity that a type refers to; compounds do not count, and the
    value of a map counts before its key. -/
def FieldType.outermost? : FieldType → Option TypeRef
  | primitive _ | compound _ _ _ => none
  | entity ref => some ref
  | array element => element.outermost?
  | map key value => value.outermost? <|> key.outermost?

/-- The default of a field. -/
inductive DefaultValue where
  | text (value : String)
  | number (value : Float)
  | truth (value : Bool)
  /-- a value of an enumeration -/
  | value (name : String) (number : Int)
  /-- flags put together; `names` are those given by name -/
  | flags (names : List String) (number : Int)
  /-- a text that is not read any further -/
  | raw (text : String)

namespace Model

/-- A field of a message. -/
structure Field where
  name : String
  type : FieldType
  modifiers : List String
  default : Option DefaultValue
  origin : Origin

/-- Whether a field may be left out. -/
def Field.isOptional (f : Field) : Bool := f.modifiers.contains "optional"

/-- A message with its qualified name and its parent. -/
structure Message where
  name : String
  qualified : String
  parent : Option TypeRef
  /-- its own fields, without those of its ancestors -/
  fields : List Field
  origin : Origin

/-- A value of an enumeration. -/
structure EnumValue where
  name : String
  number : Int
  /-- whether it comes from a parent -/
  inherited : Bool
  origin : Origin
  deriving DecidableEq, Repr

/-- An enumeration or a set of flags. -/
structure Enumeration where
  name : String
  qualified : String
  kind : EnumKind
  /-- the number of bits that hold its values -/
  width : Nat
  parent : Option TypeRef
  /-- the values of its ancestors, then its own -/
  values : List EnumValue
  origin : Origin
  deriving DecidableEq, Repr

/-- A type of named components of one primitive type. -/
structure Compound where
  name : String
  qualified : String
  base : Primitive
  components : List String
  origin : Origin
  deriving DecidableEq, Repr

/-- A declaration that has a name. -/
inductive Entity where
  | message (message : Message)
  | enumeration (enumeration : Enumeration)
  | compound (compound : Compound)

namespace Entity

/-- The qualified name of a declaration. -/
def qualified : Entity → String
  | message m => m.qualified
  | enumeration e => e.qualified
  | compound c => c.qualified

/-- The kind of a declaration. -/
def kind : Entity → EntityKind
  | message _ => .message
  | enumeration e => if e.kind = .flags then .options else .enumeration
  | compound _ => .compound

/-- Where a declaration stands. -/
def origin : Entity → Origin
  | message m => m.origin
  | enumeration e => e.origin
  | compound c => c.origin

/-- The declaration if it is a message. -/
def message? : Entity → Option Message
  | message m => some m
  | _ => none

/-- The declaration if it is an enumeration or a set of flags. -/
def enumeration? : Entity → Option Enumeration
  | enumeration e => some e
  | _ => none

/-- The declaration if it is a compound. -/
def compound? : Entity → Option Compound
  | compound c => some c
  | _ => none

end Entity

/-- A namespace with its declarations. -/
structure Namespace extends Notes where
  name : String
  qualified : String
  parent : Option Nat
  children : List Nat
  messages : List Message
  enums : List Enumeration
  options : List Enumeration
  compounds : List Compound
  file : String
  line : Nat

/-- All declarations of a namespace. -/
def Namespace.entities (ns : Namespace) : List Entity :=
  ns.messages.map .message ++ ns.enums.map .enumeration ++ ns.options.map .enumeration
    ++ ns.compounds.map .compound

end Model

/-- The model of a file. -/
structure Model where
  file : String
  stem : String
  namespaces : List Model.Namespace
  /-- the indices of the outermost namespaces -/
  roots : List Nat
  /-- the files of the imported models by import key -/
  imports : Table String

namespace Model

/-- The declarations of a file by qualified name; of several the last. -/
def symbols (m : Model) : Table Entity :=
  (m.namespaces.flatMap Namespace.entities).foldl (fun t e => t.insert e.qualified e) .empty

/-- The declaration of a file that has a qualified name. -/
def own? (m : Model) (name : String) : Option Entity := m.symbols.find? name

/-- The declarations of a file, one for each qualified name. -/
def entities (m : Model) : List Entity := m.symbols.values

/-- The namespace that has a qualified name. -/
def namespace? (m : Model) (name : String) : Option Namespace :=
  m.namespaces.find? fun ns => ns.qualified = name

end Model

end MessageSchema
