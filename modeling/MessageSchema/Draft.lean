/-
  Drafts: schema files as they are declared.

  A draft holds the declarations of one file with all names as written.  The
  passes refine it: they put it into a namespace named after the file, attach
  the drafts of imported files, and replace names by the qualified names that
  they denote.

  The namespaces of a file form an arena: they refer to each other by index, in
  both directions (`Scope.children` and `Namespace.parent`).
-/
import MessageSchema.Annotation
import MessageSchema.Table

namespace MessageSchema

/-- The types that every schema has. -/
inductive Primitive where
  | string | int | float | bool | byte
  deriving DecidableEq, Repr

namespace Primitive

/-- All primitive types. -/
def all : List Primitive := [string, int, float, bool, byte]

/-- How a primitive type is written. -/
def word : Primitive → String
  | string => "string" | int => "int" | float => "float" | bool => "bool" | byte => "byte"

/-- The primitive type that a word stands for. -/
def ofWord? (w : String) : Option Primitive := all.find? fun p => p.word = w

theorem ofWord?_word (p : Primitive) : ofWord? p.word = some p := by cases p <;> rfl

end Primitive

/-- Where a declaration stands and what is said about it. -/
structure Origin extends Notes where
  file : String
  /-- the line of its first token -/
  line : Nat
  /-- the name of the innermost namespace around it -/
  home : String
  deriving DecidableEq, Repr

/-- The kinds of enumerations. -/
inductive EnumKind where
  /-- no values but the declared ones -/
  | closed
  /-- other values may arrive -/
  | extensible
  /-- values are flags that may be combined -/
  | flags
  deriving DecidableEq, Repr

/-- Whether values other than the declared ones may arrive. -/
def EnumKind.isOpen (k : EnumKind) : Bool := k != .closed

namespace Draft

/-! ## Types as written -/

/-- The name of a type, as it is written or resolved. -/
structure TypeName where
  text : String
  /-- whether `text` is the qualified name of a visible declaration -/
  resolved : Bool := false
  deriving DecidableEq, Repr

/-- A value of an enumeration as it is written. -/
structure RawValue extends Notes where
  name : String
  /-- the number, if one is written -/
  number : Option Int
  line : Nat
  deriving DecidableEq, Repr

/-- A type given by one word or name. -/
inductive ScalarType where
  | primitive (type : Primitive)
  | named (name : TypeName)
  deriving DecidableEq, Repr

/-- What a field or an array may be made of. -/
inductive ElementType where
  | scalar (type : ScalarType)
  /-- an enumeration or a set of flags written in place -/
  | inline (kind : EnumKind) (values : List RawValue)
  /-- named components of one type -/
  | compound (base : ScalarType) (components : List String)
  deriving DecidableEq, Repr

/-- The type of a field. -/
inductive FieldType where
  | element (type : ElementType)
  | array (type : ElementType)
  | map (key : ScalarType) (value : FieldType)
  deriving DecidableEq, Repr

/-! ## Declarations -/

/-- A field of a message. -/
structure Field where
  name : String
  type : FieldType
  /-- the words before the name -/
  modifiers : List String
  /-- the text of the default, if there is one -/
  default : Option String
  origin : Origin
  deriving DecidableEq, Repr

/-- A message: named fields, with those of its parent if it has one. -/
structure Message where
  name : String
  parent : Option TypeName
  fields : List Field
  origin : Origin
  deriving DecidableEq, Repr

/-- A value of an enumeration with its number. -/
structure EnumValue where
  name : String
  number : Int
  /-- whether the number was written, rather than counted on -/
  explicit : Bool
  origin : Origin
  deriving DecidableEq, Repr

/-- An enumeration or a set of flags. -/
structure Enumeration where
  name : String
  parent : Option TypeName
  kind : EnumKind
  values : List EnumValue
  origin : Origin
  deriving DecidableEq, Repr

/-- A type of named components of one primitive type. -/
structure Compound where
  name : String
  base : Primitive
  components : List String
  origin : Origin
  deriving DecidableEq, Repr

/-- What a file or a namespace declares. -/
structure Scope where
  messages : List Message := []
  enums : List Enumeration := []
  options : List Enumeration := []
  compounds : List Compound := []
  /-- the indices of the namespaces directly inside -/
  children : List Nat := []
  deriving DecidableEq, Repr

namespace Scope

/-- A scope without declarations. -/
def empty : Scope := {}

instance : Inhabited Scope := ⟨empty⟩

/-- The declarations of two scopes together. -/
def append (s t : Scope) : Scope :=
  ⟨s.messages ++ t.messages, s.enums ++ t.enums, s.options ++ t.options,
    s.compounds ++ t.compounds, s.children ++ t.children⟩

instance : Append Scope := ⟨append⟩

/-- Whether nothing but namespaces is declared. -/
def declaresNothing (s : Scope) : Bool :=
  s.messages.isEmpty && s.enums.isEmpty && s.options.isEmpty && s.compounds.isEmpty

end Scope

/-- A namespace with its declarations. -/
structure Namespace extends Notes where
  name : String
  /-- the index of the namespace around it -/
  parent : Option Nat
  /-- the qualified name, once it is known -/
  qualified : Option String
  file : String
  line : Nat
  scope : Scope
  deriving DecidableEq, Repr

/-- An import of another file. -/
structure Import where
  path : String
  /-- the name that stands for the file, if one is given -/
  localName : Option String
  line : Nat
  deriving DecidableEq, Repr

/-- The key of an import: its local name, or its path if it has none. -/
def Import.key (i : Import) : String := i.localName.getD i.path

end Draft

/-- Drafts are known by their places in a workspace. -/
abbrev DraftId := Nat

/-- A file as it is read, before and after the passes. -/
structure Draft where
  file : String
  /-- the name of the file-level namespace -/
  stem : String
  /-- the declarations outside any namespace -/
  top : Draft.Scope
  arena : List Draft.Namespace
  imports : List Draft.Import
  /-- the drafts of imported files by import key -/
  attached : Table DraftId
  deriving DecidableEq, Repr

end MessageSchema
