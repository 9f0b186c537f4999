/-
  Schemas in the abstract, the texts that they are written in, and the drafts that
  they describe.

  A schema is made of imports and declarations.  Names are identifiers, those that
  refer to declarations and modifiers start with one that is no keyword; numbers
  are in range, the counted ones too.
-/
import MessageSchema.Proofs.Bare
import MessageSchema.Proofs.Spelling

namespace MessageSchema

/-! ## More words -/

/-- A keyword as an identifier. -/
def Keyword.identifier (k : Keyword) : Identifier where
  first := k.word.toList.headD '_'
  rest := k.word.toList.tail
  isNameStart_first := by cases k <;> decide
  isNameChar_rest := List.all_eq_true.1 (by cases k <;> decide)

def Word.keyword (k : Keyword) : Word := .name k.identifier

theorem Word.kind_keyword (k : Keyword) : (Word.keyword k).kind = .keyword k :=
  by cases k <;> decide +kernel

/-- The keyword of a primitive type. -/
def Primitive.keyword : Primitive → Keyword
  | string => .string
  | int => .int
  | float => .float
  | bool => .bool
  | byte => .byte

namespace Word

def comma : Word := .mark ',' .comma rfl

def colon : Word := .mark ':' .colon rfl

def semicolon : Word := .mark ';' .semicolon rfl

def equals : Word := .mark '=' .equals rfl

/-- Words between braces. -/
def braced (ws : List Word) : List Word :=
  .mark '{' .leftBrace rfl :: (ws ++ [.mark '}' .rightBrace rfl])

/-- Lists of words, all but the last with a comma after them. -/
def commaed : List (List Word) → List (List Word)
  | [] => []
  | [ws] => [ws]
  | ws :: vs :: rest => (ws ++ [comma]) :: commaed (vs :: rest)

/-- Lists of words with commas between them. -/
def listed (wss : List (List Word)) : List Word := (commaed wss).flatten

end Word

namespace Schema

open Draft (TypeName RawValue EnumValue)
open Draft.Reader (Place Contribution)

/-! ## Names, values and types -/

/-- A name that may have several parts, each after a double colon or a dot. -/
structure Path where
  head : PlainIdentifier
  tail : List (Bool × Identifier)

/-- The words of a name, its separators included. -/
def Path.words (q : Path) : List Word :=
  .name q.head.toIdentifier ::
    q.tail.flatMap fun part => [if part.1 then .colons else .mark '.' .dot rfl, .name part.2]

/-- A name as it is written, without blanks. -/
def Path.text (q : Path) : String := String.join (q.words.map Word.text)

def Path.draft (q : Path) : TypeName := { text := q.text }

/-- A value of an enumeration. -/
structure Value where
  name : Identifier
  /-- the number, if one is written -/
  number : Option { n : Int // EnumKind.inRange n = true }

def Value.numberWords : Option { n : Int // EnumKind.inRange n = true } → List Word
  | none => []
  | some n => [.equals, .number (.ofInt n.1)]

def Value.words (v : Value) : List Word := .name v.name :: numberWords v.number

def Value.draft (v : Value) : RawValue := ⟨.none, v.name.text, v.number.map (·.1), 0⟩

/-- The numbers of values, after a value with number `previous`. -/
def Value.numbers (kind : EnumKind) : Option Int → List Value → List Int
  | _, [] => []
  | previous, v :: vs =>
    let n := (v.number.map (·.1)).getD (kind.nextNumber previous)
    n :: numbers kind (some n) vs

/-- Values whose numbers are in range, also those that are counted. -/
structure Values (kind : EnumKind) where
  values : List Value
  inRange : ∀ n ∈ Value.numbers kind none values, EnumKind.inRange n = true

def Value.list (vs : List Value) : List Word := Word.braced (Word.listed (vs.map words))

def Value.numbered (file home : String) (v : Value) (n : Int) : EnumValue :=
  ⟨v.name.text, n, v.number.isSome, ⟨.none, file, 0, home⟩⟩

/-- Values with their numbers, as a draft has them. -/
def Values.draft {kind : EnumKind} (vs : Values kind) (file home : String) : List EnumValue :=
  List.zipWith (Value.numbered file home) vs.values (Value.numbers kind none vs.values)

/-- A primitive type or the name of a declared one. -/
inductive ScalarType where
  | primitive (type : Primitive)
  | named (path : Path)

def ScalarType.words : ScalarType → List Word
  | primitive p => [.keyword p.keyword]
  | named q => q.words

def ScalarType.draft : ScalarType → Draft.ScalarType
  | primitive p => .primitive p
  | named q => .named q.draft

/-- A scalar, inline or compound type. -/
inductive ElementType where
  | scalar (type : ScalarType)
  | inline (kind : EnumKind) (values : List Value)
  | compound (base : ScalarType) (components : List Identifier)

/-- The keyword of a kind of enumeration. -/
def keywordOf : EnumKind → Keyword
  | .closed => .enum
  | .extensible => .openEnum
  | .flags => .options

def componentList (xs : List Identifier) : List Word :=
  Word.braced (Word.listed (xs.map fun x => [.name x]))

def ElementType.words : ElementType → List Word
  | scalar s => s.words
  | inline kind vs => .keyword (keywordOf kind) :: Value.list vs
  | compound base xs => base.words ++ componentList xs

def ElementType.draft : ElementType → Draft.ElementType
  | scalar s => .scalar s.draft
  | inline kind vs => .inline kind (vs.map Value.draft)
  | compound base xs => .compound base.draft (xs.map Identifier.text)

/-- The type of a field. -/
inductive FieldType where
  | element (type : ElementType)
  | array (type : ElementType)
  | map (key : ScalarType) (value : FieldType)

def FieldType.words : FieldType → List Word
  | element e => e.words
  | array e => e.words ++ [.mark '[' .leftBracket rfl, .mark ']' .rightBracket rfl]
  | map key value =>
    [.keyword .map, .mark '<' .leftAngle rfl] ++ key.words ++ [.comma] ++ value.words ++
      [.mark '>' .rightAngle rfl]

def FieldType.draft : FieldType → Draft.FieldType
  | element e => .element e.draft
  | array e => .array e.draft
  | map key value => .map key.draft value.draft

/-! ## Declarations -/

/-- The default of a field. -/
inductive Literal where
  | text (content : Quotable)
  | number (number : Number)
  | name (word : PlainIdentifier)

def Literal.word : Literal → Word
  | text q => .quoted q
  | number n => .number n
  | name x => .name x.toIdentifier

/-- A field; its modifiers stand in front of its name. -/
structure Field where
  modifiers : List PlainIdentifier
  name : Identifier
  type : FieldType
  default : Option Literal

def Field.defaultWords : Option Literal → List Word
  | none => []
  | some x => [.equals, x.word]

def Field.words (f : Field) : List Word :=
  f.modifiers.map (fun x => .name x.toIdentifier) ++ [.name f.name, .colon] ++ f.type.words ++
    defaultWords f.default ++ [Word.semicolon.last (by decide)]

def Field.draft (file home : String) (f : Field) : Draft.Field where
  name := f.name.text
  type := f.type.draft
  modifiers := f.modifiers.map fun x => x.text
  default := f.default.map fun x => x.word.text
  origin := ⟨.none, file, 0, home⟩

/-- The parent of a declaration, if it has one. -/
def parentWords : Option Path → List Word
  | none => []
  | some q => .colon :: q.words

/-- A message with its fields. -/
structure Message where
  name : Identifier
  parent : Option Path
  fields : List Field

def Message.words (m : Message) : List Word :=
  [.keyword .message, .name m.name] ++ parentWords m.parent ++
    [(Word.mark '{' .leftBrace rfl).last (by decide)] ++ m.fields.flatMap Field.words ++
    [.mark '}' .rightBrace rfl]

def Message.draft (file home : String) (m : Message) : Draft.Message :=
  ⟨m.name.text, m.parent.map Path.draft, m.fields.map (Field.draft file home),
    ⟨.none, file, 0, home⟩⟩

/-- A compound with the names of its components. -/
structure Compound where
  name : Identifier
  base : Primitive
  components : List Identifier

def Compound.words (c : Compound) : List Word :=
  [.keyword c.base.keyword, .name c.name] ++ componentList c.components

def Compound.draft (file home : String) (c : Compound) : Draft.Compound :=
  ⟨c.name.text, c.base, c.components.map Identifier.text, ⟨.none, file, 0, home⟩⟩

/-- An enumeration; it is open if values other than the declared ones may arrive. -/
structure Enumeration where
  isOpen : Bool
  name : Identifier
  parent : Option Path
  values : Values (if isOpen then .extensible else .closed)

def Enumeration.kind (e : Enumeration) : EnumKind := if e.isOpen then .extensible else .closed

def Enumeration.words (e : Enumeration) : List Word :=
  [.keyword (keywordOf e.kind), .name e.name] ++ parentWords e.parent ++ Value.list e.values.values

def Enumeration.draft (file home : String) (e : Enumeration) : Draft.Enumeration :=
  ⟨e.name.text, e.parent.map Path.draft, e.kind, e.values.draft file home, ⟨.none, file, 0, home⟩⟩

/-- A set of flags. -/
structure Options where
  name : Identifier
  values : Values .flags

def Options.words (o : Options) : List Word :=
  [.keyword .options, .name o.name] ++ Value.list o.values.values

def Options.draft (file home : String) (o : Options) : Draft.Enumeration :=
  ⟨o.name.text, none, .flags, o.values.draft file home, ⟨.none, file, 0, home⟩⟩

/-- A declaration; namespaces hold further ones. -/
inductive Declaration where
  | namespaceBlock (name : Identifier) (inside : List Declaration)
  | message (message : Message)
  | enumeration (enumeration : Enumeration)
  | options (options : Options)
  | compound (compound : Compound)

namespace Declaration

mutual

def words : Declaration → List Word
  | namespaceBlock x ds => [.keyword .namespace_, .name x] ++ Word.braced (wordsOfAll ds)
  | message m => m.words
  | enumeration e => e.words
  | options o => o.words
  | compound c => c.words

def wordsOfAll : List Declaration → List Word
  | [] => []
  | d :: ds => d.words ++ wordsOfAll ds

end

mutual

/-- What a declaration contributes to the namespace that it stands in.  Namespaces
    are numbered as they start in the text. -/
def draft (file : String) (p : Place) : Declaration → Contribution
  | namespaceBlock x ds =>
    let inner := draftOfAll file ⟨x.text, some p.free, p.free + 1⟩ ds
    ⟨{ children := [p.free] }, ⟨.none, x.text, p.index, none, file, 0, inner.scope⟩ :: inner.arena⟩
  | message m => { scope := { messages := [m.draft file p.home] } }
  | enumeration e => { scope := { enums := [e.draft file p.home] } }
  | options o => { scope := { options := [o.draft file p.home] } }
  | compound c => { scope := { compounds := [c.draft file p.home] } }

/-- What several declarations contribute, in order. -/
def draftOfAll (file : String) (p : Place) : List Declaration → Contribution
  | [] => {}
  | d :: ds =>
    let one := d.draft file p
    let rest := draftOfAll file { p with free := p.free + one.arena.length } ds
    ⟨one.scope ++ rest.scope, one.arena ++ rest.arena⟩

end

end Declaration

/-! ## Whole schemas -/

/-- An import, with a local name if one is given. -/
structure Import where
  path : Quotable
  localName : Option Identifier

def Import.localWords : Option Identifier → List Word
  | none => []
  | some x => [.keyword .as_, .name x]

def Import.words (i : Import) : List Word :=
  [.keyword .import_, .quoted i.path] ++ localWords i.localName

def Import.draft (i : Import) : Draft.Import :=
  ⟨String.ofList i.path.chars, i.localName.map Identifier.text, 0⟩

end Schema

/-- Imports and declarations, in any order. -/
structure Schema where
  entries : List (Schema.Import ⊕ Schema.Declaration)

namespace Schema

def imports (s : Schema) : List Import := s.entries.filterMap Sum.getLeft?

def declarations (s : Schema) : List Declaration := s.entries.filterMap Sum.getRight?

def words (s : Schema) : List Word := s.entries.flatMap (Sum.elim Import.words Declaration.words)

/-- The text that a schema is written in. -/
def text (s : Schema) : String := String.ofList (layout s.words)

/-- The draft that a schema describes. -/
def draft (file stem : String) (s : Schema) : Draft :=
  let all := Declaration.draftOfAll file ⟨stem, none, 0⟩ s.declarations
  ⟨file, stem, all.scope, all.arena, s.imports.map Import.draft, .empty⟩

end Schema

end MessageSchema
