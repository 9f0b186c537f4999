/-
  The vocabulary of schema texts: positions, kinds of tokens and of comments,
  and the lexemes that carry them.
-/

namespace MessageSchema

/-- A place in a text.  The offset counts 16-bit units from the start of the
    text; lines and columns count from one, columns in 16-bit units. -/
structure Position where
  offset : Nat
  line : Nat
  column : Nat
  deriving DecidableEq, Repr

/-- The start of a text. -/
def Position.origin : Position := ⟨0, 1, 1⟩

/-- The words of the language. -/
inductive Keyword where
  | import_ | as_ | namespace_ | message | openEnum | enum | options | map
  | string | int | float | bool | byte
  deriving DecidableEq, Repr

namespace Keyword

/-- All keywords. -/
def all : List Keyword :=
  [import_, as_, namespace_, message, openEnum, enum, options, map, string, int, float, bool, byte]

/-- How a keyword is written. -/
def word : Keyword → String
  | import_ => "import" | as_ => "as" | namespace_ => "namespace" | message => "message"
  | openEnum => "open_enum" | enum => "enum" | options => "options" | map => "Map"
  | string => "string" | int => "int" | float => "float" | bool => "bool" | byte => "byte"

/-- The name under which a keyword appears in syntax messages. -/
def label : Keyword → String
  | import_ => "ImportKw" | as_ => "AsKw" | namespace_ => "NamespaceKw" | message => "MessageKw"
  | openEnum => "OpenEnumKw" | enum => "EnumKw" | options => "OptionsKw" | map => "MapKw"
  | string => "StringKw" | int => "IntKw" | float => "FloatKw" | bool => "BoolKw" | byte => "ByteKw"

/-- The keyword that a word is. -/
def ofWord? (w : String) : Option Keyword := all.find? fun k => k.word = w

theorem ofWord?_word (k : Keyword) : ofWord? k.word = some k := by cases k <;> rfl

end Keyword

/-- The kinds of tokens. -/
inductive Kind where
  | colons | colon | semicolon | comma | dot | bar | equals
  | leftBrace | rightBrace | leftBracket | rightBracket | leftAngle | rightAngle
  | text | number
  | keyword (word : Keyword)
  | identifier
  deriving DecidableEq, Repr

/-- The name under which a kind appears in syntax messages. -/
def Kind.label : Kind → String
  | colons => "DoubleColon" | colon => "Colon" | semicolon => "Semicolon" | comma => "Comma"
  | dot => "Dot" | bar => "Pipe" | equals => "Equals"
  | leftBrace => "LCurly" | rightBrace => "RCurly"
  | leftBracket => "LSquare" | rightBracket => "RSquare"
  | leftAngle => "LAngle" | rightAngle => "RAngle"
  | text => "StringLiteral" | number => "NumberLiteral"
  | keyword w => w.label
  | identifier => "Identifier"

/-- The kinds of comments. -/
inductive CommentKind where
  /-- three slashes: documentation up to the end of the line -/
  | doc
  /-- two slashes: a remark up to the end of the line -/
  | line
  /-- a remark between a slash with a star and a star with a slash -/
  | block
  deriving DecidableEq, Repr

/-- A piece of a text with its kind, from its first to its last unit. -/
structure Lexeme (κ : Type) where
  kind : κ
  image : String
  first : Position
  last : Position
  deriving DecidableEq, Repr

/-- The lexemes that the grammar is about. -/
abbrev Token := Lexeme Kind

/-- The lexemes that are remarks. -/
abbrev Comment := Lexeme CommentKind

/-- Characters that start no lexeme. -/
structure Stray where
  image : String
  first : Position
  deriving DecidableEq, Repr

end MessageSchema
