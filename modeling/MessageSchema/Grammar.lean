/-
  The grammar of schema texts.

  A rule derives a sequence of items: tokens, other rules, optional parts,
  repetitions and choices.  Every decision is made by the next token: an item
  is entered if that token is among its first ones.  Two repetitions look
  further, by a guard: modifiers go on up to the name, which is the identifier
  before a colon, and a default goes on only while its atoms are on one line.
-/
import MessageSchema.Token

namespace MessageSchema

/-- The rules of the grammar. -/
inductive Rule where
  | file | importLine | declaration | namespaceBlock
  | messageBlock | field | default | defaultAtom | defaultGroup
  | type | mapType | elementType | inlineEnum | inlineOptions | scalarType | primitiveType
  | qualifiedName
  | enumBlock | optionsBlock | compoundBlock | valueList | value | componentList | name
  deriving DecidableEq, Repr

/-- A condition, beside the next token, for another round of a repetition. -/
inductive Guard where
  | always
  /-- the token after the next one is no colon -/
  | notBeforeColon
  /-- the next token starts on the line on which the one before it ends -/
  | sameLine
  deriving DecidableEq, Repr

/-- What the body of a rule is made of. -/
inductive Item where
  | token (kind : Kind)
  | rule (rule : Rule)
  | optional (body : List Item)
  /-- any number of rounds -/
  | many (guard : Guard) (body : List Item)
  /-- at least one round -/
  | many1 (guard : Guard) (body : List Item)
  | choice (alternatives : List (List Item))
  deriving Repr

namespace Rule

open Item

/-- One token of several kinds. -/
def oneOf (kinds : List Kind) : Item := choice (kinds.map fun k => [token k])

/-- One of several rules. -/
def oneRuleOf (rules : List Rule) : Item := choice (rules.map fun r => [rule r])

/-- What a rule derives. -/
def body : Rule → List Item
  | file => [many .always [oneRuleOf [importLine, declaration]]]
  | importLine =>
    [token (.keyword .import_), token .text,
      optional [token (.keyword .as_), rule name], optional [token .semicolon]]
  | declaration =>
    [oneRuleOf [namespaceBlock, messageBlock, enumBlock, optionsBlock, compoundBlock]]
  | namespaceBlock =>
    [token (.keyword .namespace_), rule name, token .leftBrace,
      many .always [rule declaration], token .rightBrace]
  | messageBlock =>
    [token (.keyword .message), rule name, optional [token .colon, rule qualifiedName],
      token .leftBrace, many .always [rule field], token .rightBrace]
  | field =>
    [many .notBeforeColon [token .identifier], rule name, token .colon, rule type,
      optional [token .equals, rule default], optional [token .semicolon]]
  | default => [many1 .sameLine [rule defaultAtom]]
  | defaultAtom =>
    [choice [[token .text], [token .number], [token .identifier], [token .colons], [token .dot],
      [token .bar], [token .comma], [rule defaultGroup]]]
  | defaultGroup =>
    [choice [[token .leftBrace, many .always [rule defaultAtom], token .rightBrace],
      [token .leftBracket, many .always [rule defaultAtom], token .rightBracket]]]
  | type =>
    [choice [[rule mapType],
      [rule elementType, optional [token .leftBracket, token .rightBracket]]]]
  | mapType =>
    [token (.keyword .map), token .leftAngle, rule scalarType, token .comma, rule type,
      token .rightAngle]
  | elementType =>
    [choice [[rule inlineEnum], [rule inlineOptions],
      [rule scalarType, optional [rule componentList]]]]
  | inlineEnum =>
    [oneOf [.keyword .enum, .keyword .openEnum], oneRuleOf [valueList, qualifiedName]]
  | inlineOptions => [token (.keyword .options), rule valueList]
  | scalarType => [oneRuleOf [primitiveType, qualifiedName]]
  | primitiveType =>
    [oneOf [.keyword .string, .keyword .int, .keyword .float, .keyword .bool, .keyword .byte]]
  | qualifiedName => [token .identifier, many .always [oneOf [.colons, .dot], rule name]]
  | enumBlock =>
    [oneOf [.keyword .enum, .keyword .openEnum], rule name,
      optional [token .colon, rule qualifiedName], rule valueList]
  | optionsBlock => [token (.keyword .options), rule name, rule valueList]
  | compoundBlock => [rule primitiveType, rule name, rule componentList]
  | valueList => [token .leftBrace, many .always [rule value], token .rightBrace]
  | value =>
    [rule name, optional [token .equals, token .number], optional [oneOf [.comma, .semicolon]]]
  | componentList =>
    [token .leftBrace, many .always [rule name, optional [token .comma]], token .rightBrace]
  | name => [oneOf (.identifier :: Keyword.all.map .keyword)]

end Rule

/-! ## First tokens -/

/-- Whether an item may derive nothing.  The only rule that may is that of a
    whole file, and no rule uses it. -/
def Item.isOptional : Item → Bool
  | .optional _ | .many _ _ => true
  | _ => false

mutual

/-- The tokens that can start an item, given those that can start a rule. -/
def Item.first (ofRule : Rule → List Kind) : Item → List Kind
  | .token k => [k]
  | .rule r => ofRule r
  | .optional body | .many _ body | .many1 _ body => seqFirst ofRule body
  | .choice alternatives => choiceFirst ofRule alternatives

/-- The tokens that can start a sequence of items: those of the first item, and,
    if it may derive nothing, those of the rest. -/
def seqFirst (ofRule : Rule → List Kind) : List Item → List Kind
  | [] => []
  | i :: is => i.first ofRule ++ if i.isOptional then seqFirst ofRule is else []

/-- The tokens that can start one of several sequences of items. -/
def choiceFirst (ofRule : Rule → List Kind) : List (List Item) → List Kind
  | [] => []
  | a :: as => seqFirst ofRule a ++ choiceFirst ofRule as

end

/-- The tokens that can start a rule, following rules that start with rules down
    to `depth` of them. -/
def Rule.firstTo : Nat → Rule → List Kind
  | 0, _ => []
  | depth + 1, r => seqFirst (firstTo depth) r.body

/-- The tokens that can start a rule: no chain of rules that start with each
    other is longer than five. -/
def Rule.first (r : Rule) : List Kind := r.firstTo 5

/-- The tokens that can start a sequence of items. -/
def firstOf (items : List Item) : List Kind := seqFirst Rule.first items

theorem Rule.firstTo_six (r : Rule) : r.firstTo 6 = r.first := by
  cases r <;> rfl

end MessageSchema
