/-
  Syntax trees.

  A tree has a node for every rule that was applied and a leaf for every token,
  in the order of the text.
-/
import MessageSchema.Grammar

namespace MessageSchema

/-- How a sequence of tokens is derived from the grammar. -/
inductive Tree where
  | leaf (token : Token)
  | node (rule : Rule) (children : List Tree)

namespace Tree

mutual

/-- The tokens of a tree, in their order. -/
def tokens : Tree → List Token
  | leaf t => [t]
  | node _ children => tokensOfAll children

/-- The tokens of several trees. -/
def tokensOfAll : List Tree → List Token
  | [] => []
  | t :: ts => t.tokens ++ tokensOfAll ts

end

/-- The trees directly below. -/
def children : Tree → List Tree
  | leaf _ => []
  | node _ cs => cs

/-- Whether a tree applies a rule. -/
def isNode (r : Rule) : Tree → Bool
  | leaf _ => false
  | node r' _ => r' = r

/-- The token of a leaf of a kind. -/
def leaf? (k : Kind) : Tree → Option Token
  | leaf t => if t.kind = k then some t else none
  | node _ _ => none

/-- The children that apply a rule. -/
def all (t : Tree) (r : Rule) : List Tree := t.children.filter (isNode r)

/-- The first child that applies a rule. -/
def find? (t : Tree) (r : Rule) : Option Tree := t.children.find? (isNode r)

/-- The tokens of a kind directly below. -/
def leaves (t : Tree) (k : Kind) : List Token := t.children.filterMap (leaf? k)

/-- Whether a token of a kind stands directly below the root. -/
def hasLeaf (t : Tree) (k : Kind) : Bool := !(t.leaves k).isEmpty

/-- The texts of the tokens, without what stands between them. -/
def image (t : Tree) : String := String.join (t.tokens.map (·.image))

end Tree

end MessageSchema
