/-
  Qualified names.

  A qualified name is a text whose parts are joined by double colons.
-/
import MessageSchema.Text.Blank
import MessageSchema.Text.Split

namespace MessageSchema.QualifiedName

/-- The name of a member of `outer`; a missing or empty `outer` adds nothing. -/
def join (outer : Option String) (name : String) : String :=
  match outer with
  | none => name
  | some o => if o = "" then name else o ++ "::" ++ name

/-- The qualified name of several parts. -/
def joinAll (names : List String) : String := "::".intercalate names

/-- The parts of a qualified name. -/
def parts (name : String) : List String := Text.split Text.atColons name

/-- Whether a name has more parts than one. -/
def isQualified (name : String) : Bool := (parts name).length != 1

/-- The first part of a name. -/
def head (name : String) : String := (parts name).headD ""

/-- The characters of a dotted name with its separators written as colons. -/
def dotsToColons : List Char → List Char
  | [] => []
  | c :: s => if c = '.' then ':' :: ':' :: dotsToColons s else c :: dotsToColons s

/-- A name without blanks in which every dot is written as a double colon. -/
def withColons (name : String) : String := String.ofList (dotsToColons (Text.squeeze name).toList)

/-- The name of the type written inline as the type of a field. -/
def ofInline (message field : String) : String := message ++ "_" ++ field

/-- If `name` starts with `outer` and a double colon, what follows them. -/
def strip? (outer name : String) : Option String :=
  let o := outer.toList ++ [':', ':']
  if o.isPrefixOf name.toList then some (String.ofList (name.toList.drop o.length)) else none

end MessageSchema.QualifiedName
