/-
  Reading the text of a default.

  A default of a primitive type is a literal of that type.  A default of an
  enumeration is the name of a value, a default of a set of flags is a list of
  names and numbers separated by bars; names may be qualified by the last parts
  of the name of the enumeration.  Defaults of other types are kept as texts.
-/
import MessageSchema.Draft.Numbering
import MessageSchema.Model
import MessageSchema.Numeral
import MessageSchema.QualifiedName
import MessageSchema.Text.Quoted

namespace MessageSchema

namespace Flags

/-- The flags of two numbers together, negative numbers having all high bits set. -/
def union : Int → Int → Int
  | .ofNat a, .ofNat b => .ofNat (a ||| b)
  | .ofNat a, .negSucc b => .negSucc (b - (b &&& a))
  | .negSucc a, .ofNat b => .negSucc (a - (a &&& b))
  | .negSucc a, .negSucc b => .negSucc (a &&& b)

end Flags

namespace DefaultValue

open Model (EnumValue)

/-- The parts of a name, separated by double colons or dots, without blanks around
    them. -/
def nameParts (text : String) : List String := (Text.split Text.atColonsOrDot text).map Text.trim

/-- The name of a value, if its qualifier is empty or agrees with the last parts of
    the name of its enumeration. -/
def valueName? (text enumeration : String) : Option String :=
  let parts := nameParts text
  let qualifier := parts.dropLast
  let owner := QualifiedName.parts enumeration
  let suffix := owner.drop (owner.length - qualifier.length)
  if qualifier.isEmpty ||
      (qualifier.length ≤ owner.length &&
        QualifiedName.joinAll suffix == QualifiedName.joinAll qualifier) then parts.getLast?
  else none

/-- The value of an enumeration that a text names. -/
def findValue? (text enumeration : String) (values : List EnumValue) : Option EnumValue :=
  (valueName? text enumeration).bind fun name => values.find? fun v => v.name = name

/-- The text between two quotes, its escapes replaced if they are all known. -/
def unquote (text : String) : Except DefaultCause String :=
  let s := text.toList
  if Text.width text < 2 || s.head? ≠ some '"' || s.getLast? ≠ some '"' then
    .error (.notQuoted text)
  else
    let inner := (s.drop 1).dropLast
    .ok (String.ofList ((Text.decode inner).getD inner))

/-- Reads the default of an integer. -/
def readInteger (text : String) : Except DefaultCause Decimal :=
  match Numeral.integer? text, Decimal.read? text with
  | some _, some d => .ok d
  | _, _ => .error (.notInteger text)

/-- Reads the default of a primitive type. -/
def readPrimitive (text : String) : Primitive → Except DefaultCause DefaultValue
  | .int => do return .number (← readInteger text).toFloat
  | .byte => do
    let d ← readInteger text
    if (d.negative && d.digits ≠ 0) || 255 < d.digits then throw (.notByte text)
    return .number d.toFloat
  | .float =>
    match Decimal.read? text with
    | some d => .ok (.number d.toFloat)
    | none => .error (.notNumber text)
  | .bool =>
    if text = "true" then .ok (.truth true)
    else if text = "false" then .ok (.truth false)
    else .error (.notTruth text)
  | .string => do return .text (← unquote text)

/-- What one part of a default of flags stands for: its name, if it is given by
    name, and its number. -/
def readFlag (options : String) (values : List EnumValue) (part : String) :
    Except DefaultCause (List String × Int) :=
  match Numeral.integer? part with
  | some n =>
    if 0 ≤ n && n ≤ EnumKind.maxNumber then .ok ([], n) else .error (.flagsOutOfRange part options)
  | none =>
    match findValue? part options values with
    | some v => .ok ([v.name], v.number)
    | none => .error (.notFlag part options)

/-- Reads flags given one by one, and puts them together. -/
def readFlags (options : String) (values : List EnumValue) :
    List String → Except DefaultCause (List String × Int)
  | [] => .ok ([], 0)
  | part :: parts => do
    let (names, n) ← readFlag options values part
    let (more, m) ← readFlags options values parts
    return (names ++ more, Flags.union n m)

/-- Reads the text of a default for a type; `valuesOf` gives the values of an
    enumeration. -/
def read (valuesOf : String → List EnumValue) (text : String) :
    FieldType → Except DefaultCause DefaultValue
  | .primitive p => readPrimitive text p
  | .entity ⟨.enumeration, name⟩ =>
    match findValue? text name (valuesOf name) with
    | some v => .ok (.value v.name v.number)
    | none => .error (.notValue text name)
  | .entity ⟨.options, name⟩ => do
    let parts := (Text.split (Text.atChar '|') text).map Text.trim
    let (names, n) ← readFlags name (valuesOf name) parts
    return .flags names n
  | _ => .ok (.raw text)

end DefaultValue

end MessageSchema
