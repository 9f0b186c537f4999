/-
  Faults: what can be wrong with a schema, where, and how it is worded.

  A fault is a cause and a place.  Causes carry the names and numbers involved;
  `Cause.message` gives their wording and `Cause.code` their class.
-/
import MessageSchema.Text.Units
import MessageSchema.Token

namespace MessageSchema

/-- The kinds of faults. -/
inductive Code where
  | ungrammatical
  | unresolvedReference
  | duplicateDefinition
  | duplicateEnumValue
  | circularImport
  | circularInheritance
  | missingImport
  | invalidDefault
  | invalidType
  | pipeline
  deriving DecidableEq, Repr

/-- How a kind of fault is written. -/
def Code.word : Code → String
  | ungrammatical => "syntax"
  | unresolvedReference => "unresolved-reference"
  | duplicateDefinition => "duplicate-definition"
  | duplicateEnumValue => "duplicate-enum-value"
  | circularImport => "circular-import"
  | circularInheritance => "circular-inheritance"
  | missingImport => "missing-import"
  | invalidDefault => "invalid-default"
  | invalidType => "invalid-type"
  | pipeline => "pipeline"

/-- What a grammar allows at a place, for want of which it stops. -/
inductive Expectation where
  /-- one kind of token, or the end of the text -/
  | token (kind : Option Kind)
  /-- one of several alternatives, by their first tokens -/
  | alternative (firsts : List Kind)
  /-- a first round of a repetition, by its first tokens -/
  | round (firsts : List Kind)
  /-- nothing more -/
  | nothing
  deriving DecidableEq, Repr

namespace Expectation

/-- The labels of kinds of tokens, numbered from a number on. -/
def numbered : Nat → List Kind → List String
  | _, [] => []
  | n, k :: ks => s!"  {n}. [{k.label}]" :: numbered (n + 1) ks

/-- The wording of a failed expectation; `found` is the text met instead. -/
def message (found : String) : Expectation → String
  | token kind =>
    let label := (kind.map Kind.label).getD "EOF"
    s!"Expecting token of type --> {label} <-- but found --> '{found}' <--"
  | alternative firsts =>
    "Expecting: one of these possible Token sequences:\n" ++ "\n".intercalate (numbered 1 firsts)
      ++ s!"\nbut found: '{found}'"
  | round firsts =>
    "Expecting: expecting at least one iteration which starts with one of these possible "
      ++ "Token sequences::\n  <"
      ++ " ,".intercalate (firsts.map fun k => s!"[{k.label}]") ++ s!">\nbut found: '{found}'"
  | nothing => s!"Redundant input, expecting EOF but found: {found}"

end Expectation

/-- Why the text of a default does not fit the type of its field. -/
inductive DefaultCause where
  | notInteger (text : String)
  | notByte (text : String)
  | notNumber (text : String)
  | notTruth (text : String)
  | notQuoted (text : String)
  | notValue (text enumeration : String)
  | notFlag (part options : String)
  | flagsOutOfRange (part options : String)
  deriving DecidableEq, Repr

/-- What is said about a default that does not fit. -/
def DefaultCause.message : DefaultCause → String
  | notInteger text => s!"Default \"{text}\" is not an integer"
  | notByte text => s!"Default {text} is out of range for byte"
  | notNumber text => s!"Default \"{text}\" is not a number"
  | notTruth text => s!"Default \"{text}\" is not a boolean"
  | notQuoted text => s!"String default must be quoted, found {text}"
  | notValue text enumeration => s!"\"{text}\" is not a value of {enumeration}"
  | notFlag part options => s!"\"{part}\" is not a flag of {options}"
  | flagsOutOfRange part options => s!"Flags {part} are out of range for {options}"

/-- Why a schema is faulty. -/
inductive Cause where
  /-- characters that start no lexeme -/
  | strayText (found : String)
  /-- a text that the grammar does not derive -/
  | unexpected (expectation : Expectation) (found : String)
  /-- an enum value given by a number with a fraction or an exponent -/
  | valueNotInteger (literal : String)
  /-- an enum value given by a number beyond 64 bits -/
  | literalTooWide (number : Int)
  /-- an enum value whose number, given or counted on, is beyond 64 bits -/
  | numberTooWide (number : Int) (name : String)
  /-- a name in `context` that denotes nothing visible -/
  | unresolved (name context : String)
  | aliasTaken (key : String) (line : Nat)
  | namespaceTwice (name : String) (line : Nat)
  | namespaceInFiles (name owner file : String)
  | definitionTwice (name home : String) (line : Nat)
  | fieldTwice (name message : String)
  | fieldInherited (name message owner : String)
  | valueTwice (name enumeration : String)
  | valueInherited (name enumeration parent : String)
  /-- files that import each other, the first repeated at the end -/
  | importCycle (files : List String)
  /-- declarations that inherit from each other, the first repeated at the end -/
  | inheritanceCycle (names : List String)
  | importMissing (path resolved : String)
  | defaultUnfit (cause : DefaultCause) (context : String)
  | parentNotEnum (parent enumeration : String)
  | parentNotMessage (parent message : String)
  | valueTooWide (name enumeration : String)
  | unknownModifier (modifier context : String)
  | compoundBase (context base : String)
  | mapKey (context : String)
  /-- a pass that needs the file-level namespace `stem` ran without it -/
  | notWrapped (pass stem : String)
  /-- a pass that broke off for a reason of its own -/
  | passFailed (pass reason : String)
  | outsideNamespace (name : String)
  | notPromoted (kind context : String)
  /-- a cause in the words of whoever reports it -/
  | reported (code : Code) (text : String)
  deriving DecidableEq, Repr

namespace Cause

/-- The kind of a cause. -/
def code : Cause → Code
  | strayText _ | unexpected _ _ | valueNotInteger _ | literalTooWide _ | numberTooWide _ _ =>
    .ungrammatical
  | unresolved _ _ => .unresolvedReference
  | aliasTaken _ _ | namespaceTwice _ _ | namespaceInFiles _ _ _ | definitionTwice _ _ _
  | fieldTwice _ _ | fieldInherited _ _ _ => .duplicateDefinition
  | valueTwice _ _ | valueInherited _ _ _ => .duplicateEnumValue
  | importCycle _ => .circularImport
  | inheritanceCycle _ => .circularInheritance
  | importMissing _ _ => .missingImport
  | defaultUnfit _ _ => .invalidDefault
  | parentNotEnum _ _ | parentNotMessage _ _ | valueTooWide _ _ | unknownModifier _ _
  | compoundBase _ _ | mapKey _ => .invalidType
  | notWrapped _ _ | passFailed _ _ | outsideNamespace _ | notPromoted _ _ => .pipeline
  | reported c _ => c

/-- What is said about a cause. -/
def message : Cause → String
  | strayText found => s!"Unexpected character \"{found}\""
  | unexpected expectation found => expectation.message found
  | valueNotInteger literal => s!"Enum value must be an integer, found \"{literal}\""
  | literalTooWide number => s!"Enum value {number} does not fit in 64 bits"
  | numberTooWide number name => s!"Value {number} of \"{name}\" does not fit in 64 bits"
  | unresolved name context => s!"Unresolved reference \"{name}\" in {context}"
  | aliasTaken key line => s!"Import alias \"{key}\" is already used by the import at line {line}"
  | namespaceTwice name line => s!"Namespace \"{name}\" is already declared at line {line}"
  | namespaceInFiles name owner file =>
    s!"Namespace \"{name}\" is declared in both {owner} and {file}"
  | definitionTwice name home line =>
    s!"Duplicate definition of \"{name}\" in namespace {home} (first declared at line {line})"
  | fieldTwice name message => s!"Duplicate field \"{name}\" in message {message}"
  | fieldInherited name message owner =>
    s!"Field \"{name}\" of message {message} is already declared in {owner}"
  | valueTwice name enumeration => s!"Duplicate enum value \"{name}\" in {enumeration}"
  | valueInherited name enumeration parent =>
    s!"Enum value \"{name}\" of {enumeration} redefines a value inherited from {parent}"
  | importCycle files => "Circular import: " ++ " -> ".intercalate files
  | inheritanceCycle names => "Circular inheritance: " ++ " -> ".intercalate names
  | importMissing path resolved => s!"Imported file \"{path}\" not found (looked for {resolved})"
  | defaultUnfit cause context => s!"{cause.message} ({context})"
  | parentNotEnum parent enumeration => s!"Parent \"{parent}\" of enum {enumeration} is not an enum"
  | parentNotMessage parent message => s!"Parent \"{parent}\" of message {message} is not a message"
  | valueTooWide name enumeration =>
    s!"Value of \"{name}\" in {enumeration} does not fit in 64 bits"
  | unknownModifier modifier context => s!"Unknown modifier \"{modifier}\" on {context}"
  | compoundBase context base =>
    s!"Compound base of {context} must be a primitive type, found \"{base}\""
  | mapKey context => s!"Map key of {context} must be a primitive or enum type"
  | notWrapped pass stem => s!"{pass} needs everything inside the file-level namespace \"{stem}\""
  | passFailed pass reason => s!"{pass} failed: {reason}"
  | outsideNamespace name =>
    s!"\"{name}\" is declared outside any namespace; add the file-level namespace first"
  | notPromoted kind context => s!"Inline {kind} on {context} has not been promoted"
  | reported _ text => text

end Cause

/-- A cause and the place it is reported at.  Lines and columns count from one;
    an unknown column is `0`. -/
structure Fault where
  cause : Cause
  file : String
  line : Int
  column : Int := 0
  /-- the offending text, for faults of syntax that have one -/
  token : Option String := none
  deriving DecidableEq, Repr

namespace Fault

/-- What is said about a fault. -/
def message (f : Fault) : String := f.cause.message

/-- The kind of a fault. -/
def code (f : Fault) : Code := f.cause.code

/-- A fault with its place, as it is printed. -/
def format (f : Fault) : String := s!"{f.file}:{f.line}: {f.message}"

end Fault

/-- The faults for which a schema is rejected. -/
structure Rejection where
  faults : List Fault
  deriving DecidableEq, Repr

/-- The wording of a rejection: how many faults, then each on a line of its own. -/
def Rejection.message (r : Rejection) : String :=
  let count := if r.faults.length = 1 then "1 error" else s!"{r.faults.length} errors"
  s!"Compilation failed with {count}:\n" ++ "\n".intercalate
    (r.faults.map fun f => s!"  {f.format}")

/-! ## Diagnostics -/

/-- A place of an editor, counted from zero; `none` where the place is unknown. -/
structure Point where
  line : Option Nat
  character : Option Nat
  deriving DecidableEq, Repr

/-- A stretch of a text as editors mark it. -/
structure Range where
  start : Point
  stop : Point
  deriving DecidableEq, Repr

/-- A fault as editors show it. -/
structure Diagnostic where
  cause : Cause
  file : String
  range : Range
  deriving DecidableEq, Repr

/-- The character at which a range ends if it runs to the end of its line. -/
def Diagnostic.lineEnd : Nat := 999

/-- The range of a fault: its offending text, or its whole line if it has none. -/
def Fault.diagnostic (f : Fault) : Diagnostic :=
  let line := (f.line - 1).toNat
  let character := (f.column - 1).toNat
  let width := match f.code with
    | .ungrammatical => Text.width (f.token.getD "")
    | _ => 0
  let stop := if 0 < width then character + width else Diagnostic.lineEnd
  ⟨f.cause, f.file, ⟨some line, some character⟩, ⟨some line, some stop⟩⟩

end MessageSchema
