/-
  Walking through the namespaces of a draft.
-/
import MessageSchema.Draft
import MessageSchema.QualifiedName

namespace MessageSchema.Draft

/-- A namespace, its index and its qualified name. -/
structure Site where
  index : Nat
  ns : Namespace
  qualified : String

/-- A namespace met on a walk, and the namespaces around it, innermost first. -/
structure Visit where
  site : Site
  around : List Site

/-- The namespaces that a declaration of a visited one stands in, innermost first. -/
def Visit.enclosing (v : Visit) : List Site := v.site :: v.around

/-- The visits to some namespaces and those inside them, down to a depth. -/
def visitsFrom (arena : List Namespace) : Nat → List Site → List Nat → List Visit
  | 0, _, _ => []
  | depth + 1, around, children =>
    children.flatMap fun i =>
      match arena[i]? with
      | none => []
      | some ns =>
        let site : Site := ⟨i, ns, QualifiedName.join (around.head?.map (·.qualified)) ns.name⟩
        ⟨site, around⟩ :: visitsFrom arena depth (site :: around) ns.scope.children

/-- The visits to all namespaces of a draft; none is nested deeper than there are
    namespaces. -/
def walk (d : Draft) : List Draft.Visit :=
  visitsFrom d.arena d.arena.length [] d.top.children

/-- The names of a namespace and of those around it, outermost first, as far as
    no index comes again. -/
def ancestry (arena : List Namespace) : Nat → List Nat → Option Nat → List String
  | 0, _, _ => []
  | _, _, none => []
  | depth + 1, seen, some i =>
    if seen.contains i then []
    else
      match arena[i]? with
      | none => []
      | some ns => ancestry arena depth (i :: seen) ns.parent ++ [ns.name]

/-- The qualified name of a namespace by the names of those around it. -/
def pathOf (arena : List Namespace) (i : Nat) : String :=
  QualifiedName.joinAll (ancestry arena (arena.length + 1) [] (some i))

/-! ## Changing declarations -/

namespace FieldType

/-- Maps the name in a scalar type. -/
def mapScalar (f : TypeName → TypeName) : ScalarType → ScalarType
  | .primitive p => .primitive p
  | .named n => .named (f n)

/-- Maps the names in an element type. -/
def mapElement (f : TypeName → TypeName) : ElementType → ElementType
  | .scalar s => .scalar (mapScalar f s)
  | .inline k vs => .inline k vs
  | .compound base components => .compound (mapScalar f base) components

/-- Maps the names in the type of a field. -/
def mapNames (f : TypeName → TypeName) : FieldType → FieldType
  | .element e => .element (mapElement f e)
  | .array e => .array (mapElement f e)
  | .map key value => .map (mapScalar f key) (mapNames f value)

end FieldType

/-- Maps the names that a message mentions. -/
def Message.mapNames (f : TypeName → TypeName) (m : Message) : Message :=
  { m with
    parent := m.parent.map f
    fields := m.fields.map fun x => { x with type := x.type.mapNames f } }

/-- Maps the name of the parent. -/
def Enumeration.mapNames (f : TypeName → TypeName) (e : Enumeration) : Enumeration :=
  { e with parent := e.parent.map f }

/-- Maps the names that the declarations of a scope mention. -/
def Scope.mapNames (f : TypeName → TypeName) (s : Scope) : Scope :=
  { s with
    messages := s.messages.map (Message.mapNames f)
    enums := s.enums.map (Enumeration.mapNames f) }

end MessageSchema.Draft
