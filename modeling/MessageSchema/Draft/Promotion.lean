/-
  Inline types become declarations.

  `Draft.promote` lifts every enumeration and set of flags that is written in
  place of a field type out of its field: it becomes a declaration beside the
  message, and the field refers to it.

  Promotion goes through the file first, then through the namespaces as they
  are walked.  If the values of a type cannot be numbered it stops there, and
  what has been promoted stays promoted.
-/
import MessageSchema.Draft.Numbering
import MessageSchema.Draft.Walk

namespace MessageSchema.Draft

namespace FieldType

/-- The kind and the values of the inline type inside a type. -/
def inline? : FieldType → Option (EnumKind × List RawValue)
  | .element (.inline k vs) | .array (.inline k vs) => some (k, vs)
  | .map _ value => value.inline?
  | _ => none

/-- The type with a name in place of the enumeration written in it. -/
def replaceInline (n : TypeName) : FieldType → FieldType
  | .element (.inline _ _) => .element (.scalar (.named n))
  | .array (.inline _ _) => .array (.scalar (.named n))
  | .map key value => .map key (value.replaceInline n)
  | t => t

end FieldType

/-- The declaration that the inline type of a field becomes. -/
def Field.declaration (f : Field) (message : String) (kind : EnumKind) (vs : List RawValue) :
    Except Fault Enumeration := do
  let values ← number kind f.origin.file f.origin.home vs
  return ⟨QualifiedName.ofInline message f.name, none, kind, values, f.origin⟩

/-- A field whose inline type is a declaration of its own, and that declaration.
    `home` is the qualified name of the namespace it goes to. -/
def Field.promote (home : Option String) (message : String) (f : Field) :
    Except Fault (Field × List Enumeration) :=
  match f.type.inline? with
  | none => .ok (f, [])
  | some (kind, vs) => do
    let e ← f.declaration message kind vs
    let n : TypeName := ⟨QualifiedName.join home e.name, true⟩
    return ({ f with type := f.type.replaceInline n }, [e])

/-- The fields of a message with their inline types promoted, up to the first
    whose values cannot be numbered; the promoted types; and that fault. -/
def promoteFields (home : Option String) (message : String) :
    List Field → List Field × List Enumeration × Option Fault
  | [] => ([], [], none)
  | f :: fs =>
    match f.promote home message with
    | .error fault => (f :: fs, [], some fault)
    | .ok (f', new) =>
      let (fs', more, fault) := promoteFields home message fs
      (f' :: fs', new ++ more, fault)

/-- Promotes the fields of messages, up to the first fault. -/
def promoteMessages (home : Option String) :
    List Message → List Message × List Enumeration × Option Fault
  | [] => ([], [], none)
  | m :: ms =>
    let (fields, new, fault) := promoteFields home m.name m.fields
    let m' := { m with fields }
    match fault with
    | some fault => (m' :: ms, new, some fault)
    | none =>
      let (ms', more, fault) := promoteMessages home ms
      (m' :: ms', new ++ more, fault)

/-- Promotes the fields of a scope and adds the enumerations that arise. -/
def Scope.promote (home : Option String) (s : Scope) : Scope × Option Fault :=
  let (messages, new, fault) := promoteMessages home s.messages
  ({ s with
      messages
      enums := s.enums ++ new.filter (·.kind ≠ .flags)
      options := s.options ++ new.filter (·.kind = .flags) }, fault)

/-- Promotes the inline types of some namespaces of an arena, in order. -/
def promoteAt : List Nat → List Namespace → List Namespace × Option Fault
  | [], arena => (arena, none)
  | i :: is, arena =>
    match arena[i]? with
    | none => promoteAt is arena
    | some ns =>
      let (scope, fault) := ns.scope.promote ns.qualified
      let arena' := arena.set i { ns with scope }
      match fault with
      | some fault => (arena', some fault)
      | none => promoteAt is arena'

/-- A draft with its inline types promoted, as far as their values can be numbered. -/
def promote (d : Draft) : Draft × Option Fault :=
  let (top, fault) := d.top.promote none
  match fault with
  | some fault => ({ d with top }, some fault)
  | none =>
    let (arena, fault) := promoteAt (d.walk.map (·.site.index)) d.arena
    ({ d with top, arena }, fault)

end MessageSchema.Draft
