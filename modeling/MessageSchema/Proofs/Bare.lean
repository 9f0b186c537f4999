/-
  Drafts without the notes that comments give, and with other lines.

  `bare f` takes the notes off whatever has some, and puts it on the line that `f`
  gives for its line; all the rest stays.  A *view* keeps the lines and looks at names
  and notes through functions.

  * `View.draft_bare`, `View.draft_useColons`: drafts without notes and drafts with double
    colons are views.
-/
import MessageSchema.Draft.Reading
import MessageSchema.Draft.Separators

namespace MessageSchema

open List

/-- An origin without notes, its line renumbered. -/
def Origin.bare (f : Nat → Nat) (o : Origin) : Origin := ⟨.none, o.file, f o.line, o.home⟩

namespace Draft

variable (f : Nat → Nat)

def RawValue.bare (v : RawValue) : RawValue := ⟨.none, v.name, v.number, f v.line⟩

def ElementType.bare : ElementType → ElementType
  | .inline kind values => .inline kind (values.map (RawValue.bare f))
  | .scalar s => .scalar s
  | .compound base components => .compound base components

def FieldType.bare : FieldType → FieldType
  | .element e => .element (e.bare f)
  | .array e => .array (e.bare f)
  | .map key value => .map key value.bare

def Field.bare (x : Field) : Field := { x with type := x.type.bare f, origin := x.origin.bare f }

def Message.bare (m : Message) : Message :=
  { m with fields := m.fields.map (Field.bare f), origin := m.origin.bare f }

def EnumValue.bare (v : EnumValue) : EnumValue := { v with origin := v.origin.bare f }

def Enumeration.bare (e : Enumeration) : Enumeration :=
  { e with values := e.values.map (EnumValue.bare f), origin := e.origin.bare f }

def Compound.bare (c : Compound) : Compound := { c with origin := c.origin.bare f }

def Scope.bare (s : Scope) : Scope :=
  { s with
    messages := s.messages.map (Message.bare f)
    enums := s.enums.map (Enumeration.bare f)
    options := s.options.map (Enumeration.bare f)
    compounds := s.compounds.map (Compound.bare f) }

def Namespace.bare (ns : Namespace) : Namespace :=
  ⟨.none, ns.name, ns.parent, ns.qualified, ns.file, f ns.line, ns.scope.bare f⟩

def Import.bare (i : Import) : Import := { i with line := f i.line }

/-- A draft without notes, its lines renumbered. -/
def bare (d : Draft) : Draft :=
  { d with
    top := d.top.bare f
    arena := d.arena.map (Namespace.bare f)
    imports := d.imports.map (Import.bare f) }

def Reader.Contribution.bare (c : Reader.Contribution) : Reader.Contribution :=
  ⟨c.scope.bare f, c.arena.map (Namespace.bare f)⟩

theorem Scope.bare_append (s t : Scope) : (s ++ t).bare f = s.bare f ++ t.bare f := by
  show Scope.bare f (s.append t) = (s.bare f).append (t.bare f)
  simp [bare, append]

/-! ## Views -/

theorem FieldType.mapNames_id (t : FieldType) : t.mapNames id = t := by
  have hscalar : ∀ s : ScalarType, mapScalar id s = s := by rintro (_ | _) <;> rfl
  have helement : ∀ e : ElementType, mapElement id e = e := by
    rintro (s | _ | ⟨base, _⟩)
    · rw [mapElement, hscalar]
    · rfl
    · rw [mapElement, hscalar]
  induction t with
  | element e | array e => rw [mapNames, helement]
  | map key value ih => rw [mapNames, hscalar, ih]

theorem Scope.mapNames_id (s : Scope) : s.mapNames id = s := by
  have hmessage : Message.mapNames id = id := by
    funext m
    simp [Message.mapNames, FieldType.mapNames_id, map_id', id]
  have henum : Enumeration.mapNames id = id := by
    funext e
    simp [Enumeration.mapNames, id]
  rw [mapNames, hmessage, henum, map_id, map_id]

/-- What is looked at: the texts of names, and notes. -/
structure View where
  text : String → String
  notes : Notes → Notes

namespace View

variable (v : View)

def name (n : TypeName) : TypeName := { n with text := v.text n.text }

def origin (o : Origin) : Origin := { o with toNotes := v.notes o.toNotes }

def value (x : RawValue) : RawValue := { x with toNotes := v.notes x.toNotes }

def element : ElementType → ElementType
  | .inline kind values => .inline kind (values.map v.value)
  | e => FieldType.mapElement v.name e

def type : FieldType → FieldType
  | .element e => .element (v.element e)
  | .array e => .array (v.element e)
  | .map key value => .map (FieldType.mapScalar v.name key) (type value)

def field (x : Field) : Field := { x with type := v.type x.type, origin := v.origin x.origin }

def message (m : Message) : Message :=
  { m with
    parent := m.parent.map v.name
    fields := m.fields.map v.field
    origin := v.origin m.origin }

def enumValue (x : EnumValue) : EnumValue := { x with origin := v.origin x.origin }

/-- The parent is looked at in a way of its own: sets of flags have none. -/
def enumeration (parent : Option TypeName → Option TypeName) (e : Enumeration) : Enumeration :=
  { e with
    parent := parent e.parent
    values := e.values.map v.enumValue
    origin := v.origin e.origin }

def compound (c : Compound) : Compound := { c with origin := v.origin c.origin }

def scope (s : Scope) : Scope :=
  { s with
    messages := s.messages.map v.message
    enums := s.enums.map (v.enumeration (Option.map v.name))
    options := s.options.map (v.enumeration id)
    compounds := s.compounds.map v.compound }

def block (ns : Namespace) : Namespace :=
  { ns with toNotes := v.notes ns.toNotes, scope := v.scope ns.scope }

/-- A draft as a view shows it. -/
def draft (d : Draft) : Draft := { d with top := v.scope d.top, arena := d.arena.map v.block }

def contribution (c : Reader.Contribution) : Reader.Contribution :=
  ⟨v.scope c.scope, c.arena.map v.block⟩

theorem scope_append (s t : Scope) : v.scope (s ++ t) = v.scope s ++ v.scope t := by
  show v.scope (s.append t) = (v.scope s).append (v.scope t)
  simp [scope, Scope.append]

def bare : View := ⟨id, fun _ => .none⟩

theorem type_bare (t : FieldType) : bare.type t = t.bare id := by
  have helement : ∀ e, bare.element e = e.bare id := by rintro ((_ | _) | _ | ⟨_ | _, _⟩) <;> rfl
  induction t with
  | element e | array e => rw [type, FieldType.bare, helement]
  | map key value ih =>
    rw [type, FieldType.bare, ih]
    cases key <;> rfl

theorem scope_bare (s : Scope) : bare.scope s = s.bare id := by
  have hname : bare.name = id := rfl
  have hfield : bare.field = Field.bare id := funext fun x => by
    rw [field, Field.bare, type_bare]; rfl
  have hmessage : bare.message = Message.bare id := funext fun m => by
    rw [message, Message.bare, hfield, hname, Option.map_id]; rfl
  have henum : bare.enumeration id = Enumeration.bare id := rfl
  rw [scope, Scope.bare, hmessage, hname, Option.map_id, henum]
  rfl

theorem draft_bare (d : Draft) : bare.draft d = d.bare id := by
  have hblock : bare.block = Namespace.bare id := funext fun ns => by rw [block, scope_bare]; rfl
  have himport : Import.bare id = id := rfl
  rw [draft, scope_bare, hblock, Draft.bare, himport, map_id]

/-- Drafts in which names are spelled in another way. -/
def spelled (f : String → String) : View := ⟨f, id⟩

theorem type_spelled (f : String → String) (t : FieldType) :
    (spelled f).type t = t.mapNames (spelled f).name := by
  have helement : ∀ e, (spelled f).element e = FieldType.mapElement (spelled f).name e := by
    have hvalue : (spelled f).value = id := rfl
    rintro (_ | _ | _)
    · rfl
    · rw [element, hvalue, map_id]; rfl
    · rfl
  induction t with
  | element e | array e => rw [type, FieldType.mapNames, helement]
  | map key value ih => rw [type, FieldType.mapNames, ih]

theorem scope_spelled (f : String → String) (s : Scope) :
    (spelled f).scope s = s.mapNames (spelled f).name := by
  have hfield : (spelled f).field = fun x => { x with type := x.type.mapNames (spelled f).name } :=
    funext fun x => by rw [field, type_spelled]; rfl
  have hmessage : (spelled f).message = Message.mapNames (spelled f).name :=
    funext fun m => by rw [message, hfield]; rfl
  have henum : ∀ g, (spelled f).enumeration g = fun e => { e with parent := g e.parent } :=
      fun g => funext fun e => by
    rw [enumeration, show (spelled f).enumValue = id from rfl, map_id]; rfl
  have hflags : (spelled f).enumeration id = id := henum id
  rw [scope, hmessage, henum, hflags, show (spelled f).compound = id from rfl, map_id, map_id]
  rfl

theorem contribution_id (c : Reader.Contribution) : (spelled id).contribution c = c := by
  have hscope : (spelled id).scope = id := funext fun s => (scope_spelled id s).trans s.mapNames_id
  have hblock : (spelled id).block = id := funext fun ns => by
    rw [block, hscope]
    rfl
  rw [contribution, hscope, hblock, map_id]
  rfl

theorem draft_useColons (d : Draft) : (spelled QualifiedName.withColons).draft d = d.useColons := by
  rw [draft, useColons, scope_spelled]
  congr 1
  exact map_congr_left fun ns _ => by
    rw [block, scope_spelled]
    rfl

end View

end Draft

end MessageSchema
