/-
  Declarations and entities with other origins.

  `relabel g` puts `g` of its origin in place of the origin of whatever has one; names,
  numbers, types and texts stay.  What counts values or looks for them goes by names
  and numbers, so it does the same after relabelling.

  * `mergeValues_relabel`: values with those that they inherit.
-/
import MessageSchema.Model.Build

namespace MessageSchema

open List

namespace Draft

variable (g : Origin → Origin)

def Field.relabel (f : Field) : Field := { f with origin := g f.origin }

def Message.relabel (m : Message) : Message :=
  { m with fields := m.fields.map (Field.relabel g), origin := g m.origin }

def EnumValue.relabel (v : EnumValue) : EnumValue := { v with origin := g v.origin }

def Enumeration.relabel (e : Enumeration) : Enumeration :=
  { e with values := e.values.map (EnumValue.relabel g), origin := g e.origin }

def Compound.relabel (c : Compound) : Compound := { c with origin := g c.origin }

end Draft

namespace Model

variable (g : Origin → Origin)

def Field.relabel (x : Field) : Field := { x with origin := g x.origin }

def Message.relabel (m : Message) : Message :=
  { m with fields := m.fields.map (Field.relabel g), origin := g m.origin }

def EnumValue.relabel (v : EnumValue) : EnumValue := { v with origin := g v.origin }

def Enumeration.relabel (e : Enumeration) : Enumeration :=
  { e with values := e.values.map (EnumValue.relabel g), origin := g e.origin }

def Compound.relabel (c : Compound) : Compound := { c with origin := g c.origin }

/-- An entity with its origins changed. -/
def Entity.relabel : Entity → Entity
  | .message m => .message (m.relabel g)
  | .enumeration e => .enumeration (e.relabel g)
  | .compound c => .compound (c.relabel g)

def Declaration.relabel : Declaration → Declaration
  | .message m => .message (m.relabel g)
  | .enumeration e => .enumeration (e.relabel g)
  | .compound c => .compound (c.relabel g)

/-- An entity with another origin; of a message the fields are left out. -/
def Entity.outline : Entity → Entity
  | .message m => .message { m.relabel g with fields := [] }
  | e => e.relabel g

/-- A declaration with another origin; of a message the fields are left out. -/
def Declaration.outline : Declaration → Declaration
  | .message m => .message { m.relabel g with fields := [] }
  | x => x.relabel g

/-- An entity; of a message the fields are left out. -/
def Entity.withoutFields : Entity → Entity
  | .message m => .message { m with fields := [] }
  | e => e

def Declaration.withoutFields : Declaration → Declaration
  | .message m => .message { m with fields := [] }
  | x => x

theorem Entity.withoutFields_relabel (e : Entity) : (e.relabel g).withoutFields = e.outline g := by
  cases e <;> rfl

theorem Declaration.withoutFields_relabel (x : Declaration) :
    (x.relabel g).withoutFields = x.outline g := by
  cases x <;> rfl

theorem Declaration.name_relabel (x : Declaration) : (x.relabel g).name = x.name := by
  cases x <;> rfl

theorem Entity.kind_outline (e : Entity) : (e.outline g).kind = e.kind := by
  cases e <;> rfl

theorem Entity.enumeration?_outline (e : Entity) :
    (e.outline g).enumeration? = e.enumeration?.map (Enumeration.relabel g) := by
  cases e <;> rfl

theorem Entity.compound?_outline (e : Entity) :
    (e.outline g).compound? = e.compound?.map (Compound.relabel g) := by
  cases e <;> rfl

theorem Declaration.kind_outline (x : Declaration) : (x.outline g).kind = x.kind := by
  cases x <;> rfl

theorem Declaration.enumeration?_outline (x : Declaration) :
    (x.outline g).enumeration? = x.enumeration?.map (Draft.Enumeration.relabel g) := by
  cases x <;> rfl

theorem Declaration.compound?_outline (x : Declaration) :
    (x.outline g).compound? = x.compound?.map (Draft.Compound.relabel g) := by
  cases x <;> rfl

/-- With the origins that it has, an entity stays as it is. -/
theorem Entity.relabel_id (e : Entity) : e.relabel id = e := by
  cases e with
  | message m =>
    have hfields : m.fields.map (Field.relabel id) = m.fields := map_id m.fields
    rw [Entity.relabel, Message.relabel, hfields]
    rfl
  | enumeration e =>
    have hvalues : e.values.map (EnumValue.relabel id) = e.values := map_id e.values
    rw [Entity.relabel, Enumeration.relabel, hvalues]
    rfl
  | compound c => rfl

/-! ## Values -/

def Merged.relabel (m : Merged) : Merged :=
  ⟨m.values.map (EnumValue.relabel g), m.duplicates.map (Prod.map (Draft.EnumValue.relabel g) id),
    m.overflows.map (Draft.EnumValue.relabel g)⟩

theorem mergeFrom_relabel (renumber : Bool) (taken used : List String) (previous : Option Int)
    (vs : List Draft.EnumValue) :
    mergeFrom renumber taken used previous (vs.map (Draft.EnumValue.relabel g)) =
      (mergeFrom renumber taken used previous vs).relabel g := by
  induction vs generalizing used previous with
  | nil => rfl
  | cons v vs ih =>
    by_cases htaken : (taken.contains v.name || used.contains v.name) = true
    · simp only [map_cons, mergeFrom, Draft.EnumValue.relabel, htaken, if_true, ih]
      rfl
    · simp only [map_cons, mergeFrom, Draft.EnumValue.relabel, htaken, ih]
      cases v.explicit || !renumber with
      | false =>
        simp only [Bool.false_eq_true, if_false]
        split <;> rfl
      | true =>
        by_cases hrange : EnumKind.inRange v.number = true <;> simp only [hrange, if_true] <;> rfl

theorem mergeValues_relabel (renumber : Bool) (inherited : List EnumValue)
    (own : List Draft.EnumValue) :
    mergeValues renumber (inherited.map (EnumValue.relabel g))
      (own.map (Draft.EnumValue.relabel g)) =
      (mergeValues renumber inherited own).relabel g := by
  have hnames : (inherited.map (EnumValue.relabel g)).map (·.name) = inherited.map (·.name) :=
    map_map
  have hlast : (inherited.map (EnumValue.relabel g)).getLast?.map (·.number) =
      inherited.getLast?.map (·.number) := by
    rw [getLast?_map, Option.map_map]
    rfl
  simp only [mergeValues, hnames, hlast, mergeFrom_relabel]
  simp only [Merged.relabel, map_append, map_map]
  rfl

end Model

/-! ## Defaults -/

namespace DefaultValue

open Model (EnumValue)

variable (g : Origin → Origin)

theorem findValue?_relabel (text enumeration : String) (vs : List EnumValue) :
    findValue? text enumeration (vs.map (EnumValue.relabel g)) =
      (findValue? text enumeration vs).map (EnumValue.relabel g) := by
  rw [findValue?, findValue?]
  cases valueName? text enumeration with
  | none => rfl
  | some name => exact find?_map

theorem readFlags_relabel (options : String) (vs : List EnumValue) (parts : List String) :
    readFlags options (vs.map (EnumValue.relabel g)) parts = readFlags options vs parts := by
  have hflag : ∀ part, readFlag options (vs.map (EnumValue.relabel g)) part =
      readFlag options vs part := by
    intro part
    rw [readFlag, readFlag, findValue?_relabel]
    cases findValue? part options vs <;> rfl
  induction parts with
  | nil => rfl
  | cons part parts ih => rw [readFlags, readFlags, hflag, ih]

/-- The values of enumerations count by their names and numbers. -/
theorem read_relabel (valuesOf : String → List EnumValue) (text : String) (t : FieldType) :
    read (fun name => (valuesOf name).map (EnumValue.relabel g)) text t = read valuesOf text t := by
  unfold read
  split
  · rfl
  · next name =>
    rw [findValue?_relabel]
    cases findValue? text name (valuesOf name) <;> rfl
  · simp only [readFlags_relabel]
  · rfl

/-- Only the values of the type itself count. -/
theorem read_congr {valuesOf valuesOf' : String → List EnumValue} (text : String) {t : FieldType}
    (h : ∀ ref, t = .entity ref → ref.kind = .enumeration ∨ ref.kind = .options →
      valuesOf ref.name = valuesOf' ref.name) : read valuesOf text t = read valuesOf' text t := by
  unfold read
  split
  · rfl
  · next name => rw [h ⟨.enumeration, name⟩ rfl (.inl rfl)]
  · next name => rw [h ⟨.options, name⟩ rfl (.inr rfl)]
  · rfl

end DefaultValue

end MessageSchema
