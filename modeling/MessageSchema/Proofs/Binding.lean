/-
  What the names of a draft are bound to.

  The builder keeps the shape of a draft and puts a reference for each of its names.
  The relations below say so for any reading `P` of "this name becomes that
  reference", and any reading `Q` of "a type written in place becomes that reference",
  so that they can be moved from a draft to the text that it comes from.
-/
import MessageSchema.Proofs.Entities

namespace MessageSchema

open Option

/-! ## Types -/

section
variable (P : Draft.TypeName → TypeRef → Prop) (Q : TypeRef → Prop)

/-- A scalar type becomes a type of a model. -/
inductive Draft.ScalarType.Bound : ScalarType → MessageSchema.FieldType → Prop
  | primitive (p : Primitive) : Bound (.primitive p) (.primitive p)
  | entity {n ref} : P n ref → ref.kind ≠ .compound → Bound (.named n) (.entity ref)
  | compound {n ref base components} : P n ref → ref.kind = .compound →
      Bound (.named n) (.compound base components (some ref))

/-- An element type becomes a type of a model. -/
inductive Draft.ElementType.Bound : ElementType → MessageSchema.FieldType → Prop
  | scalar {s T} : ScalarType.Bound P s T → Bound (.scalar s) T
  | inline {kind values ref} : Q ref → Bound (.inline kind values) (.entity ref)
  | compound (p : Primitive) (components : List String) :
      Bound (.compound (.primitive p) components) (.compound p components none)

/-- The type of a field becomes a type of a model. -/
inductive Draft.FieldType.Bound : FieldType → MessageSchema.FieldType → Prop
  | element {t T} : ElementType.Bound P Q t T → Bound (.element t) T
  | array {t T} : ElementType.Bound P Q t T → Bound (.array t) (.array T)
  | map {k K t T} : ScalarType.Bound P k K → Bound t T → Bound (.map k t) (.map K T)

/-- A message becomes a message of a model. -/
structure Draft.Message.Bound (m : Message) (result : Model.Message) : Prop where
  name : result.name = m.name
  parent : Rel (fun n ref => P n ref ∧ ref.kind = .message) m.parent result.parent
  fields : List.Forall₂ (fun f F => F.name = f.name ∧ FieldType.Bound P Q f.type F.type)
    m.fields result.fields

/-- An enumeration or a set of flags becomes one of a model. -/
structure Draft.Enumeration.Bound (e : Enumeration) (result : Model.Enumeration) : Prop where
  name : result.name = e.name
  parent : Rel (fun n ref => P n ref ∧ ref.kind = .enumeration) e.parent result.parent

/-- What is in a namespace becomes what is in a namespace of a model. -/
structure Draft.Scope.Bound (s : Scope) (ns : Model.Namespace) : Prop where
  messages : List.Forall₂ (Message.Bound P Q) s.messages ns.messages
  enums : List.Forall₂ (Enumeration.Bound P) s.enums ns.enums
  options : List.Forall₂ (Enumeration.Bound P) s.options ns.options

end

namespace Model.Binder

variable {b : Binder} {place : Origin} {context : String} {enums : Table Enumeration}
  {n : Draft.TypeName} {Q : TypeRef → Prop} {owner : String}

/-- A name of the draft is bound to a reference. -/
def Puts (b : Binder) (n : Draft.TypeName) (ref : TypeRef) : Prop := b.bind? n = some ref

variable {f : Draft.Field} {name : String} {m : Draft.Message}

/-- **What a name is bound to**: a declaration of the draft, or an imported entity. -/
theorem Puts.cases {ref : TypeRef} (h : b.Puts n ref) :
    n.resolved = true ∧ ref.name = n.text ∧
      ((∃ x, b.declared.find? n.text = some x ∧ ref.kind = x.kind) ∨
        b.declared.find? n.text = none ∧ ∃ e, b.importedEntity? n.text = some e ∧
          ref.kind = e.kind) := by
  rw [Puts, bind?] at h
  split at h
  · next hresolved =>
    split at h
    · next x hx =>
      cases h
      exact ⟨hresolved, rfl, .inl ⟨x, hx, rfl⟩⟩
    · next hnone =>
      obtain ⟨e, he, rfl⟩ := map_eq_some_iff.1 h
      exact ⟨hresolved, rfl, .inr ⟨hnone, e, he, rfl⟩⟩
  · cases h

theorem Puts.compoundParts? {ref : TypeRef} (h : b.Puts n ref) (hkind : ref.kind = .compound) :
    ∃ parts, b.compoundParts? ref.name = some parts := by
  obtain ⟨-, hname, ⟨x, hx, hk⟩ | ⟨hnone, e, he, hk⟩⟩ := h.cases
  · rw [hk] at hkind
    cases x with
    | message m => cases hkind
    | enumeration e => simp only [Declaration.kind] at hkind; split at hkind <;> cases hkind
    | compound c => exact ⟨_, by rw [Binder.compoundParts?, hname, hx]; rfl⟩
  · rw [hk] at hkind
    cases e with
    | message m => cases hkind
    | enumeration e => simp only [Entity.kind] at hkind; split at hkind <;> cases hkind
    | compound c => exact ⟨_, by rw [Binder.compoundParts?, hname, hnone, he]; rfl⟩

theorem bound_namedType (h : (b.namedType place context n).2 = []) :
    ∃ T, b.namedType place context n = (some T, []) ∧
      Draft.ScalarType.Bound b.Puts (.named n) T := by
  rw [namedType] at h ⊢
  split at h
  · cases h
  · next ref href =>
    split
    · next hkind =>
      obtain ⟨parts, hparts⟩ := Puts.compoundParts? href hkind
      exact ⟨_, by rw [hparts, map_some], .compound href hkind⟩
    · next hkind => exact ⟨_, rfl, .entity href hkind⟩

theorem bound_scalarType {s : Draft.ScalarType} (h : (b.scalarType place context s).2 = []) :
    ∃ T, b.scalarType place context s = (some T, []) ∧ s.Bound b.Puts T := by
  cases s with
  | primitive p => exact ⟨_, rfl, .primitive p⟩
  | named n => exact bound_namedType h

theorem bound_elementType {t : Draft.ElementType} (h : (b.elementType place context t).2 = []) :
    ∃ T, b.elementType place context t = (some T, []) ∧ t.Bound b.Puts Q T := by
  cases t with
  | scalar s =>
    obtain ⟨T, hT, hbound⟩ := bound_scalarType h
    exact ⟨T, hT, .scalar hbound⟩
  | inline kind values => cases kind <;> cases h
  | compound base components =>
    cases base with
    | primitive p => exact ⟨_, rfl, .compound p components⟩
    | named n => cases h

theorem faults_map {key : Draft.ScalarType} {value : Draft.FieldType}
    (h : (b.fieldType place context (.map key value)).2 = []) :
    (b.scalarType place context key).2 = [] ∧ (b.fieldType place context value).2 = [] := by
  obtain ⟨k, fs, hk⟩ : ∃ k fs, b.scalarType place context key = (k, fs) := ⟨_, _, rfl⟩
  obtain ⟨v, gs, hv⟩ : ∃ v gs, b.fieldType place context value = (v, gs) := ⟨_, _, rfl⟩
  rw [fieldType, hk, hv] at h
  rw [hk, hv]
  simp only at h ⊢
  split at h
  · split at h <;> simp_all
  · simp_all

/-- **A type that is built without a fault has its names bound.** -/
theorem bound_fieldType {t : Draft.FieldType} (h : (b.fieldType place context t).2 = []) :
    ∃ T, b.fieldType place context t = (some T, []) ∧ t.Bound b.Puts Q T := by
  induction t with
  | element e =>
    obtain ⟨T, hT, hbound⟩ := bound_elementType h
    exact ⟨T, hT, .element hbound⟩
  | array e =>
    obtain ⟨T, hT, hbound⟩ := bound_elementType (b := b) (t := e) h
    exact ⟨.array T, by rw [fieldType, hT]; rfl, .array hbound⟩
  | map key value ih =>
    obtain ⟨hk, hv⟩ := faults_map h
    obtain ⟨K, hK, hkey⟩ := bound_scalarType hk
    obtain ⟨V, hV, hvalue⟩ := ih hv
    rw [fieldType, hK, hV] at h ⊢
    simp only at h ⊢
    split at h
    · next hkeyType => exact ⟨_, by rw [if_pos hkeyType]; rfl, .map hkey hvalue⟩
    · cases h

/-! ## Messages -/

/-- **A field that is built without a fault** has a type, and the default that is read, if
    one is written. -/
theorem field_eq (h : (b.field enums owner f).2 = []) :
    ∃ T default, b.fieldType f.origin s!"field {owner}.{f.name}" f.type = (some T, []) ∧
      b.field enums owner f = (some ⟨f.name, T, f.modifiers, default, f.origin⟩, []) ∧
      f.default.map (fun text => DefaultValue.read (b.valuesOf enums) text T) =
        default.map .ok := by
  obtain ⟨t, fs, ht⟩ : ∃ t fs, b.fieldType f.origin s!"field {owner}.{f.name}" f.type = (t, fs) :=
    ⟨_, _, rfl⟩
  have hnil : fs = [] := by
    rw [field, ht] at h
    cases t with
    | none => exact h
    | some T => simp only at h; split at h <;> simp_all
  obtain ⟨T, hT, -⟩ := bound_fieldType (b := b) (Q := fun _ => True) (by rw [ht, hnil])
  rw [field, hT] at h ⊢
  simp only at h ⊢
  split at h
  · next hdefault => exact ⟨T, none, rfl, Prod.ext rfl h, hdefault⟩
  · next value hdefault => exact ⟨T, some value, rfl, Prod.ext rfl h, hdefault⟩
  · simp at h

theorem bound_field (h : (b.field enums owner f).2 = []) :
    ∃ F, b.field enums owner f = (some F, []) ∧ F.name = f.name ∧ f.type.Bound b.Puts Q F.type := by
  obtain ⟨T, default, hT, hfield, -⟩ := field_eq h
  obtain ⟨T', hT', hbound⟩ := bound_fieldType (b := b) (Q := Q) (congrArg Prod.snd hT)
  obtain rfl : T' = T := some.inj (Prod.mk.inj (hT'.symm.trans hT)).1
  exact ⟨_, hfield, rfl, hbound⟩

theorem forall₂_fields {R : Draft.Field → Field → Prop}
    (hone : ∀ {f}, (b.field enums owner f).2 = [] → ∃ F, b.field enums owner f =
      (some F, []) ∧ R f F)
    {inherited : Table String} {own : List String} {fs : List Draft.Field}
    (h : (b.fields enums owner inherited own fs).2 = []) :
    List.Forall₂ R fs (b.fields enums owner inherited own fs).1 := by
  induction fs generalizing own with
  | nil => exact .nil
  | cons f fs ih =>
    rw [fields] at h ⊢
    split at h
    · cases h
    · next hown =>
      rw [if_neg hown]
      split at h
      · cases h
      · next hinherited =>
        simp only [List.append_eq_nil_iff] at h
        obtain ⟨F, hF, hrel⟩ := hone h.1
        simp only [hF, toList_some, List.singleton_append]
        exact .cons hrel (ih h.2)

theorem bound_messageParent (h : (b.messageParent name m).2 = []) :
    Rel (fun n ref => b.Puts n ref ∧ ref.kind = .message) m.parent (b.messageParent name m).1 := by
  rw [messageParent] at h ⊢
  split at h
  · next hnone => rw [hnone]; exact .none
  · next p hp =>
    rw [hp]
    split at h
    · cases h
    · next ref href =>
      split at h
      · next hkind =>
        simp only [if_pos hkind]
        exact .some ⟨href, hkind⟩
      · cases h

/-- **A message that is built without a fault has its names bound.** -/
theorem bound_message {q : String} (h : (b.message enums q m).2 = []) :
    m.Bound b.Puts Q (b.message enums q m).1 := by
  obtain ⟨hparent, hfields⟩ := List.append_eq_nil_iff.1 h
  exact ⟨rfl, bound_messageParent hparent, forall₂_fields bound_field hfields⟩

theorem bound_enumParent {e : Draft.Enumeration} {parent : Option TypeRef}
    (h : b.enumParent name e = .ok parent) :
    Rel (fun n ref => b.Puts n ref ∧ ref.kind = .enumeration) e.parent parent := by
  rw [enumParent] at h
  split at h
  · next hnone => cases h; rw [hnone]; exact .none
  · next p hp =>
    rw [hp]
    split at h
    · cases h
    · next ref href =>
      split at h
      · next hkind => cases h; exact .some ⟨href, hkind⟩
      · cases h

end Model.Binder

namespace Model

section
variable {lib : Library} {d : Draft} {m : Model} (h : Models lib d m) {v : Draft.Visit}
  (hv : v ∈ d.walk)
include h hv

variable {Q : TypeRef → Prop}

theorem Models.bound_message {x : Draft.Message} (hx : x ∈ v.site.ns.scope.messages)
    {result : Message} (hresult : (entitiesOf lib d m.imports).messages.find?
      (QualifiedName.join (some v.site.qualified) x.name) = some result) :
    x.Bound (binderOf lib d m.imports).Puts Q result := by
  have hdeclared := find?_declared h.faultless h.finished hv
    (Draft.mem_declarationsOf.2 (.inl ⟨x, hx, rfl⟩))
  obtain ⟨hbuilt, hnil⟩ := Binder.find?_messages h.faultless.messages hdeclared
  cases hbuilt.symm.trans hresult
  exact Binder.bound_message hnil

theorem Models.bound_enumeration {e : Draft.Enumeration}
    (he : .enumeration e ∈ declarationsOf v.site.ns.scope) {result : Enumeration}
    (hresult : (entitiesOf lib d m.imports).enums.find?
      (QualifiedName.join (some v.site.qualified) e.name) = some result) :
    e.Bound (binderOf lib d m.imports).Puts result := by
  have hdeclared := find?_declared h.faultless h.finished hv he
  obtain ⟨result', hbuilt, hfin⟩ := Binder.find?_enumerations h.faultless.enums hdeclared
  cases hbuilt.symm.trans hresult
  exact ⟨hfin.name, Binder.bound_enumParent hfin.parent⟩

/-- **If no fault comes up, every name of a namespace is bound.** -/
theorem Models.bound :
    v.site.ns.scope.Bound (binderOf lib d m.imports).Puts Q (namespaceAt lib d m.imports v) := by
  obtain ⟨hmessages, henums, hoptions, -⟩ := matches_namespaceAt h.faultless h.finished hv
  refine ⟨forall₂_imp_of_mem hmessages fun x hx result hr => h.bound_message hv hx hr,
    forall₂_imp_of_mem henums fun e he result hr => ?_,
    forall₂_imp_of_mem hoptions fun e he result hr => ?_⟩
  · exact h.bound_enumeration hv (Draft.mem_declarationsOf.2 (.inr (.inl ⟨e, he, rfl⟩))) hr
  · exact h.bound_enumeration hv (Draft.mem_declarationsOf.2 (.inr (.inr (.inl ⟨e, he, rfl⟩)))) hr

end

end Model

end MessageSchema
