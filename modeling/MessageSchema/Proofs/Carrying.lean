/-
  What a binder makes of declarations, another binder makes of them too.

  A binder carries over to another one if the other declares the same, origins and the
  fields of messages apart, and finds an imported entity wherever the first finds one,
  the same up to these.  Then what the first builds without a fault the second builds
  too, with other origins: all that is bound is bound in the same way, the fields of
  messages are not asked for, nor is what the second imports besides.
-/
import MessageSchema.Proofs.Completion
import MessageSchema.Proofs.Relabeling

namespace MessageSchema.Model

open List Declaration Draft

variable {g : Origin → Origin} {x : Declaration}

theorem Declaration.exists_message {m : Draft.Message} (h : x.relabel g = .message (m.relabel g)) :
    ∃ m', x = .message m' ∧ m'.relabel g = m.relabel g := by
  cases x with
  | message m' => exact ⟨m', rfl, message.inj h⟩
  | enumeration | compound => cases h

theorem Declaration.exists_enumeration {e : Draft.Enumeration}
    (h : x.outline g = .enumeration (e.relabel g)) :
    ∃ e', x = .enumeration e' ∧ e'.relabel g = e.relabel g := by
  cases x with
  | enumeration e' => exact ⟨e', rfl, enumeration.inj h⟩
  | message | compound => cases h

theorem Declaration.exists_compound {c : Draft.Compound}
    (h : x.outline g = .compound (c.relabel g)) :
    ∃ c', x = .compound c' ∧ c'.relabel g = c.relabel g := by
  cases x with
  | compound c' => exact ⟨c', rfl, compound.inj h⟩
  | message | enumeration => cases h

theorem Declaration.outline_eq {x' : Declaration} (h : x'.relabel g = x.relabel g) :
    x'.outline g = x.outline g := by
  rw [← withoutFields_relabel, h, withoutFields_relabel]

namespace Binder

/-- What a binder finds, another one finds too, origins and the fields of messages apart. -/
structure Carries (g : Origin → Origin) (b b' : Binder) : Prop where
  declared : ∀ q, (b'.declared.find? q).map (outline g) =
    (b.declared.find? q).map (outline g)
  imported : ∀ {q e}, b.importedEntity? q = some e →
    ∃ e', b'.importedEntity? q = some e' ∧ e'.outline g = e.outline g

namespace Carries

variable {b b' : Binder} (h : Carries g b b') {q : String}
include h

/-! ## Names -/

theorem find?_declared (hx : b.declared.find? q = some x) :
    ∃ x', b'.declared.find? q = some x' ∧ x'.outline g = x.outline g := by
  have hq := h.declared q
  rw [hx, Option.map_some] at hq
  exact Option.map_eq_some_iff.1 hq

theorem find?_declared_eq_none (hq : b.declared.find? q = none) : b'.declared.find? q = none := by
  have hnone := h.declared q
  rwa [hq, Option.map_none, Option.map_eq_none_iff] at hnone

theorem find?_declared_of_right {x' : Declaration} (hx : b'.declared.find? q = some x') :
    ∃ x, b.declared.find? q = some x ∧ x'.outline g = x.outline g := by
  have hq := (h.declared q).symm
  rw [hx, Option.map_some] at hq
  obtain ⟨x, hx, heq⟩ := Option.map_eq_some_iff.1 hq
  exact ⟨x, hx, heq.symm⟩

theorem enumeration? (q : String) :
    (b'.enumeration? q).map (Draft.Enumeration.relabel g) =
      (b.enumeration? q).map (Draft.Enumeration.relabel g) := by
  have hselect : ∀ o : Option Declaration, (o.bind Declaration.enumeration?).map
      (Draft.Enumeration.relabel g) =
      (o.map (Declaration.outline g)).bind Declaration.enumeration? := by
    rintro (_ | x)
    · rfl
    · exact (enumeration?_outline g x).symm
  rw [Binder.enumeration?, Binder.enumeration?, hselect, hselect, h.declared]

/-- **A name that is bound is bound to the same.** -/
theorem puts {n : TypeName} {ref : TypeRef} (hn : b.Puts n ref) : b'.Puts n ref := by
  obtain ⟨hresolved, hname, hcases⟩ := hn.cases
  obtain ⟨kind, name⟩ := ref
  subst hname
  rw [Puts, bind?, if_pos hresolved]
  rcases hcases with ⟨x, hx, hkind⟩ | ⟨hnone, e, he, hkind⟩
  · obtain ⟨x', hx', heq⟩ := h.find?_declared hx
    have hkinds : x'.kind = kind := by
      rw [← kind_outline g, heq, kind_outline]
      exact hkind.symm
    simp only [hx', hkinds]
  · obtain ⟨e', he', heq⟩ := h.imported he
    have hkinds : e'.kind = kind := by
      rw [← Entity.kind_outline g, heq, Entity.kind_outline]
      exact hkind.symm
    simp [h.find?_declared_eq_none hnone, he', hkinds]

theorem compoundParts? {parts : Primitive × List String} (hq : b.compoundParts? q = some parts) :
    b'.compoundParts? q = some parts := by
  have hselect : ∀ o : Option Declaration, (o.bind compound?).map (Draft.Compound.relabel g) =
      (o.map (outline g)).bind compound? := by
    rintro (_ | x)
    · rfl
    · exact (compound?_outline g x).symm
  have hdeclared : ((b'.declared.find? q).bind compound?).map (Draft.Compound.relabel g) =
      ((b.declared.find? q).bind compound?).map (Draft.Compound.relabel g) := by
    rw [hselect, hselect, h.declared]
  rw [Binder.compoundParts?] at hq ⊢
  cases hc : (b.declared.find? q).bind compound? with
  | some c =>
    rw [hc] at hdeclared hq
    obtain ⟨c', hc', heq⟩ := Option.map_eq_some_iff.1 hdeclared
    have hparts := congrArg (fun c : Draft.Compound => some (c.base, c.components)) heq
    rw [hc', ← hq]
    exact hparts
  | none =>
    rw [hc] at hdeclared hq
    rw [Option.map_eq_none_iff.1 hdeclared]
    obtain ⟨c, hc, rfl⟩ := Option.map_eq_some_iff.1 hq
    obtain ⟨e, he, hec⟩ := Option.bind_eq_some_iff.1 hc
    obtain ⟨e', he', heq⟩ := h.imported he
    have hcompound : e'.compound?.map (Compound.relabel g) = some (c.relabel g) := by
      rw [← Entity.compound?_outline, heq, Entity.compound?_outline, hec, Option.map_some]
    obtain ⟨c', hc', heq⟩ := Option.map_eq_some_iff.1 hcompound
    have hparts := congrArg (fun c : Compound => some (c.base, c.components)) heq
    simp only [he', Option.bind_some, hc', Option.map_some]
    exact hparts

/-! ## Types -/

section
variable {place place' : Origin} {context context' : String}

theorem namedType_eq {n : TypeName} (hn : (b.namedType place context n).2 = []) :
    b'.namedType place' context' n = b.namedType place context n := by
  rw [namedType] at hn
  split at hn
  · cases hn
  · next ref href =>
    have href' : b'.bind? n = some ref := h.puts href
    rw [namedType, namedType, href, href']
    simp only
    split
    · next hkind =>
      obtain ⟨parts, hparts⟩ := Puts.compoundParts? href hkind
      rw [hparts, h.compoundParts? hparts]
    · rfl

theorem scalarType_eq {s : ScalarType} (hs : (b.scalarType place context s).2 = []) :
    b'.scalarType place' context' s = b.scalarType place context s := by
  cases s with
  | primitive p => rfl
  | named n => exact h.namedType_eq hs

theorem elementType_eq {t : ElementType} (ht : (b.elementType place context t).2 = []) :
    b'.elementType place' context' t = b.elementType place context t := by
  cases t with
  | scalar s => exact h.scalarType_eq ht
  | inline kind values => cases kind <;> cases ht
  | compound base components =>
    cases base with
    | primitive p => rfl
    | named n => cases ht

/-- **A type that is built without a fault is built as the same type.** -/
theorem fieldType_eq {t : Draft.FieldType} (ht : (b.fieldType place context t).2 = []) :
    b'.fieldType place' context' t = b.fieldType place context t := by
  induction t with
  | element e => exact h.elementType_eq ht
  | array e =>
    have he : (b.elementType place context e).2 = [] := ht
    rw [fieldType, fieldType, h.elementType_eq he]
  | map key value ih =>
    obtain ⟨hkey, hvalue⟩ := faults_map ht
    obtain ⟨K, hK, -⟩ := bound_scalarType hkey
    obtain ⟨V, hV, -⟩ := bound_fieldType (Q := fun _ => False) hvalue
    have hkey' : b'.scalarType place' context' key = _ := h.scalarType_eq hkey
    have hvalue' := ih hvalue
    rw [fieldType, hK, hV] at ht
    rw [fieldType, fieldType, hkey', hvalue', hK, hV]
    simp only at ht ⊢
    split at ht
    · next hkeyType => rw [if_pos hkeyType, if_pos hkeyType]
    · cases ht

end

/-! ## Enumerations -/

variable {parent : Option TypeRef} {result : Enumeration}

theorem enumParent {e e' : Draft.Enumeration} (he : e'.parent = e.parent)
    (hparent : b.enumParent q e = .ok parent) : b'.enumParent q e' = .ok parent := by
  rw [Binder.enumParent] at hparent ⊢
  rw [he]
  split at hparent
  · exact hparent
  · next p hp =>
    split at hparent
    · cases hparent
    · next ref href =>
      have href' : b'.bind? p = some ref := h.puts href
      rw [href']
      simp only
      split at hparent
      · next hkind => rw [if_pos hkind]; exact hparent
      · cases hparent

theorem messageParent_eq {m m' : Draft.Message} (hm : m'.parent = m.parent)
    (hparent : (b.messageParent q m).2 = []) : b'.messageParent q m' = b.messageParent q m := by
  rw [messageParent] at hparent
  rw [messageParent, messageParent, hm]
  split at hparent
  · rfl
  · next p hp =>
    split at hparent
    · cases hparent
    · next ref href =>
      have href' : b'.bind? p = some ref := h.puts href
      simp only [href']
      split at hparent
      · next hkind => rw [if_pos hkind, if_pos hkind]
      · cases hparent

theorem importedValues {e : Entity} (he : b.importedEntity? q = some e) :
    (b'.importedValues q).map (EnumValue.relabel g) =
      (b.importedValues q).map (EnumValue.relabel g) := by
  obtain ⟨e', he', heq⟩ := h.imported he
  have henum : e'.enumeration?.map (Enumeration.relabel g) =
      e.enumeration?.map (Enumeration.relabel g) := by
    rw [← Entity.enumeration?_outline, heq, Entity.enumeration?_outline]
  have hvalues : ∀ o : Option Enumeration, ((o.map (·.values)).getD []).map (EnumValue.relabel g) =
      (((o.map (Enumeration.relabel g)).map (·.values)).getD []) := by
    rintro (_ | e) <;> rfl
  rw [Binder.importedValues, Binder.importedValues, he, he', Option.bind_some, Option.bind_some,
    hvalues, hvalues, henum]

theorem ends {inherited inherited' : List EnumValue}
    (hinherited : inherited'.map (EnumValue.relabel g) = inherited.map (EnumValue.relabel g))
    (hends : b.Ends q parent inherited result) :
    ∃ result', b'.Ends q parent inherited' result' ∧ result'.relabel g = result.relabel g := by
  obtain ⟨e, he, hparent, hfaults, rfl⟩ := hends
  obtain ⟨x, hx, hrel⟩ := h.find?_declared he
  obtain ⟨e', rfl, heq⟩ := exists_enumeration hrel
  have hparent' : b'.enumParent q e' = .ok parent := h.enumParent (congrArg (·.parent) heq) hparent
  obtain ⟨name, eparent, kind, values, origin⟩ := e
  obtain ⟨name', eparent', kind', values', origin'⟩ := e'
  simp only [Draft.Enumeration.relabel, Draft.Enumeration.mk.injEq] at heq
  obtain ⟨rfl, rfl, rfl, hvalues, horigin⟩ := heq
  have hmerged : (mergeValues (kind' ≠ .flags) inherited' values').relabel g =
      (mergeValues (kind' ≠ .flags) inherited values).relabel g := by
    rw [← mergeValues_relabel, ← mergeValues_relabel, hinherited, hvalues]
  have hfaultless := eq_of_mergeFaults hfaults
  simp only at hfaultless
  rw [hfaultless] at hmerged
  simp only [Merged.relabel, Merged.mk.injEq, map_nil, map_eq_nil_iff] at hmerged
  obtain ⟨hmerged, hduplicates, hoverflows⟩ := hmerged
  have hfaults' : mergeFaults q parent (mergeValues (kind' ≠ .flags) inherited' values') = [] := by
    rw [mergeFaults, hduplicates, hoverflows]
    rfl
  have hnumbers := congrArg (List.map (·.number)) hmerged
  simp only [map_map, Function.comp_def, EnumValue.relabel] at hnumbers
  refine ⟨_, ⟨_, hx, hparent', hfaults', rfl⟩, ?_⟩
  simp only [finish, Enumeration.relabel, hmerged, hnumbers, horigin]

/-- **What an enumeration becomes**, it becomes for the other binder too. -/
theorem yields (hyields : b.Yields q result) :
    ∃ result', b'.Yields q result' ∧ result'.relabel g = result.relabel g := by
  induction hyields with
  | root hends =>
    obtain ⟨result', hends', heq⟩ := h.ends rfl hends
    exact ⟨result', .root hends', heq⟩
  | @imported q ref result hnone hends =>
    have hnone' : b'.enumeration? ref.name = none := by
      have hmap := h.enumeration? ref.name
      rwa [hnone, Option.map_none, Option.map_eq_none_iff] at hmap
    obtain ⟨e, -, hparent, -⟩ := id hends
    obtain ⟨⟨⟩⟩ | ⟨n, _, -, hsome, hputs, hkind⟩ := rel_cases (bound_enumParent hparent)
    · contradiction
    cases hsome
    -- nothing of its kind is declared under the name, so it is imported
    obtain ⟨-, hname, ⟨x, hx, hkind'⟩ | ⟨-, e', he', -⟩⟩ := hputs.cases
    · rw [← hname] at hx
      rw [hkind] at hkind'
      cases x with
      | enumeration e =>
        rw [Binder.enumeration?, hx] at hnone
        cases hnone
      | message | compound => cases hkind'
    · rw [← hname] at he'
      obtain ⟨result', hends', heq⟩ := h.ends (h.importedValues he') hends
      exact ⟨result', .imported hnone' hends', heq⟩
  | @own q ref p above result hp _ hends ih =>
    obtain ⟨above', habove, heq⟩ := ih
    have hp' := h.enumeration? ref.name
    rw [hp, Option.map_some] at hp'
    obtain ⟨p', hp', -⟩ := Option.map_eq_some_iff.1 hp'
    obtain ⟨result', hends', heq'⟩ := h.ends (congrArg (·.values) heq) hends
    exact ⟨result', .own hp' habove hends', heq'⟩

/-- **Enumerations are finished alike.** -/
theorem enumerations (hb : b.enumerations.faults = []) : b'.enumerations.faults = [] ∧
    ∀ q, (b'.enumerations.finished.find? q).map (Enumeration.relabel g) =
      (b.enumerations.finished.find? q).map (Enumeration.relabel g) := by
  have hb' : b'.enumerations.faults = [] := by
    refine faults_enumerations_of_yields fun q e' he' => ?_
    obtain ⟨x, hx, heq⟩ := h.find?_declared_of_right he'
    obtain ⟨e, rfl, -⟩ := exists_enumeration heq.symm
    obtain ⟨result, hfound, -⟩ := find?_enumerations hb hx
    obtain ⟨result', hyields, -⟩ := h.yields (yields_of_find? hb hfound)
    exact ⟨result', hyields⟩
  refine ⟨hb', fun q => ?_⟩
  cases hfound : b.enumerations.finished.find? q with
  | some result =>
    obtain ⟨result', hyields, heq⟩ := h.yields (yields_of_find? hb hfound)
    rw [(find?_enumerations_iff hb').2 hyields, Option.map_some, Option.map_some, heq]
  | none =>
    -- what is finished is declared, and what is declared is finished
    cases hfound' : b'.enumerations.finished.find? q with
    | none => rfl
    | some result' =>
      obtain ⟨e', he', -⟩ := (fit_enumerations b').1 q result' hfound'
      obtain ⟨x, hx, heq⟩ := h.find?_declared_of_right he'
      obtain ⟨e, rfl, -⟩ := exists_enumeration heq.symm
      obtain ⟨result, hresult, -⟩ := find?_enumerations hb hx
      rw [hfound] at hresult
      cases hresult

/-! ## Messages -/

section
variable (hb : b.enumerations.faults = [])
include hb

variable {owner : String}

/-- The values of an enumeration that a name is bound to. -/
theorem valuesOf {n : TypeName} {ref : TypeRef} (hn : b.Puts n ref)
    (hkind : ref.kind = .enumeration ∨ ref.kind = .options) :
    (b'.valuesOf b'.enumerations.finished ref.name).map (EnumValue.relabel g) =
      (b.valuesOf b.enumerations.finished ref.name).map (EnumValue.relabel g) := by
  have hfinished := (h.enumerations hb).2 ref.name
  obtain ⟨-, hname, hcases⟩ := hn.cases
  rw [Binder.valuesOf, Binder.valuesOf]
  cases hfound : b.enumerations.finished.find? ref.name with
  | some e =>
    rw [hfound, Option.map_some] at hfinished
    obtain ⟨e', he', heq⟩ := Option.map_eq_some_iff.1 hfinished
    rw [he']
    exact congrArg Enumeration.values heq
  | none =>
    rw [hfound, Option.map_none, Option.map_eq_none_iff] at hfinished
    rw [hfinished]
    rcases hcases with ⟨x, hx, hkind'⟩ | ⟨-, e, he, -⟩
    · cases x with
      | enumeration e =>
        obtain ⟨result, hresult, -⟩ := find?_enumerations hb hx
        rw [← hname, hfound] at hresult
        cases hresult
      | message | compound =>
        rcases hkind with hkind | hkind <;> rw [hkind] at hkind' <;> cases hkind'
    · rw [← hname] at he
      exact h.importedValues he

/-- **A field that is built without a fault is built alike**, with its default. -/
theorem field {f f' : Draft.Field} (hf : f'.relabel g = f.relabel g) {F : Field}
    (hfield : b.field b.enumerations.finished owner f = (some F, [])) :
    ∃ F', b'.field b'.enumerations.finished owner f' = (some F', []) ∧
      F'.relabel g = F.relabel g := by
  obtain ⟨name₀, type₀, modifiers₀, default₀, origin₀⟩ := f
  obtain ⟨name, type, modifiers, default, origin⟩ := f'
  simp only [Draft.Field.relabel, Draft.Field.mk.injEq] at hf
  obtain ⟨rfl, rfl, rfl, rfl, horigin⟩ := hf
  obtain ⟨T, -, hT, -⟩ := field_eq (congrArg Prod.snd hfield)
  have hT' : b'.fieldType origin s!"field {owner}.{name}" type = (some T, []) :=
    (h.fieldType_eq (congrArg Prod.snd hT)).trans hT
  have hread : ∀ text, DefaultValue.read (b'.valuesOf b'.enumerations.finished) text T =
      DefaultValue.read (b.valuesOf b.enumerations.finished) text T := fun text => by
    rw [← DefaultValue.read_relabel g, ← DefaultValue.read_relabel g (b.valuesOf _)]
    refine DefaultValue.read_congr text fun ref href hkind => ?_
    -- a type that is a reference stands for a name that is bound
    obtain ⟨T', hT'', hbound⟩ := bound_fieldType (Q := fun _ => False) (congrArg Prod.snd hT)
    obtain rfl := Option.some.inj (Prod.mk.inj (hT''.symm.trans hT)).1
    subst href
    cases hbound with
    | element hbound =>
      cases hbound with
      | scalar hbound =>
        cases hbound with
        | entity hputs => exact h.valuesOf hb hputs hkind
      | inline hfalse => exact hfalse.elim
  rw [Binder.field, hT] at hfield
  rw [Binder.field, hT']
  simp only [hread, nil_append] at hfield ⊢
  generalize modifiers.filter (fun m => !knownModifiers.contains m) = unknown at hfield ⊢
  cases default with
  | none =>
    simp only [Option.map_none, Prod.mk.injEq, Option.some.injEq, map_eq_nil_iff] at hfield ⊢
    obtain ⟨rfl, hunknown⟩ := hfield
    exact ⟨_, ⟨rfl, hunknown⟩, by simp only [Field.relabel, horigin]⟩
  | some text =>
    simp only [Option.map_some] at hfield ⊢
    cases hvalue : DefaultValue.read (b.valuesOf b.enumerations.finished) text T with
    | error cause => simp [hvalue] at hfield
    | ok value =>
      simp only [hvalue, Prod.mk.injEq, Option.some.injEq, map_eq_nil_iff] at hfield ⊢
      obtain ⟨rfl, hunknown⟩ := hfield
      exact ⟨_, ⟨rfl, hunknown⟩, by simp only [Field.relabel, horigin]⟩

/-- Fields that are built alike, one by one. -/
theorem map_relabel_fields {fs fs' : List Draft.Field} {Fs Fs' : List Field}
    (hfs : fs'.map (Draft.Field.relabel g) = fs.map (Draft.Field.relabel g))
    (hbuilt : Forall₂ (fun f F => b.field b.enumerations.finished owner f = (some F, [])) fs Fs)
    (hbuilt' :
      Forall₂ (fun f F => b'.field b'.enumerations.finished owner f = (some F, [])) fs' Fs') :
    Fs'.map (Field.relabel g) = Fs.map (Field.relabel g) := by
  induction hbuilt generalizing fs' Fs' with
  | nil =>
    obtain rfl := map_eq_nil_iff.1 hfs
    cases hbuilt'
    rfl
  | cons hone _ ih =>
    cases hbuilt' with
    | nil => cases hfs
    | cons hone' hrest' =>
      obtain ⟨hfirst, hrest⟩ := cons.inj hfs
      obtain ⟨F', hF', heq⟩ := h.field hb hfirst hone
      obtain rfl := Option.some.inj (Prod.mk.inj (hF'.symm.trans hone')).1
      rw [map_cons, map_cons, heq, ih hrest hrest']

/-- **A message that both build without a fault is built alike.** -/
theorem message {q : String} {m m' : Draft.Message} (hm : m'.relabel g = m.relabel g)
    (hfaults : (b.message b.enumerations.finished q m).2 = [])
    (hfaults' : (b'.message b'.enumerations.finished q m').2 = []) :
    (b'.message b'.enumerations.finished q m').1.relabel g =
      (b.message b.enumerations.finished q m).1.relabel g := by
  obtain ⟨name, parent, fields, origin⟩ := m
  obtain ⟨name', parent', fields', origin'⟩ := m'
  simp only [Draft.Message.relabel, Draft.Message.mk.injEq] at hm
  obtain ⟨rfl, rfl, hfields, horigin⟩ := hm
  obtain ⟨hparent, hbuilt⟩ := append_eq_nil_iff.1 hfaults
  obtain ⟨-, hbuilt'⟩ := append_eq_nil_iff.1 hfaults'
  have hone : ∀ {c : Binder} {f : Draft.Field}, (c.field c.enumerations.finished q f).2 = [] →
      ∃ F, c.field c.enumerations.finished q f = (some F, []) ∧
        c.field c.enumerations.finished q f = (some F, []) := fun hf => by
    obtain ⟨T, value, -, hF, -⟩ := field_eq hf
    exact ⟨_, hF, hF⟩
  have hmap :
      (b'.message b'.enumerations.finished q ⟨name', parent', fields', origin'⟩).1.fields.map
      (Field.relabel g) =
      (b.message b.enumerations.finished q ⟨name', parent', fields, origin⟩).1.fields.map
      (Field.relabel g) :=
    h.map_relabel_fields hb hfields (forall₂_fields hone hbuilt) (forall₂_fields hone hbuilt')
  have hparents :
      (b'.message b'.enumerations.finished q ⟨name', parent', fields', origin'⟩).1.parent =
      (b.message b.enumerations.finished q ⟨name', parent', fields, origin⟩).1.parent :=
    congrArg Prod.fst (h.messageParent_eq rfl hparent)
  rw [Message.relabel, Message.relabel, hmap, hparents]
  show (⟨name', q, _, _, g origin'⟩ : Message) = ⟨name', q, _, _, g origin⟩
  rw [horigin]

end

end Carries

end Binder

/-- **What a declaration becomes** in two drafts whose binders carry over. -/
theorem Becomes.relabel_eq {lib lib' : Library} {d d' : Draft} {imports imports' : Table String}
    (h : (binderOf lib d imports).Carries g (binderOf lib' d' imports'))
    (hf : Faultless lib d imports) (hf' : Faultless lib' d' imports') {q : String}
    {x' : Declaration} (hx : (Index.ofDraft d).declared.find? q = some x)
    (hx' : (Index.ofDraft d').declared.find? q = some x') (hrel : x'.relabel g = x.relabel g)
    {e e' : Entity} (he : Becomes (entitiesOf lib d imports) q x e)
    (he' : Becomes (entitiesOf lib' d' imports') q x' e') : e'.relabel g = e.relabel g := by
  cases he with
  | @message m result hm =>
    obtain ⟨m', rfl, heq⟩ := exists_message hrel
    obtain ⟨hbuilt, hfaults⟩ := Binder.find?_messages hf.messages hx
    obtain ⟨hbuilt', hfaults'⟩ := Binder.find?_messages hf'.messages hx'
    cases he' with
    | message hm' =>
      cases hbuilt.symm.trans hm
      cases hbuilt'.symm.trans hm'
      exact congrArg Entity.message (h.message hf.enums heq hfaults hfaults')
  | @enumeration c result hc =>
    obtain ⟨c', rfl, -⟩ := exists_enumeration (outline_eq hrel)
    have hfinished := (h.enumerations hf.enums).2 q
    cases he' with
    | enumeration hc' =>
      have hc : (binderOf lib d imports).enumerations.finished.find? q = some result := hc
      rw [hc] at hfinished
      have hc' : (binderOf lib' d' imports').enumerations.finished.find? q = some _ := hc'
      rw [hc'] at hfinished
      exact congrArg Entity.enumeration (Option.some.inj hfinished)
  | @compound c result hc =>
    obtain ⟨c', rfl, heq⟩ := exists_compound (outline_eq hrel)
    cases he' with
    | compound hc' =>
      cases (find?_compoundsOf hx).symm.trans hc
      cases (find?_compoundsOf hx').symm.trans hc'
      simp only [Draft.Compound.relabel, Draft.Compound.mk.injEq] at heq
      obtain ⟨hname, hbase, hcomponents, horigin⟩ := heq
      simp only [Entity.relabel, Compound.relabel, Compound.ofDraft, hname, hbase,
        hcomponents, horigin]

end MessageSchema.Model
