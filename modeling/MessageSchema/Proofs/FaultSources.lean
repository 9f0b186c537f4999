/-
  What the faults of a model are about.

  `Model.Faulted` lists all that a draft can be faulted for: declarations outside its
  namespaces, names and namespaces that are declared twice, namespaces of several files,
  its enumerations, its messages, and the cycles among these.
-/
import MessageSchema.Proofs.Mentions

namespace MessageSchema.Model

open List

open Draft (Mention)

namespace Binder

variable {m : Draft.Message} {f : Fault} {q : String}

/-! ## Types and fields -/

/-- A fault about a mention that is bound to nothing. -/
def Unbound (b : Binder) (ms : List Mention) (f : Fault) : Prop :=
  ∃ x ∈ ms, ∃ context, b.bind? x.name = none ∧ f = faultAt x.place (.unresolved x.name.text context)

theorem Unbound.mono {b : Binder} {ms ms' : List Mention} (h : b.Unbound ms f) (hms : ms ⊆ ms') :
    b.Unbound ms' f := by
  obtain ⟨x, hx, hrest⟩ := h
  exact ⟨x, hms hx, hrest⟩

/-- The classes of faults that are put at a field, where all its names are bound and its
    own name is not taken. -/
def fieldCodes : List Code := [.invalidType, .invalidDefault, .pipeline]

/-- The faults of a field at `place`, in whose type `names` occur. -/
def FaultsField (b : Binder) (place : Origin) (names : List Draft.TypeName) (f : Fault) : Prop :=
  b.Unbound (names.map (Mention.mk place)) f ∨ ∃ cause : Cause, cause.code ∈ fieldCodes ∧
    f = faultAt place cause

section
variable (b : Binder) (place : Origin) (context : String)

theorem FaultsField.of_code {b : Binder} {place : Origin} {names : List Draft.TypeName}
    {cause : Cause} (h : cause.code ∈ fieldCodes) :
    ∀ f ∈ [faultAt place cause], b.FaultsField place names f :=
  forall_mem_singleton.2 (.inr ⟨cause, h, rfl⟩)

theorem faultsField_scalarType (t : Draft.ScalarType) :
    ∀ f ∈ (b.scalarType place context t).2, b.FaultsField place t.names f := by
  cases t with
  | primitive p => exact forall_mem_nil _
  | named n =>
    rw [scalarType, namedType]
    split
    · next hnone =>
      exact forall_mem_singleton.2 (.inl ⟨⟨place, n⟩, mem_singleton.2 rfl, context, hnone, rfl⟩)
    · split
      · exact forall_mem_nil _
      · exact forall_mem_nil _

theorem faultsField_elementType (t : Draft.ElementType) :
    ∀ f ∈ (b.elementType place context t).2, b.FaultsField place t.names f := by
  cases t with
  | scalar s => exact b.faultsField_scalarType place context s
  | compound base components =>
    cases base with
    | primitive p => exact forall_mem_nil _
    | named n => exact .of_code (by simp [Cause.code, fieldCodes])
  | inline kind values =>
    cases kind with
    | flags => exact .of_code (by simp [Cause.code, fieldCodes])
    | closed => exact .of_code (by simp [Cause.code, fieldCodes])
    | extensible => exact .of_code (by simp [Cause.code, fieldCodes])

theorem faultsField_fieldType (t : Draft.FieldType) :
    ∀ f ∈ (b.fieldType place context t).2, b.FaultsField place t.names f := by
  induction t with
  | element e => exact b.faultsField_elementType place context e
  | array e => exact b.faultsField_elementType place context e
  | map key value ih =>
    have hboth : ∀ f ∈ (b.scalarType place context key).2 ++ (b.fieldType place context value).2,
        b.FaultsField place (key.names ++ value.names) f := by
      refine forall_mem_append.2 ⟨fun f hf => ?_, fun f hf => ?_⟩
      · exact (b.faultsField_scalarType place context key f hf).imp_left
          (·.mono (map_subset _ (subset_append_left _ _)))
      · exact (ih f hf).imp_left (·.mono (map_subset _ (subset_append_right _ _)))
    rw [Draft.FieldType.names, fieldType]
    simp only
    split
    · split
      · exact hboth
      · exact forall_mem_append.2 ⟨hboth, .of_code (by simp [Cause.code, fieldCodes])⟩
    · exact hboth

end

variable {b : Binder} {enums : Table Enumeration}

theorem faultsField_field (owner : String) (f : Draft.Field) :
    ∀ g ∈ (b.field enums owner f).2, b.FaultsField f.origin f.type.names g := by
  have htype := b.faultsField_fieldType f.origin s!"field {owner}.{f.name}" f.type
  have hunknown : ∀ g ∈ (f.modifiers.filter fun m => !knownModifiers.contains m).map fun m =>
      faultAt f.origin (.unknownModifier m s!"field {owner}.{f.name}"),
        b.FaultsField f.origin f.type.names g := by
    intro g hg
    obtain ⟨m, -, rfl⟩ := mem_map.1 hg
    exact .inr ⟨_, by simp [Cause.code, fieldCodes], rfl⟩
  rw [field]
  simp only
  split
  · next heq => rwa [heq] at htype
  · next heq =>
    rw [heq] at htype
    have hboth := forall_mem_append.2 ⟨htype, hunknown⟩
    split
    · exact hboth
    · exact hboth
    · exact forall_mem_append.2 ⟨hboth, .of_code (by simp [Cause.code, fieldCodes])⟩

/-! ## Messages -/

/-- The faults of a message that is declared as `q`. -/
inductive FaultsMessage (b : Binder) (q : String) (m : Draft.Message) : Fault → Prop
  | unbound {f : Fault} : b.Unbound m.mentions f → FaultsMessage b q m f
  | parent {cause : Cause} : cause.code = .invalidType →
    FaultsMessage b q m (faultAt m.origin cause)
  | field {g : Draft.Field} {cause : Cause} : g ∈ m.fields → cause.code ∈ fieldCodes →
      FaultsMessage b q m (faultAt g.origin cause)
  | twice {before after : List Draft.Field} {g : Draft.Field} : m.fields = before ++ g :: after →
      g.name ∈ before.map (·.name) → FaultsMessage b q m (faultAt g.origin (.fieldTwice g.name q))
  | inherited {g : Draft.Field} {ref : TypeRef} {owner : String} : g ∈ m.fields →
      (b.messageParent q m).1 = some ref → (b.fieldOwners ref.name).find? g.name = some owner →
      FaultsMessage b q m (faultAt g.origin (.fieldInherited g.name q owner))

theorem FaultsMessage.code_ne (h : b.FaultsMessage q m f) : f.code ≠ .circularInheritance := by
  intro hcode
  cases h with
  | unbound h =>
    obtain ⟨x, -, context, -, rfl⟩ := h
    cases hcode
  | parent h => cases h.symm.trans hcode
  | field _ h =>
    have hmem : Code.circularInheritance ∈ fieldCodes := hcode ▸ h
    simp [fieldCodes] at hmem
  | twice | inherited => cases hcode

/-- What is declared twice in a message are names of fields. -/
theorem FaultsMessage.taken_cases (h : b.FaultsMessage q m f)
    (hcode : f.code = .duplicateDefinition) :
    (∃ before g after, m.fields = before ++ g :: after ∧ g.name ∈ before.map (·.name) ∧
      f = faultAt g.origin (.fieldTwice g.name q)) ∨
    ∃ g ref owner, g ∈ m.fields ∧ (b.messageParent q m).1 = some ref ∧
      (b.fieldOwners ref.name).find? g.name = some owner ∧
      f = faultAt g.origin (.fieldInherited g.name q owner) := by
  cases h with
  | unbound h =>
    obtain ⟨x, -, context, -, rfl⟩ := h
    cases hcode
  | parent h => cases h.symm.trans hcode
  | field _ h =>
    have hmem : Code.duplicateDefinition ∈ fieldCodes := hcode ▸ h
    simp [fieldCodes] at hmem
  | @twice before after g hfields hbefore => exact .inl ⟨before, g, after, hfields, hbefore, rfl⟩
  | @inherited g ref owner hg href hfind => exact .inr ⟨g, ref, owner, hg, href, hfind, rfl⟩

/-- The names of ancestors' fields, as they stand against the fields of a message. -/
def inheritedOf (b : Binder) (q : String) (m : Draft.Message) : Table String :=
  match (b.messageParent q m).1 with
  | some ref => b.fieldOwners ref.name
  | none => .empty

theorem exists_parent_of_inheritedOf {f owner : String}
    (h : (b.inheritedOf q m).find? f = some owner) :
    ∃ ref, (b.messageParent q m).1 = some ref ∧ (b.fieldOwners ref.name).find? f = some owner := by
  unfold inheritedOf at h
  split at h
  · next ref href => exact ⟨ref, href, h⟩
  · cases h

/-- The fields `before` have been built; their names are taken. -/
theorem faultsMessage_fields {own : List String} {before fs : List Draft.Field}
    (hfields : m.fields = before ++ fs) (hown : own ⊆ before.map (·.name)) :
    ∀ g ∈ (b.fields enums q (b.inheritedOf q m) own fs).2, b.FaultsMessage q m g := by
  induction fs generalizing own before with
  | nil => exact forall_mem_nil _
  | cons f fs ih =>
    have hf : f ∈ m.fields := hfields ▸ mem_append_right _ mem_cons_self
    have hsplit : m.fields = (before ++ [f]) ++ fs := by rw [hfields, append_assoc]; rfl
    have hmono : before.map (·.name) ⊆ (before ++ [f]).map (·.name) :=
      map_subset _ (subset_append_left _ _)
    rw [fields]
    split
    · next htaken =>
      exact forall_mem_cons.2 ⟨.twice hfields (hown (contains_iff_mem.1 htaken)),
        ih hsplit (Subset.trans hown hmono)⟩
    · split
      · next owner howner =>
        obtain ⟨ref, href, hfind⟩ := exists_parent_of_inheritedOf howner
        exact forall_mem_cons.2 ⟨.inherited hf href hfind, ih hsplit (Subset.trans hown hmono)⟩
      · refine forall_mem_append.2 ⟨fun g hg => ?_,
          ih hsplit (cons_subset.2 ⟨?_, Subset.trans hown hmono⟩)⟩
        · rcases faultsField_field q f g hg with h | ⟨cause, hcause, rfl⟩
          · refine .unbound (h.mono fun x hx => ?_)
            obtain ⟨n, hn, rfl⟩ := mem_map.1 hx
            exact Draft.Message.mem_mentions.2 (.inr ⟨f, hf, n, hn, rfl⟩)
          · exact .field hf hcause
        · exact mem_map_of_mem (mem_append_right _ mem_cons_self)

theorem faultsMessage_messageParent : ∀ f ∈ (b.messageParent q m).2, b.FaultsMessage q m f := by
  unfold messageParent
  split
  · exact forall_mem_nil _
  · next p hp =>
    split
    · next hnone =>
      exact forall_mem_singleton.2 (.unbound
        ⟨⟨m.origin, p⟩, Draft.Message.mem_mentions.2 (.inl ⟨p, hp, rfl⟩), _, hnone, rfl⟩)
    · split
      · exact forall_mem_nil _
      · exact forall_mem_singleton.2 (.parent rfl)

theorem faultsMessage_message : ∀ f ∈ (b.message enums q m).2, b.FaultsMessage q m f :=
  forall_mem_append.2 ⟨faultsMessage_messageParent,
    faultsMessage_fields (show m.fields = [] ++ m.fields from rfl) (nil_subset _)⟩

theorem exists_message_of_mem_messages (h : f ∈ (b.messages enums).2) :
    ∃ q m, b.declared.find? q = some (.message m) ∧ b.FaultsMessage q m f := by
  rw [messages_eq] at h
  obtain ⟨⟨q, m⟩, hm, hf⟩ := mem_flatMap.1 h
  obtain ⟨x, hx, hselect⟩ := Table.mem_selected_iff.1 hm
  cases x with
  | message m' =>
    cases hselect
    exact ⟨q, m, hx, faultsMessage_message f hf⟩
  | enumeration | compound => cases hselect

/-! ## Enumerations -/

inductive FaultsEnumeration (b : Binder) (e : Draft.Enumeration) : Fault → Prop
  | unbound {f : Fault} : b.Unbound e.mentions f → FaultsEnumeration b e f
  | parent {cause : Cause} : cause.code = .invalidType →
    FaultsEnumeration b e (faultAt e.origin cause)
  | cycle {names : List String} : FaultsEnumeration b e (faultAt e.origin (.inheritanceCycle names))
  | value {v : Draft.EnumValue} {cause : Cause} : v ∈ e.values →
      cause.code ∈ [Code.duplicateEnumValue, .invalidType] →
      FaultsEnumeration b e (faultAt v.origin cause)

theorem FaultsEnumeration.code_ne {e : Draft.Enumeration} (h : b.FaultsEnumeration e f) :
    f.code ≠ .duplicateDefinition := by
  intro hcode
  cases h with
  | unbound h =>
    obtain ⟨x, -, context, -, rfl⟩ := h
    cases hcode
  | parent h => cases h.symm.trans hcode
  | cycle => cases hcode
  | value _ h =>
    have hmem : Code.duplicateDefinition ∈ [Code.duplicateEnumValue, .invalidType] := hcode ▸ h
    simp at hmem

/-- Every fault is one of a declared enumeration. -/
def AllOfEnumerations (b : Binder) (fs : List Fault) : Prop :=
  ∀ f ∈ fs, ∃ q e, b.declared.find? q = some (.enumeration e) ∧ b.FaultsEnumeration e f

/-- The values that cannot be merged are among those of the enumeration. -/
theorem mem_of_mergeFrom {renumber : Bool} {taken used : List String} {previous : Option Int}
    {vs : List Draft.EnumValue} {v : Draft.EnumValue}
    (h : v ∈ (mergeFrom renumber taken used previous vs).duplicates.map (·.1) ++
      (mergeFrom renumber taken used previous vs).overflows) : v ∈ vs := by
  induction vs generalizing used previous with
  | nil => cases h
  | cons u us ih =>
    rw [mergeFrom] at h
    split at h
    · rw [map_cons, cons_append] at h
      exact (mem_cons.1 h).elim (fun hv => hv ▸ mem_cons_self) fun hv => mem_cons_of_mem _ (ih hv)
    · generalize (if u.explicit || !renumber then u.number
        else EnumKind.closed.nextNumber previous) = n at h
      simp only at h
      split at h
      · exact mem_cons_of_mem _ (ih h)
      · simp only [mem_append, mem_cons] at h
        rcases h with hv | rfl | hv
        · exact mem_cons_of_mem _ (ih (mem_append_left _ hv))
        · exact mem_cons_self
        · exact mem_cons_of_mem _ (ih (mem_append_right _ hv))

section
variable {q : String} {e : Draft.Enumeration} {es : Enumerations}

theorem faultsEnumeration_finish {parent : Option TypeRef} {inherited : List EnumValue}
    (hq : b.declared.find? q = some (.enumeration e)) (h : b.AllOfEnumerations es.faults) :
    b.AllOfEnumerations (finish q e parent inherited es).1.faults := by
  refine forall_mem_append.2 ⟨h, forall_mem_append.2 ⟨?_, ?_⟩⟩
  · intro f hf
    obtain ⟨⟨v, again⟩, hv, rfl⟩ := mem_map.1 hf
    have hmem := mem_of_mergeFrom (mem_append_left _ (mem_map_of_mem (f := (·.1)) hv))
    refine ⟨q, e, hq, .value hmem ?_⟩
    cases again <;> exact mem_cons_self
  · intro f hf
    obtain ⟨v, hv, rfl⟩ := mem_map.1 hf
    exact ⟨q, e, hq, .value (mem_of_mergeFrom (mem_append_right _ hv)) (by simp [Cause.code])⟩

theorem faultsEnumeration_enumParent (h : b.enumParent q e = .error f) :
    b.FaultsEnumeration e f := by
  unfold enumParent at h
  split at h
  · cases h
  · next p hp =>
    split at h
    · next hnone =>
      cases h
      exact .unbound ⟨⟨e.origin, p⟩, Draft.Enumeration.mem_mentions.2 ⟨p, hp, rfl⟩, _, hnone, rfl⟩
    · split at h
      · cases h
      · cases h
        exact .parent rfl

theorem faultsEnumeration_of_finishing {chain : List String}
    {r : Enumerations × Option Enumeration} (hrun : b.Finishing chain q e es r)
    (hq : b.declared.find? q = some (.enumeration e)) (h : b.AllOfEnumerations es.faults) :
    b.AllOfEnumerations r.1.faults := by
  induction hrun with
  | done _ => exact h
  | back _ _ => exact forall_mem_append.2 ⟨h, forall_mem_singleton.2 ⟨_, _, hq, .cycle⟩⟩
  | lost _ _ hfault =>
    refine faultsEnumeration_finish hq (forall_mem_append.2 ⟨h, forall_mem_singleton.2 ?_⟩)
    exact ⟨_, _, hq, faultsEnumeration_enumParent hfault⟩
  | root | imported => exact faultsEnumeration_finish hq h
  | own _ _ _ hp _ ih => exact faultsEnumeration_finish hq (ih (enumeration?_eq_some_iff.1 hp) h)

end

theorem allOfEnumerations : b.AllOfEnumerations b.enumerations.faults :=
  enumerations_induct (P := fun es => b.AllOfEnumerations es.faults) (forall_mem_nil _)
    fun _ _ _ _ hq h hrun => faultsEnumeration_of_finishing hrun hq h

/-! ## Cycles of messages -/

/-- A fault of messages that inherit from themselves is put at the message where its
    cycle is entered. -/
theorem exists_cycle_of_mem_messageCycleFaults (h : f ∈ b.messageCycleFaults) :
    ∃ q again cycle, b.messageCycle? q = some (again, cycle) ∧
      f.cause = .inheritanceCycle cycle ∧ ∀ x, b.declared.find? again = some x →
        f = faultAt x.origin (.inheritanceCycle cycle) := by
  revert h
  refine foldlRecOn (motive := fun s : List String × List Fault => f ∈ s.2 → _) _ _
    (fun h => absurd h not_mem_nil) fun s ih x _ h => ?_
  obtain ⟨reported, faults⟩ := s
  simp only at h
  split at h
  · unfold addMessageCycle at h
    split at h
    · exact ih h
    · split at h
      · exact ih h
      · next again cycle hcycle =>
        split at h
        · exact ih h
        · rcases mem_append.1 h with h | h
          · exact ih h
          · rw [mem_singleton] at h
            refine ⟨x.1, again, cycle, hcycle, ?_, fun d hd => ?_⟩
            · rw [h]
              split <;> rfl
            · rw [h, hd]
  · exact ih h

end Binder

/-! ## Declarations and namespaces -/

namespace Index

variable {home : String} {ds : List Declaration} {lines : Table Nat} {ix : Index} {f : Fault}

theorem mem_faults_addAll (h : f ∈ (addAll home ds lines ix).faults) :
    f ∈ ix.faults ∨ ∃ x ∈ ds, ∃ line, f = faultAt x.origin (.definitionTwice x.name home line) := by
  induction ds generalizing lines ix with
  | nil => exact .inl h
  | cons x ds ih =>
    rw [addAll] at h
    split at h
    · next line _ =>
      rcases ih h with h | ⟨y, hy, hrest⟩
      · exact (mem_append.1 h).imp_right fun h => ⟨x, mem_cons_self, line, mem_singleton.1 h⟩
      · exact .inr ⟨y, mem_cons_of_mem _ hy, hrest⟩
    · rcases ih h with h | ⟨y, hy, hrest⟩
      · exact .inl h
      · exact .inr ⟨y, mem_cons_of_mem _ hy, hrest⟩

theorem mem_faults_addNamespace {arena : List Draft.Namespace} {s : Draft.Site}
    (h : f ∈ (addNamespace arena ix s).faults) : f ∈ ix.faults ∨
      (∃ name line, f =
        { cause := .namespaceTwice name line, file := s.ns.file, line := s.ns.line }) ∨
      ∃ x ∈ declarationsOf s.ns.scope, ∃ home line, f =
        faultAt x.origin (.definitionTwice x.name home line) := by
  rcases mem_faults_addAll h with h | ⟨x, hx, line, hf⟩
  · split at h
    · refine (mem_append.1 h).imp_right fun h => .inl ?_
      exact ⟨_, _, mem_singleton.1 h⟩
    · exact .inl h
  · exact .inr (.inr ⟨x, hx, _, line, hf⟩)

end Index

variable {d : Draft} {f : Fault}

/-- What is declared twice is put at its second declaration. -/
theorem exists_visit_of_mem_index (h : f ∈ (Index.ofDraft d).faults) : ∃ v ∈ d.walk,
    (∃ name line, f =
      { cause := .namespaceTwice name line, file := v.site.ns.file, line := v.site.ns.line }) ∨
    ∃ x ∈ declarationsOf v.site.ns.scope, ∃ home line,
      f = faultAt x.origin (.definitionTwice x.name home line) := by
  revert h
  refine foldlRecOn (motive := fun ix : Index => f ∈ ix.faults → _) _ _
    (fun h => absurd h not_mem_nil) fun ix ih s hs h => ?_
  obtain ⟨v, hv, rfl⟩ := mem_map.1 hs
  rcases Index.mem_faults_addNamespace h with h | h
  · exact ih h
  · exact ⟨v, hv, h⟩

theorem Ownership.mem_faults_add {file : String} {line : Nat} {o : Ownership} {other name : String}
    (h : f ∈ (o.add file line other name).faults) : f ∈ o.faults ∨
      ∃ owner, f = { cause := .namespaceInFiles name owner other, file := file, line := line } := by
  unfold add at h
  split at h
  · exact .inl h
  · next owner _ =>
    split at h
    · exact .inl h
    · exact (mem_append.1 h).imp_right fun h => ⟨owner, mem_singleton.1 h⟩

theorem exists_import_of_mem_importedNamespaceFaults {lib : Library} {own : List String}
    {imports : Table String} (h : f ∈ importedNamespaceFaults lib d own imports) :
    ∃ e ∈ imports.entries, ∃ name owner other,
      f = { cause := .namespaceInFiles name owner other
            file := d.file, line := importLine d e.1 } := by
  revert h
  refine foldlRecOn (motive := fun o : Ownership => f ∈ o.faults → _) _ _
    (fun h => absurd h not_mem_nil) fun o ho e he => ?_
  refine foldlRecOn (motive := fun o : Ownership => f ∈ o.faults → _) _ _ ho fun o ho m _ => ?_
  refine foldlRecOn (motive := fun o : Ownership => f ∈ o.faults → _) _ _ ho fun o ho ns _ h => ?_
  rcases Ownership.mem_faults_add h with h | ⟨owner, hf⟩
  · exact ho h
  · exact ⟨e, he, _, owner, _, hf⟩

/-! ## Models -/

/-- All that a draft can be faulted for. -/
inductive Faulted (lib : Library) (d : Draft) (imports : Table String) : Fault → Prop
  | outside {x : Declaration} : x ∈ declarationsOf d.top →
      Faulted lib d imports (faultAt x.origin (.outsideNamespace x.name))
  | namespaceTwice {v : Draft.Visit} {name : String} {line : Nat} : v ∈ d.walk →
    Faulted lib d imports
    { cause := .namespaceTwice name line, file := v.site.ns.file, line := v.site.ns.line }
  | definitionTwice {v : Draft.Visit} {x : Declaration} {home : String} {line : Nat} : v ∈ d.walk →
      x ∈ declarationsOf v.site.ns.scope →
      Faulted lib d imports (faultAt x.origin (.definitionTwice x.name home line))
  | namespaceInFiles {e : String × String} {name owner other : String} : e ∈ imports.entries →
      Faulted lib d imports
        { cause := .namespaceInFiles name owner other, file := d.file, line := importLine d e.1 }
  | enumeration {q : String} {e : Draft.Enumeration} {f : Fault} :
      (Index.ofDraft d).declared.find? q = some (.enumeration e) →
      (binderOf lib d imports).FaultsEnumeration e f → Faulted lib d imports f
  | cycle {f : Fault} : f ∈ (binderOf lib d imports).messageCycleFaults → Faulted lib d imports f
  | message {q : String} {m : Draft.Message} {f : Fault} :
      (Index.ofDraft d).declared.find? q = some (.message m) →
      (binderOf lib d imports).FaultsMessage q m f → Faulted lib d imports f

section
variable {lib : Library} {d : Draft} {imports : Table String} {f : Fault}

/-- **Every fault of a model is one of those listed.** -/
theorem faulted_of_mem (h : f ∈ (ofDraft lib d imports).2) : Faulted lib d imports f := by
  simp only [ofDraft, mem_append] at h
  rcases h with ((((h | h) | h) | h) | h) | h
  · unfold outsideFaults at h
    split at h
    · cases h
    · next x _ heq =>
      rw [mem_singleton.1 h]
      exact .outside (heq ▸ mem_cons_self)
  · obtain ⟨v, hv, ⟨name, line, rfl⟩ | ⟨x, hx, home, line, rfl⟩⟩ := exists_visit_of_mem_index h
    · exact .namespaceTwice hv
    · exact .definitionTwice hv hx
  · obtain ⟨e, he, name, owner, other, rfl⟩ := exists_import_of_mem_importedNamespaceFaults h
    exact .namespaceInFiles he
  · obtain ⟨q, e, hq, hf⟩ := Binder.allOfEnumerations f h
    exact .enumeration hq hf
  · exact .cycle h
  · obtain ⟨q, m, hq, hf⟩ := Binder.exists_message_of_mem_messages h
    exact .message hq hf

end

end MessageSchema.Model
