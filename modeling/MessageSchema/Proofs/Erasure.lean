/-
  Notes and lines play no part in the passes.

  Every pass does to a scope without notes what it does to the scope with them: it commutes
  with `bare f`, which also changes lines.

  * `Scope.mapNames_bare`, `Scope.moveTo_bare`, `Scope.promoted_bare`: what passes do to a scope;
  * `Workspace.related_of_bare_eq`: workspaces that differ in notes and lines alone.
-/
import MessageSchema.Proofs.Bare
import MessageSchema.Proofs.RelatedDrafts

namespace MessageSchema

open List

namespace Draft

variable (f : Nat → Nat)

/-! ## Types and scopes -/

theorem FieldType.mapNames_bare (g : TypeName → TypeName) (t : FieldType) :
    (t.bare f).mapNames g = (t.mapNames g).bare f := by
  induction t with
  | element e => cases e <;> rfl
  | array e => cases e <;> rfl
  | map key value ih => rw [FieldType.bare, mapNames, ih]; rfl

theorem FieldType.hasInline_bare (t : FieldType) : (t.bare f).hasInline = t.hasInline := by
  induction t with
  | element e => cases e <;> rfl
  | array e => cases e <;> rfl
  | map key value ih => exact ih

theorem FieldType.inline?_bare (t : FieldType) :
    (t.bare f).inline? = t.inline?.map fun (kind, vs) => (kind, vs.map (RawValue.bare f)) := by
  induction t with
  | element e => cases e <;> rfl
  | array e => cases e <;> rfl
  | map key value ih => exact ih

theorem FieldType.replaceInline_bare (n : TypeName) (t : FieldType) :
    (t.bare f).replaceInline n = (t.replaceInline n).bare f := by
  induction t with
  | element e => cases e <;> rfl
  | array e => cases e <;> rfl
  | map key value ih => rw [FieldType.bare, replaceInline, ih]; rfl

theorem Message.mapNames_bare (g : TypeName → TypeName) (m : Message) :
    (m.bare f).mapNames g = (m.mapNames g).bare f := by
  simp [Message.bare, Message.mapNames, Field.bare, FieldType.mapNames_bare]

theorem Scope.mapNames_bare (g : TypeName → TypeName) (s : Scope) :
    (s.bare f).mapNames g = (s.mapNames g).bare f := by
  simp only [Scope.bare, Scope.mapNames, map_map, Scope.mk.injEq, map_inj_left, Function.comp_apply,
    Message.mapNames_bare, and_true]
  exact ⟨fun _ _ => trivial, fun _ _ => rfl⟩

theorem Field.hasInline_bare (x : Field) : (x.bare f).type.hasInline = x.type.hasInline :=
  FieldType.hasInline_bare f x.type

theorem Message.declared_bare (m : Message) : (m.bare f).declared = m.declared := by
  simp only [declared, Message.bare, filter_map, map_map, Function.comp_def, Field.hasInline_bare]
  rfl

theorem Scope.declared_bare (s : Scope) : (s.bare f).declared = s.declared := by
  simp only [declared, Scope.bare, map_map, flatMap_map, Message.declared_bare]
  rfl

theorem Scope.moveTo_bare (home : String) (s : Scope) :
    (s.bare f).moveTo home = (s.moveTo home).bare f := by
  simp only [Scope.bare, Scope.moveTo, map_map]
  rfl

theorem Scope.declaresNothing_bare (s : Scope) :
    (s.bare f).declaresNothing = s.declaresNothing := by
  simp [declaresNothing, Scope.bare]

/-! ## Numbering and promotion -/

theorem numberFrom_view (v : View) (kind : EnumKind) (file home : String) (previous : Option Int)
    (vs : List RawValue) :
    numberFrom kind file home previous (vs.map v.value) =
      (numberFrom kind file home previous vs).map (List.map v.enumValue) := by
  induction vs generalizing previous with
  | nil => rfl
  | cons x vs ih =>
    rw [map_cons, numberFrom, numberFrom]
    by_cases hrange : EnumKind.inRange (x.number.getD (kind.nextNumber previous)) = true
    · simp only [View.value, if_pos hrange, ih]
      cases numberFrom kind file home _ vs <;> rfl
    · rw [if_neg hrange, if_neg (by exact hrange)]
      rfl

theorem numberFrom_bare (kind : EnumKind) (file home : String) (previous : Option Int)
    (vs : List RawValue) :
    (numberFrom kind file home previous (vs.map (RawValue.bare f))).toOption =
      (numberFrom kind file home previous vs).toOption.map (List.map (EnumValue.bare f)) := by
  induction vs generalizing previous with
  | nil => rfl
  | cons x vs ih =>
    have hrest := ih (some (x.number.getD (kind.nextNumber previous)))
    rw [map_cons, numberFrom, numberFrom]
    by_cases hrange : EnumKind.inRange (x.number.getD (kind.nextNumber previous)) = true
    · simp only [RawValue.bare, if_pos hrange]
      generalize numberFrom kind file home _ (vs.map _) = a,
        numberFrom kind file home _ vs = b at hrest ⊢
      cases a <;> cases b <;> simp_all [Except.toOption, bind, Except.bind, pure, Except.pure,
        EnumValue.bare, Origin.bare]
    · rw [if_neg hrange, if_neg (by exact hrange)]
      rfl

theorem Field.promoted?_bare (message : String) (x : Field) :
    (x.bare f).promoted? message = (x.promoted? message).map (Enumeration.bare f) := by
  rw [promoted?, promoted?, Field.bare, FieldType.inline?_bare]
  cases x.type.inline? with
  | none => rfl
  | some inline =>
    obtain ⟨kind, vs⟩ := inline
    have hnumber := numberFrom_bare f kind x.origin.file x.origin.home none vs
    simp only [Option.map_some, Option.bind_some, declaration, number, Origin.bare]
    generalize numberFrom kind _ _ _ (vs.map _) = a, numberFrom kind _ _ _ vs = b at hnumber ⊢
    cases a <;> cases b <;> simp_all [Except.toOption, bind, Except.bind, pure, Except.pure,
      Enumeration.bare, Origin.bare]

theorem Scope.promotable_bare (s : Scope) : (s.bare f).Promotable ↔ s.Promotable := by
  simp only [Promotable, Scope.bare, Message.bare, forall_mem_map, Field.Promotable,
    Field.promoted?_bare, Option.isSome_map, Field.hasInline_bare]

theorem promotions_bare (ms : List Message) :
    promotions (ms.map (Message.bare f)) = (promotions ms).map (Enumeration.bare f) := by
  simp only [promotions, flatMap_map, map_flatMap, Message.bare, filterMap_map, map_filterMap,
    Function.comp_def, Field.promoted?_bare]

theorem Scope.promoted_bare (home : Option String) (s : Scope) :
    (s.bare f).promoted home = (s.promoted home).bare f := by
  have hfield : ∀ (message : String) (x : Field), (x.bare f).lifted home message =
      (x.lifted home message).bare f := by
    intro message x
    simp only [Field.lifted, Field.bare, FieldType.replaceInline_bare]
    rfl
  simp only [promoted, Scope.bare, promotions_bare, map_append, filter_map, map_map,
    Function.comp_def, Message.lifted, Message.bare, hfield]
  rfl

/-! ## Drafts that differ in notes and lines alone -/

/-- Two namespaces are the same, notes and lines apart. -/
def Namespace.Alike (m n : Namespace) : Prop := m.bare f = n.bare f

theorem Namespace.Alike.scope {m n : Namespace} (h : m.Alike f n) :
    m.scope.bare f = n.scope.bare f :=
  congrArg Namespace.scope h

/-- **The passes keep notes and lines apart from all else.** -/
theorem Namespace.likeness_alike : Likeness (Alike f) where
  same {m n} h := by
    refine ⟨⟨congrArg (·.children) h.scope, fun k => ?_⟩, (congrArg Namespace.name h).symm⟩
    rw [← Scope.declared_bare f m.scope, ← Scope.declared_bare f n.scope, h.scope]
  declaresNothing {m n} h := by
    rw [← Scope.declaresNothing_bare f m.scope, ← Scope.declaresNothing_bare f n.scope, h.scope]
  adopt parent h := (congrArg (fun ns : Namespace => { ns with parent }) h :)
  moveTo {m n} h := by
    have hmoved := congrArg (fun ns : Namespace => { ns with scope := ns.scope.moveTo m.name }) h
    simp only [Namespace.bare, Scope.moveTo_bare] at hmoved
    exact hmoved
  promotable {m n} h hm := by rwa [← Scope.promotable_bare f, ← h.scope, Scope.promotable_bare]

theorem related_of_bare_eq {d e : Draft} (h : d.bare f = e.bare f) :
    d.Related (Namespace.Alike f) e := by
  obtain ⟨file, stem, top, arena, imports, attached⟩ := d
  obtain ⟨file', stem', top', arena', imports', attached'⟩ := e
  simp only [bare, Draft.mk.injEq] at h
  obtain ⟨rfl, rfl, htop, harena, himports, rfl⟩ := h
  have hlinks := congrArg (List.map Import.link) himports
  rw [map_map, map_map] at hlinks
  refine ⟨?_, forall₂_of_map_eq harena, hlinks, rfl⟩
  simp only [Namespace.Alike, outermost, Namespace.bare, htop]

end Draft

/-! ## Workspaces -/

/-- A workspace whose drafts have no notes. -/
def Workspace.bare (w : Workspace) : Workspace := { w with drafts := w.drafts.map (Draft.bare id) }

theorem Workspace.related_of_bare_eq {w v : Workspace} (h : w.bare = v.bare) :
    w.Related (Draft.Related (Draft.Namespace.Alike id)) v :=
  ⟨(forall₂_of_map_eq (congrArg Workspace.drafts h)).imp fun _ _ => Draft.related_of_bare_eq id,
    (congrArg Workspace.registry h).symm, (congrArg Workspace.extension h).symm⟩

end MessageSchema
