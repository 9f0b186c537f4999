/-
  The names that a draft mentions, and what their marks mean.

  A mention is a name that stands for a declaration: in the type of a field, at
  any depth, or as a parent.  The passes mark a name as resolved when they have
  replaced it by a qualified name.

  * `Refined.declares_of_mem_entities`: what lookups see in a refined draft is
    declared in it.
-/
import MessageSchema.Proofs.Lookup

namespace MessageSchema

open List

namespace Draft

/-- A name that stands for a declaration, and the place that mentions it. -/
structure Mention where
  place : Origin
  name : TypeName

/-- The names that a message mentions: its parent and those in the types of its fields. -/
def Message.mentions (m : Message) : List Mention :=
  m.parent.toList.map (Mention.mk m.origin) ++ m.fields.flatMap fun f =>
    f.type.names.map (Mention.mk f.origin)

/-- The name of the parent, if there is one. -/
def Enumeration.mentions (e : Enumeration) : List Mention :=
  e.parent.toList.map (Mention.mk e.origin)

end Draft

def Model.Declaration.mentions : Model.Declaration → List Draft.Mention
  | message m => m.mentions
  | enumeration e => e.mentions
  | compound _ => []

namespace Draft

variable {x : Mention} {s : Scope}

/-- The names that the declarations of a scope mention. -/
def Scope.mentions (s : Scope) : List Mention :=
  (Model.declarationsOf s).flatMap Model.Declaration.mentions

/-- The names that a draft mentions, outside its namespaces and in them. -/
def mentions (d : Draft) : List Draft.Mention :=
  d.top.mentions ++ d.arena.flatMap fun ns => ns.scope.mentions

/-- No field has a type that is written in place, or that holds one. -/
def Scope.InlineFree (s : Scope) : Prop :=
  ∀ m ∈ s.messages, ∀ f ∈ m.fields, f.type.hasInline = false

/-- No type of a draft is written in place. -/
def InlineFree (d : Draft) : Prop := d.top.InlineFree ∧ ∀ ns ∈ d.arena, ns.scope.InlineFree

/-- A draft declares something under a qualified name. -/
def Declares (d : Draft) (q : String) : Prop := ∃ x, (q, x) ∈ Model.declarations d

/-! ## Mentions of scopes -/

theorem Message.mem_mentions {m : Message} : x ∈ m.mentions ↔
    (∃ p, m.parent = some p ∧ x = ⟨m.origin, p⟩) ∨ ∃ f ∈ m.fields, ∃ n ∈ f.type.names, x =
      ⟨f.origin, n⟩ := by
  simp [mentions, eq_comm]

theorem Enumeration.mem_mentions {e : Enumeration} :
    x ∈ e.mentions ↔ ∃ p, e.parent = some p ∧ x = ⟨e.origin, p⟩ := by
  simp [mentions, eq_comm]

theorem Scope.mem_mentions : x ∈ s.mentions ↔
    (∃ m ∈ s.messages, x ∈ m.mentions) ∨ (∃ e ∈ s.enums, x ∈ e.mentions) ∨ ∃ e ∈ s.options, x ∈
      e.mentions := by
  rw [mentions, mem_flatMap]
  constructor
  · rintro ⟨y, hy, hx⟩
    rcases mem_declarationsOf.1 hy with ⟨m, hm, rfl⟩ | ⟨e, he, rfl⟩ | ⟨e, he, rfl⟩ | ⟨c, -, rfl⟩
    · exact .inl ⟨m, hm, hx⟩
    · exact .inr (.inl ⟨e, he, hx⟩)
    · exact .inr (.inr ⟨e, he, hx⟩)
    · cases hx
  · rintro (⟨m, hm, hx⟩ | ⟨e, he, hx⟩ | ⟨e, he, hx⟩)
    · exact ⟨_, mem_declarationsOf.2 (.inl ⟨m, hm, rfl⟩), hx⟩
    · exact ⟨_, mem_declarationsOf.2 (.inr (.inl ⟨e, he, rfl⟩)), hx⟩
    · exact ⟨_, mem_declarationsOf.2 (.inr (.inr (.inl ⟨e, he, rfl⟩))), hx⟩

theorem Scope.mentions_of_declaresNothing (h : s.declaresNothing = true) : s.mentions = [] := by
  simp only [declaresNothing, Bool.and_eq_true, List.isEmpty_iff] at h
  simp [mentions, Model.declarationsOf, h]

theorem mem_mentions {d : Draft} :
    x ∈ d.mentions ↔ x ∈ d.top.mentions ∨ ∃ ns ∈ d.arena, x ∈ ns.scope.mentions := by
  simp [mentions]

/-! ## Changing names -/

theorem ScalarType.names_mapScalar (f : TypeName → TypeName) (t : ScalarType) :
    (FieldType.mapScalar f t).names = t.names.map f := by
  cases t <;> rfl

theorem ElementType.names_mapElement (f : TypeName → TypeName) (t : ElementType) :
    (FieldType.mapElement f t).names = t.names.map f := by
  cases t with
  | scalar s => exact s.names_mapScalar f
  | inline kind values => rfl
  | compound base components => exact base.names_mapScalar f

theorem FieldType.names_mapNames (f : TypeName → TypeName) (t : FieldType) :
    (t.mapNames f).names = t.names.map f := by
  induction t with
  | element e => exact e.names_mapElement f
  | array e => exact e.names_mapElement f
  | map key value ih =>
    simp [mapNames, names, ih, key.names_mapScalar]

/-- A name in place of an inline type is the only one that is new. -/
theorem FieldType.mem_names_replaceInline {t : FieldType} {k n : TypeName}
    (h : n ∈ (t.replaceInline k).names) : n ∈ t.names ∨ (t.hasInline = true ∧ n = k) := by
  induction t with
  | element e =>
    cases e with
    | inline kind values => exact .inr ⟨rfl, mem_singleton.1 h⟩
    | scalar | compound => exact .inl h
  | array e =>
    cases e with
    | inline kind values => exact .inr ⟨rfl, mem_singleton.1 h⟩
    | scalar | compound => exact .inl h
  | map key value ih =>
    rcases mem_append.1 h with h | h
    · exact .inl (mem_append_left _ h)
    · exact (ih h).imp_left (mem_append_right _)

/-- What is mentioned after names have been changed: a changed name, or the parent of
    a set of flags, which is not changed. -/
theorem Scope.mem_mentions_mapNames {f : TypeName → TypeName} (h : x ∈ (s.mapNames f).mentions) :
    ∃ y ∈ s.mentions, x = ⟨y.place, f y.name⟩ ∨ x = y := by
  rcases mem_mentions.1 h with ⟨_, hm', hx⟩ | ⟨_, he', hx⟩ | ⟨e, he, hx⟩
  · obtain ⟨m, hm, rfl⟩ := mem_map.1 hm'
    rcases Message.mem_mentions.1 hx with ⟨p, hp, rfl⟩ | ⟨_, hg', n, hn, rfl⟩
    · obtain ⟨p', hp', rfl⟩ := Option.map_eq_some_iff.1 hp
      exact ⟨⟨m.origin, p'⟩,
        mem_mentions.2 (.inl ⟨m, hm, Message.mem_mentions.2 (.inl ⟨p', hp', rfl⟩)⟩), .inl rfl⟩
    · obtain ⟨g, hg, rfl⟩ := mem_map.1 hg'
      rw [FieldType.names_mapNames] at hn
      obtain ⟨n', hn', rfl⟩ := mem_map.1 hn
      exact ⟨⟨g.origin, n'⟩,
        mem_mentions.2 (.inl ⟨m, hm, Message.mem_mentions.2 (.inr ⟨g, hg, n', hn', rfl⟩)⟩),
        .inl rfl⟩
  · obtain ⟨e, he, rfl⟩ := mem_map.1 he'
    obtain ⟨p, hp, rfl⟩ := Enumeration.mem_mentions.1 hx
    obtain ⟨p', hp', rfl⟩ := Option.map_eq_some_iff.1 hp
    exact ⟨⟨e.origin, p'⟩,
      mem_mentions.2 (.inr (.inl ⟨e, he, Enumeration.mem_mentions.2 ⟨p', hp', rfl⟩⟩)), .inl rfl⟩
  · exact ⟨x, mem_mentions.2 (.inr (.inr ⟨e, he, hx⟩)), .inr rfl⟩

/-- What is mentioned after promotion: what was before, or a type that was written in
    place and is now declared. -/
theorem Scope.mem_mentions_promote {home : Option String} {s' : Scope}
    (h : s.promote home = (s', none)) (hx : x ∈ s'.mentions) :
    x ∈ s.mentions ∨ ∃ y ∈ Model.declarationsOf s', x.name =
      ⟨QualifiedName.join home y.name, true⟩ := by
  obtain ⟨new, ⟨-, hparent⟩, heq⟩ := promote_eq h
  -- the new declarations have no parent
  have hnew : ∀ {e : Enumeration}, e ∈ new → x ∉ e.mentions := by
    intro e he hx
    obtain ⟨p, hp, -⟩ := Enumeration.mem_mentions.1 hx
    rw [hparent e he] at hp
    cases hp
  rcases mem_mentions.1 hx with ⟨_, hm', hx⟩ | ⟨e, he, hx⟩ | ⟨e, he, hx⟩
  · rw [heq] at hm'
    obtain ⟨m, hm, rfl⟩ := mem_map.1 hm'
    rcases Message.mem_mentions.1 hx with ⟨p, hp, rfl⟩ | ⟨_, hf', n, hn, rfl⟩
    · exact .inl (mem_mentions.2 (.inl ⟨m, hm, Message.mem_mentions.2 (.inl ⟨p, hp, rfl⟩)⟩))
    · obtain ⟨f, hf, rfl⟩ := mem_map.1 hf'
      rcases FieldType.mem_names_replaceInline hn with hn | ⟨hinline, rfl⟩
      · exact .inl
          (mem_mentions.2 (.inl ⟨m, hm, Message.mem_mentions.2 (.inr ⟨f, hf, n, hn, rfl⟩)⟩))
      · obtain ⟨e, he, hpromotes⟩ := exists_promoted h hm hf hinline
        exact .inr ⟨_, he, by rw [Model.Declaration.name, hpromotes.name_eq.1]; rfl⟩
  · rw [heq] at he
    rcases mem_append.1 he with he | he
    · exact .inl (mem_mentions.2 (.inr (.inl ⟨e, he, hx⟩)))
    · exact absurd hx (hnew (mem_filter.1 he).1)
  · rw [heq] at he
    rcases mem_append.1 he with he | he
    · exact .inl (mem_mentions.2 (.inr (.inr ⟨e, he, hx⟩)))
    · exact absurd hx (hnew (mem_filter.1 he).1)

theorem Scope.inlineFree_promoted (home : Option String) (s : Scope) :
    (s.promoted home).InlineFree := by
  intro _ hm _ hf
  obtain ⟨m, -, rfl⟩ := mem_map.1 hm
  obtain ⟨f, -, rfl⟩ := mem_map.1 hf
  exact FieldType.hasInline_replaceInline _ _

/-! ## Marks -/

theorem Scope.AsRead.resolved_eq_false (h : s.AsRead) (hx : x ∈ s.mentions) :
    x.name.resolved = false := by
  rcases Scope.mem_mentions.1 hx with ⟨m, hm, hx⟩ | ⟨e, he, hx⟩ | ⟨e, he, hx⟩
  · rcases Message.mem_mentions.1 hx with ⟨p, hp, rfl⟩ | ⟨f, hf, n, hn, rfl⟩
    · exact ((h.message m hm).parent p hp).1
    · exact ((h.message m hm).fieldType f hf n hn).1
  · obtain ⟨p, hp, rfl⟩ := Enumeration.mem_mentions.1 hx
    exact ((h.enumeration e he).parent p hp).1
  · obtain ⟨p, hp, rfl⟩ := Enumeration.mem_mentions.1 hx
    exact ((h.options e he).parent p hp).1

theorem TypeName.resolved_useColons (n : TypeName) : n.useColons.resolved = n.resolved := by
  rw [useColons]

theorem AsRead.resolved_eq_false_useColons {raw : Draft} (h : raw.AsRead) {ns : Namespace}
    (hns : ns ∈ raw.wrap.useColons.arena) (hx : x ∈ ns.scope.mentions) :
    x.name.resolved = false := by
  obtain ⟨ns', hns', rfl⟩ := mem_map.1 hns
  obtain ⟨y, hy, hxy⟩ := Scope.mem_mentions_mapNames hx
  have hfresh := (h.arena_wrap ns' hns').resolved_eq_false hy
  rcases hxy with rfl | rfl
  · exact y.name.resolved_useColons.trans hfresh
  · exact hfresh

/-- A name is marked only if something was found for it. -/
theorem Surroundings.lookup_of_resolve {s : Surroundings} {enclosing : List Region} {n : TypeName}
    (hn : n.resolved = false) (h : (s.resolve enclosing n).resolved = true) :
    s.lookup enclosing n.text = some (s.resolve enclosing n).text := by
  unfold resolve at h ⊢
  rw [hn] at h ⊢
  simp only [Bool.false_eq_true, if_false] at h ⊢
  split at h
  · next q hq => rw [hq]
  · rw [hn] at h
    cases h

section
variable {imports : List (String × Draft)} {raw d : Draft} (h : Refined imports raw d)
include h

theorem Refined.declares_of_mem_entities {q : String} (hq : q ∈ d.symbols.entities) :
    d.Declares q := by
  obtain ⟨v, hv, n, hn, rfl⟩ := (mem_entities_iff h.top).1 hq
  obtain ⟨x, hx, rfl⟩ := h.exists_declaration hv hn
  exact ⟨x, Model.mem_declarations.2 ⟨v, hv, hx, rfl⟩⟩

/-- What a lookup finds is declared in the draft, or seen in an import. -/
theorem Refined.declares_of_lookup {u : Visit} (hu : u ∈ raw.wrap.useColons.walk) {name q : String}
    (hq : (raw.wrap.useColons.surroundings imports).lookup (u.enclosing.map Site.region) name =
      some q) :
    d.Declares q ∨ ∃ e ∈ imports, q ∈ e.2.symbols.entities := by
  rcases Surroundings.lookup_cases hq with ⟨r, hr, hq⟩ | hq | ⟨i, hi, hq⟩ | ⟨i, hi, -, hq⟩
  · obtain ⟨site, hsite, rfl⟩ := mem_map.1 hr
    obtain ⟨u', hu', rfl⟩ := exists_visit_of_mem_enclosing hu hsite
    exact .inl
      (h.declares_of_mem_entities (h.mem_entities_of_before (mem_entities_of_visit hu' hq)))
  · exact .inl (h.declares_of_mem_entities (h.mem_entities_of_before hq))
  · obtain ⟨k, e, he, rfl, -⟩ := exists_of_mem_plain hi
    exact .inr ⟨(k, e), he, hq.elim mem_entities_of_root id⟩
  · obtain ⟨e, he, hall, -⟩ := exists_of_mem_named hi
    exact .inr ⟨(i.localName, e), he, hall q hq⟩

variable (hraw : raw.AsRead)
include hraw

theorem Refined.exists_visit_of_mem_arena {ns : Namespace} (hns : ns ∈ d.arena) :
    ∃ v ∈ d.walk, v.site.ns = ns := by
  obtain ⟨i, hi⟩ := mem_iff_getElem?.1 hns
  obtain ⟨v, hv, -, hns⟩ := (h.covered hraw).exists_visit hi
  exact ⟨v, hv, hns⟩

/-- **What a marked name says is declared in the draft, or seen in an import.** -/
theorem Refined.marked (hx : x ∈ d.mentions) (hmark : x.name.resolved = true) :
    d.Declares x.name.text ∨ ∃ e ∈ imports, x.name.text ∈ e.2.symbols.entities := by
  rcases mem_mentions.1 hx with hx | ⟨ns, hns, hx⟩
  · rw [Scope.mentions_of_declaresNothing h.top] at hx
    cases hx
  · obtain ⟨v, hv, rfl⟩ := h.exists_visit_of_mem_arena hraw hns
    obtain ⟨u, hu, -, s, hs, hscope⟩ := h.before hv
    have hmem := mem_of_getElem? (getElem?_site_of_mem_walk hu)
    have hv' : v.site.ns.scope = s := by rw [hscope]
    rw [hv'] at hx
    rcases Scope.mem_mentions_promote hs hx with hx | ⟨y, hy, hname⟩
    -- a name that was looked up: it had no mark before
    · obtain ⟨y, hy, rfl | rfl⟩ := Scope.mem_mentions_mapNames hx
      · exact h.declares_of_lookup hu
          (Surroundings.lookup_of_resolve (hraw.resolved_eq_false_useColons hmem hy) hmark)
      · rw [hraw.resolved_eq_false_useColons hmem hy] at hmark
        cases hmark
    · rw [hname]
      exact .inl ⟨y, Model.mem_declarations.2 ⟨v, hv, hv' ▸ hy, rfl⟩⟩

/-- **No type is left inline.** -/
theorem Refined.inlineFree : d.InlineFree := by
  refine ⟨fun m hm => ?_, fun ns hns => ?_⟩
  · have htop := h.top
    simp only [Scope.declaresNothing, Bool.and_eq_true, List.isEmpty_iff] at htop
    rw [htop.1.1.1] at hm
    cases hm
  · obtain ⟨v, hv, rfl⟩ := h.exists_visit_of_mem_arena hraw hns
    obtain ⟨u, -, -, s, hs, hscope⟩ := h.before hv
    rw [hscope]
    exact (Scope.promote_eq_iff.1 hs).2 ▸ Scope.inlineFree_promoted _ _

end

end Draft

end MessageSchema
