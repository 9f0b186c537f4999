/-
  Running the passes for a single file again.

  A refined draft is wrapped, its namespaces know their names, no type is left
  inline, and what could not be found is not found when it is looked up again.  So
  a second run has nothing to do but to write the names with double colons, and this
  it also does to names that have been resolved: they start with the name of the
  file, as it is.
-/
import MessageSchema.Proofs.Ancestors
import MessageSchema.Proofs.Arising
import MessageSchema.Proofs.Bare
import MessageSchema.Proofs.SameNames

namespace MessageSchema

open List QualifiedName Draft

/-! ## Names without dots and blanks -/

namespace QualifiedName

/-- A name that holds neither dots nor blanks. -/
def IsPlain (s : String) : Prop := ∀ c ∈ s.toList, c ≠ '.' ∧ Text.isBlank c = false

variable {s : String}

theorem isPlain_empty : IsPlain "" := by simp [IsPlain]

theorem isPlain_append_iff {t : String} : IsPlain (s ++ t) ↔ IsPlain s ∧ IsPlain t := by
  simp only [IsPlain, String.toList_append, mem_append, or_imp]
  exact forall_and

theorem isPlain_of_isWord (h : IsWord s) : IsPlain s := by
  intro c hc
  refine ⟨?_, isBlank_of_isNameChar (h c hc)⟩
  rintro rfl
  exact h.not_mem (by decide) hc

theorem isPlain_join_iff {outer name : String} :
    IsPlain (join (some outer) name) ↔ IsPlain outer ∧ IsPlain name := by
  rw [join]
  split
  · next h => simp [h, isPlain_empty]
  · have hcolons : IsPlain "::" := by intro c hc; simp at hc; subst hc; decide
    rw [isPlain_append_iff, isPlain_append_iff, and_iff_left hcolons]

theorem mem_dotsToColons {s : List Char} {c : Char} (h : c ∈ dotsToColons s) :
    c = ':' ∨ (c ∈ s ∧ c ≠ '.') := by
  induction s with
  | nil => cases h
  | cons a s ih =>
    rw [dotsToColons] at h
    split at h
    · simp only [mem_cons] at h
      rcases h with rfl | rfl | h
      · exact .inl rfl
      · exact .inl rfl
      · exact (ih h).imp_right fun h => ⟨mem_cons_of_mem _ h.1, h.2⟩
    · next ha =>
      rcases mem_cons.1 h with rfl | h
      · exact .inr ⟨mem_cons_self, ha⟩
      · exact (ih h).imp_right fun h => ⟨mem_cons_of_mem _ h.1, h.2⟩

theorem isPlain_withColons (s : String) : IsPlain (withColons s) := by
  intro c hc
  rw [withColons, String.toList_ofList] at hc
  rcases mem_dotsToColons hc with rfl | ⟨hc, hdot⟩
  · decide
  · rw [Text.squeeze, String.toList_ofList, mem_filter, Bool.not_eq_true'] at hc
    exact ⟨hdot, hc.2⟩

theorem dotsToColons_eq_self {s : List Char} (h : ∀ c ∈ s, c ≠ '.') : dotsToColons s = s := by
  induction s with
  | nil => rfl
  | cons a s ih =>
    rw [dotsToColons, if_neg (h a mem_cons_self), ih fun c hc => h c (mem_cons_of_mem _ hc)]

/-- **Writing a name with double colons changes it just if it holds a dot or a
    blank.** -/
theorem withColons_eq_self_iff : withColons s = s ↔ IsPlain s := by
  constructor
  · intro h
    rw [← h]
    exact isPlain_withColons s
  · intro h
    have hsqueeze : (Text.squeeze s).toList = s.toList := by
      rw [Text.squeeze, String.toList_ofList, filter_eq_self]
      intro c hc
      rw [(h c hc).2]
      rfl
    rw [withColons, hsqueeze, dotsToColons_eq_self fun c hc => (h c hc).1, String.ofList_toList]

end QualifiedName

namespace Draft

variable {n : TypeName} {f : TypeName → TypeName} {s : Scope} {home : Option String}
  {g : TypeName → TypeName} {d : Draft}

/-! ## The names that passes change -/

/-- The names that a message mentions, wherever they stand. -/
def Message.names (m : Message) : List TypeName :=
  m.parent.toList ++ m.fields.flatMap (·.type.names)

/-- The names of a scope that passes change; parents of sets of flags are none. -/
def Scope.names (s : Scope) : List TypeName :=
  s.messages.flatMap Message.names ++ s.enums.flatMap (·.parent.toList)

variable {message : String}

theorem TypeName.useColons_eq_self_iff : n.useColons = n ↔ IsPlain n.text := by
  obtain ⟨text, resolved⟩ := n
  rw [← withColons_eq_self_iff, useColons, TypeName.mk.injEq, and_iff_left rfl]

theorem Message.names_mapNames (f : TypeName → TypeName) (m : Message) :
    (m.mapNames f).names = m.names.map f := by
  simp only [names, mapNames, map_append, flatMap_map, map_flatMap,
    FieldType.names_mapNames]
  cases m.parent <;> rfl

theorem Scope.names_mapNames (f : TypeName → TypeName) (s : Scope) :
    (s.mapNames f).names = s.names.map f := by
  have henum : ∀ e : Enumeration, (e.mapNames f).parent.toList = e.parent.toList.map f := by
    intro e
    rw [Enumeration.mapNames]
    cases e.parent <;> rfl
  simp [names, mapNames, flatMap_map, map_flatMap, henum, Message.names_mapNames]

theorem FieldType.mapNames_congr {t : FieldType} (h : ∀ n ∈ t.names, f n = g n) :
    t.mapNames f = t.mapNames g := by
  have hscalar : ∀ s : ScalarType, (∀ n ∈ s.names, f n = g n) → mapScalar f s = mapScalar g s := by
    intro s hs
    cases s with
    | primitive => rfl
    | named n => rw [mapScalar, mapScalar, hs n mem_cons_self]
  have helement : ∀ e : ElementType, (∀ n ∈ e.names, f n = g n) →
      mapElement f e = mapElement g e := by
    intro e he
    cases e with
    | scalar s => rw [mapElement, mapElement, hscalar s he]
    | inline => rfl
    | compound base => rw [mapElement, mapElement, hscalar base he]
  induction t with
  | element e => rw [mapNames, mapNames, helement e h]
  | array e => rw [mapNames, mapNames, helement e h]
  | map key value ih =>
    rw [mapNames, mapNames, hscalar key fun n hn => h n (mem_append_left _ hn),
      ih fun n hn => h n (mem_append_right _ hn)]

theorem map_parent_congr {p : Option TypeName} (h : ∀ n ∈ p.toList, f n = g n) :
    p.map f = p.map g := by
  cases p with
  | none => rfl
  | some n => rw [Option.map_some, Option.map_some, h n mem_cons_self]

/-- Changes of names that do the same to each of them do the same. -/
theorem Scope.mapNames_congr (h : ∀ n ∈ s.names, f n = g n) : s.mapNames f = s.mapNames g := by
  have hmessages : s.messages.map (Message.mapNames f) = s.messages.map (Message.mapNames g) := by
    refine map_congr_left fun m hm => ?_
    have hm' : ∀ n ∈ m.names, f n = g n := fun n hn =>
      h n (mem_append_left _ (mem_flatMap.2 ⟨m, hm, hn⟩))
    have hfields : m.fields.map (fun x => { x with type := x.type.mapNames f }) =
        m.fields.map (fun x => { x with type := x.type.mapNames g }) := by
      refine map_congr_left fun x hx => ?_
      rw [FieldType.mapNames_congr fun n hn =>
        hm' n (mem_append_right _ (mem_flatMap.2 ⟨x, hx, hn⟩))]
    rw [Message.mapNames, Message.mapNames, hfields, map_parent_congr fun n hn =>
      hm' n (mem_append_left _ hn)]
  have henums : s.enums.map (Enumeration.mapNames f) = s.enums.map (Enumeration.mapNames g) := by
    refine map_congr_left fun e he => ?_
    rw [Enumeration.mapNames, Enumeration.mapNames, map_parent_congr fun n hn =>
      h n (mem_append_right _ (mem_flatMap.2 ⟨e, he, hn⟩))]
  rw [Scope.mapNames, Scope.mapNames, hmessages, henums]

theorem map_eq_self_iff {α : Type} {f : α → α} {l : List α} : l.map f = l ↔ ∀ x ∈ l, f x = x := by
  have h := map_inj_left (l := l) (f := f) (g := id)
  rwa [map_id] at h

theorem Scope.mapNames_eq_self_iff : s.mapNames f = s ↔ ∀ n ∈ s.names, f n = n := by
  constructor
  · intro h n hn
    have hnames := s.names_mapNames f
    rw [h] at hnames
    exact (map_eq_self_iff.1 hnames.symm) n hn
  · intro h
    exact (mapNames_congr h).trans s.mapNames_id

/-- What is named after promotion: what was before, or a type that was written in
    place, with a mark. -/
theorem Scope.mem_names_of_promote {s' : Scope} (h : s.promote home = (s', none))
    (hn : n ∈ s'.names) : n ∈ s.names ∨ n.resolved = true := by
  obtain ⟨new, ⟨-, hparent⟩, rfl⟩ := promote_eq h
  rcases mem_append.1 hn with hn | hn
  · obtain ⟨_, hm', hn⟩ := mem_flatMap.1 hn
    obtain ⟨m, hm, rfl⟩ := mem_map.1 hm'
    have hmem : n ∈ m.names → n ∈ s.names := fun hn =>
      mem_append_left _ (mem_flatMap.2 ⟨m, hm, hn⟩)
    rcases mem_append.1 hn with hn | hn
    · exact .inl (hmem (mem_append_left _ hn))
    · obtain ⟨_, hf', hn⟩ := mem_flatMap.1 hn
      obtain ⟨f, hf, rfl⟩ := mem_map.1 hf'
      rcases FieldType.mem_names_replaceInline hn with hn | ⟨-, rfl⟩
      · exact .inl (hmem (mem_append_right _ (mem_flatMap.2 ⟨f, hf, hn⟩)))
      · exact .inr rfl
  · obtain ⟨e, he, hn⟩ := mem_flatMap.1 hn
    rcases mem_append.1 he with he | he
    · exact .inl (mem_append_right _ (mem_flatMap.2 ⟨e, he, hn⟩))
    · rw [hparent e (mem_filter.1 he).1] at hn
      cases hn

/-- The names that passes change are mentioned. -/
theorem Scope.exists_mention (hn : n ∈ s.names) : ∃ x ∈ s.mentions, x.name = n := by
  rcases mem_append.1 hn with hn | hn
  · obtain ⟨m, hm, hn⟩ := mem_flatMap.1 hn
    rcases mem_append.1 hn with hn | hn
    · exact ⟨⟨m.origin, n⟩, Scope.mem_mentions.2 (.inl ⟨m, hm,
        Message.mem_mentions.2 (.inl ⟨n, Option.mem_toList.1 hn, rfl⟩)⟩), rfl⟩
    · obtain ⟨f, hf, hn⟩ := mem_flatMap.1 hn
      exact ⟨⟨f.origin, n⟩, Scope.mem_mentions.2 (.inl ⟨m, hm,
        Message.mem_mentions.2 (.inr ⟨f, hf, n, hn, rfl⟩)⟩), rfl⟩
  · obtain ⟨e, he, hn⟩ := mem_flatMap.1 hn
    exact ⟨⟨e.origin, n⟩, Scope.mem_mentions.2 (.inr (.inl ⟨e, he,
      Enumeration.mem_mentions.2 ⟨n, Option.mem_toList.1 hn, rfl⟩⟩)), rfl⟩

/-- What is mentioned is changed by passes, or the parent of a set of flags. -/
theorem Scope.mem_names_of_mention {x : Mention} (hx : x ∈ s.mentions) :
    x.name ∈ s.names ∨ ∃ e ∈ s.options, e.parent = some x.name := by
  rcases Scope.mem_mentions.1 hx with ⟨m, hm, hx⟩ | ⟨e, he, hx⟩ | ⟨e, he, hx⟩
  · refine .inl (mem_append_left _ (mem_flatMap.2 ⟨m, hm, ?_⟩))
    rcases Message.mem_mentions.1 hx with ⟨p, hp, rfl⟩ | ⟨f, hf, n, hn, rfl⟩
    · exact mem_append_left _ (Option.mem_toList.2 hp)
    · exact mem_append_right _ (mem_flatMap.2 ⟨f, hf, hn⟩)
  · obtain ⟨p, hp, rfl⟩ := Enumeration.mem_mentions.1 hx
    exact .inl (mem_append_right _ (mem_flatMap.2 ⟨e, he, Option.mem_toList.2 hp⟩))
  · obtain ⟨p, hp, rfl⟩ := Enumeration.mem_mentions.1 hx
    exact .inr ⟨e, he, hp⟩

/-! ## Passes that have nothing to do -/

theorem Scope.promote_of_inlineFree (h : s.InlineFree) (home : Option String) :
    s.promote home = (s, none) := by
  have hlifted : s.messages.map (Message.lifted home) = s.messages := by
    refine map_eq_self_iff.2 fun m hm => ?_
    have hfields : m.fields.map (Field.lifted home m.name) = m.fields :=
        map_eq_self_iff.2 fun f hf => by
      rw [Field.lifted, FieldType.replaceInline_of_not_hasInline _ (h m hm f hf)]
    rw [Message.lifted, hfields]
  have hnone : promotions s.messages = [] := by
    simp only [promotions, flatMap_eq_nil_iff, filterMap_eq_nil_iff]
    exact fun m hm f hf => Field.promoted?_of_hasInline _ (h m hm f hf)
  refine Scope.promote_eq_iff.2 ⟨fun m hm f hf hinline => ?_, ?_⟩
  · cases (h m hm f hf).symm.trans hinline
  · simp [promoted, hlifted, hnone]

theorem promoteAt_of_inlineFree {arena : List Namespace} (h : ∀ ns ∈ arena, ns.scope.InlineFree)
    (is : List Nat) : promoteAt is arena = (arena, none) := by
  induction is with
  | nil => rfl
  | cons i is ih =>
    rw [promoteAt]
    split
    · exact ih
    · next ns hns =>
      obtain ⟨hlt, heq⟩ := List.getElem?_eq_some_iff.1 hns
      have hset : arena.set i { ns with scope := ns.scope } = arena := by
        rw [← heq]
        exact set_getElem_self hlt
      rw [Scope.promote_of_inlineFree (h _ (mem_of_getElem? hns))]
      simp only [hset]
      exact ih

theorem promote_of_inlineFree (h : d.InlineFree) : d.promote = (d, none) := by
  rw [promote, Scope.promote_of_inlineFree h.1]
  simp only [promoteAt_of_inlineFree h.2]

/-- Nothing is resolved where namespaces know their names and lookups change none. -/
theorem resolve_eq_self {imports : List (String × Draft)} (hd : d.Covered) (hw : d.isWrapped = true)
    (hqualified : ∀ v ∈ d.walk, v.site.ns.qualified = some v.site.qualified)
    (hnames : ∀ v ∈ d.walk, v.resolved (d.surroundings imports) = v.site.ns.scope) :
    d.resolve imports = .ok d := by
  obtain ⟨e, he⟩ : ∃ e, d.resolve imports = .ok e := by rw [resolve, if_pos hw]; exact ⟨_, rfl⟩
  have harena : e.arena = d.arena := by
    refine ext_getElem? fun i => ?_
    cases hi : d.arena[i]? with
    | none =>
      rw [List.getElem?_eq_none_iff, length_eq_of_outline_eq (outline_resolve he)]
      exact List.getElem?_eq_none_iff.1 hi
    | some ns =>
      obtain ⟨v, hv, rfl, rfl⟩ := hd.exists_visit hi
      rw [getElem?_resolve hd he hv, hnames v hv, ← hqualified v hv]
  obtain ⟨-, heq⟩ := resolve_eq he
  have hself : e = d := by
    rw [heq] at harena ⊢
    exact congrArg (fun arena => { d with arena }) harena
  rw [he, hself]

/-! ## Settled drafts -/

/-- A draft that a run of the passes leaves behind. -/
structure Settled (d : Draft) : Prop where
  wrapped : d.isWrapped = true
  covered : d.Covered
  qualified : ∀ v ∈ d.walk, v.site.ns.qualified = some v.site.qualified
  inlineFree : d.InlineFree
  /-- a name without a mark has neither dots nor blanks, and denotes nothing -/
  unmarked : ∀ v ∈ d.walk, ∀ n ∈ v.site.ns.scope.names, n.resolved = false →
    IsPlain n.text ∧ (d.surroundings []).lookup (v.enclosing.map Site.region) n.text = none

theorem Scope.InlineFree.mapNames (h : s.InlineFree) (f : TypeName → TypeName) :
    (s.mapNames f).InlineFree := by
  intro m hm x hx
  obtain ⟨m', hm', rfl⟩ := mem_map.1 hm
  obtain ⟨x', hx', rfl⟩ := mem_map.1 hx
  exact (FieldType.hasInline_mapNames f x'.type).trans (h m' hm' x' hx')

theorem InlineFree.useColons (h : d.InlineFree) : d.useColons.InlineFree := by
  refine ⟨h.1.mapNames _, fun ns hns => ?_⟩
  obtain ⟨ns', hns', rfl⟩ := mem_map.1 hns
  exact (h.2 ns' hns').mapNames _

theorem Settled.useColons (h : d.Settled) : d.useColons.Settled := by
  have hsame := same_useColons d
  refine ⟨(isWrapped_useColons d).trans h.wrapped, h.covered.congr rfl hsame.outline,
    fun v hv => ?_, h.inlineFree.useColons, fun v hv n hn hmark => ?_⟩
  · obtain ⟨u, hu, hroute, hns⟩ := exists_visit_of_useColons hv
    rw [hns, ← (Visit.site_of_route hroute).2]
    exact h.qualified u hu
  · obtain ⟨u, hu, hroute, hns⟩ := exists_visit_of_useColons hv
    rw [hns, Scope.names_mapNames] at hn
    obtain ⟨n', hn', rfl⟩ := mem_map.1 hn
    obtain ⟨hplain, hnone⟩ := h.unmarked u hu n' hn' (n'.resolved_useColons.symm.trans hmark)
    rw [TypeName.useColons_eq_self_iff.2 hplain,
      ← (hsame.surroundings .nil).lookup (hsame.regions hu hv hroute)]
    exact ⟨hplain, hnone⟩

theorem Settled.resolved (h : d.Settled) {v : Visit} (hv : v ∈ d.walk) :
    v.resolved (d.surroundings []) = v.site.ns.scope := by
  refine Scope.mapNames_eq_self_iff.2 fun n hn => ?_
  rw [Surroundings.resolve]
  split
  · rfl
  · next hmark => rw [(h.unmarked v hv n hn (Bool.eq_false_iff.2 hmark)).2]

/-- **What a run makes of a settled draft**: its names are written with double colons. -/
theorem Settled.refines (h : d.Settled) : Refines [] d d.useColons := by
  have h' := h.useColons
  have hwrap : d.wrap = d := by rw [wrap, if_pos h.wrapped]
  rw [Refines, hwrap]
  exact ⟨d.useColons, resolve_eq_self h'.covered h'.wrapped h'.qualified fun v hv => h'.resolved hv,
    promote_of_inlineFree h'.inlineFree⟩

/-! ## What a run leaves behind -/

/-- A name that a lookup leaves without a mark is left as it is. -/
theorem Surroundings.lookup_of_unmarked {s : Surroundings}
    (h : (s.resolve enclosing n).resolved = false) :
    s.resolve enclosing n = n ∧ s.lookup enclosing n.text = none := by
  unfold resolve at h ⊢
  split
  · next hn => rw [if_pos hn, hn] at h; cases h
  · next hn =>
    rw [if_neg hn] at h
    split at h
    · cases h
    · next hnone => rw [hnone]; exact ⟨rfl, rfl⟩

theorem isPlain_of_mem_useColons {ns : Namespace} (hns : ns ∈ d.useColons.arena)
    (hn : n ∈ ns.scope.names) : IsPlain n.text := by
  obtain ⟨ns', -, rfl⟩ := mem_map.1 hns
  rw [Scope.names_mapNames] at hn
  obtain ⟨n', -, rfl⟩ := mem_map.1 hn
  exact isPlain_withColons n'.text

theorem isWrapped_wrap (d : Draft) : d.wrap.isWrapped = true := by
  by_cases h : d.isWrapped = true
  · rwa [wrap, if_pos h]
  · rw [wrap, if_neg h]
    simp [isWrapped, rootIndex?, Scope.declaresNothing, length_adopt]

theorem Scope.mem_options_of_promote {s' : Scope} (h : s.promote home = (s', none))
    {e : Enumeration} (he : e ∈ s'.options) : e ∈ s.options ∨ e.parent = none := by
  obtain ⟨new, ⟨-, hparent⟩, rfl⟩ := promote_eq h
  rcases mem_append.1 he with he | he
  · exact .inl he
  · exact .inr (hparent e (mem_filter.1 he).1)

theorem Refined.isWrapped {imports : List (String × Draft)} {raw : Draft}
    (h : Refined imports raw d) : d.isWrapped = true := by
  have hroot : d.rootIndex? = raw.wrap.rootIndex? :=
    rootIndex?_congr (by rw [← h.children_top]; rfl) (by rw [h.rest]; rfl)
      (h.outline.trans (outline_useColons _))
  rw [Draft.isWrapped, h.top, hroot]
  exact (Bool.and_eq_true_iff.1 (isWrapped_wrap raw)).2

section
variable {raw d : Draft} (hraw : raw.AsRead) (h : Refined [] raw d)
include hraw h

theorem Refined.same : raw.wrap.useColons.Same d := by
  have htop : raw.wrap.useColons.top = d.top := by rw [h.rest]
  refine ⟨htop ▸ ⟨rfl, fun _ => Iff.rfl⟩, ?_, by rw [h.rest], by rw [h.rest]⟩
  refine forall₂_of_getElem? (length_eq_of_outline_eq h.outline.symm) fun i x hx => ?_
  obtain ⟨u, hu, rfl, rfl⟩ := hraw.covered_useColons.exists_visit hx
  obtain ⟨s, hs, hget⟩ := h.visited u hu
  refine ⟨_, hget, ⟨(congrArg Scope.children (Scope.promote_eq_iff.1 hs).2).symm, fun n => ?_⟩, rfl⟩
  rw [Scope.mem_declared_promote hs, Visit.resolved, Scope.declared_mapNames]

/-- **A run leaves a settled draft behind.** -/
theorem Refined.settled : d.Settled := by
  have hsame := h.same hraw
  refine ⟨h.isWrapped, h.covered hraw, fun v hv => h.qualified hv, h.inlineFree hraw,
    fun v hv n hn hmark => ?_⟩
  obtain ⟨u, hu, hroute, s, hs, hns⟩ := h.before hv
  rw [hns] at hn
  rcases Scope.mem_names_of_promote hs hn with hn | hn
  -- a name that was looked up, to no avail
  · rw [Visit.resolved, Scope.names_mapNames] at hn
    obtain ⟨n', hn', rfl⟩ := mem_map.1 hn
    obtain ⟨heq, hnone⟩ := Surroundings.lookup_of_unmarked hmark
    rw [heq, ← (hsame.surroundings .nil).lookup (hsame.regions hu hv hroute)]
    exact ⟨isPlain_of_mem_useColons (mem_of_getElem? (getElem?_site_of_mem_walk hu)) hn', hnone⟩
  · rw [hn] at hmark
    cases hmark

/-- A name with a mark is one that passes change. -/
theorem Refined.mem_names_of_marked {x : Mention} {v : Visit} (hv : v ∈ d.walk)
    (hx : x ∈ v.site.ns.scope.mentions) (hmark : x.name.resolved = true) :
    x.name ∈ v.site.ns.scope.names := by
  rcases Scope.mem_names_of_mention hx with hx | ⟨e, he, hparent⟩
  · exact hx
  · obtain ⟨u, hu, -, s, hs, hns⟩ := h.before hv
    rw [hns] at he
    rcases Scope.mem_options_of_promote hs he with he | he
    -- parents of sets of flags are never looked up
    · have hmem : (⟨e.origin, x.name⟩ : Mention) ∈ u.site.ns.scope.mentions :=
        Scope.mem_mentions.2 (.inr (.inr ⟨e, he, Enumeration.mem_mentions.2 ⟨_, hparent, rfl⟩⟩))
      have hfresh :=
        hraw.resolved_eq_false_useColons (mem_of_getElem? (getElem?_site_of_mem_walk hu)) hmem
      exact absurd (hfresh.symm.trans hmark) Bool.false_ne_true
    · rw [he] at hparent
      cases hparent

end

/-! ## Qualified names and the name of the file -/

/-- A qualified name holds no dot or blank just if no name of a namespace around does. -/
theorem isPlain_qualified_of_mem_visitsFrom {arena : List Namespace} {n : Nat} {around : List Site}
    {cs : List Nat} {v : Visit} (hv : v ∈ visitsFrom arena n around cs)
    (haround : ∀ site ∈ around.head?, (IsPlain site.qualified ↔ ∀ s ∈ around, IsPlain s.ns.name)) :
    IsPlain v.site.qualified ↔ ∀ s ∈ v.enclosing, IsPlain s.ns.name := by
  induction n generalizing around cs with
  | zero => cases hv
  | succ n ih =>
    obtain ⟨i, -, ns, -, hv⟩ := mem_visitsFrom_succ.1 hv
    have hsite : IsPlain (siteIn around i ns).qualified ↔
        ∀ s ∈ siteIn around i ns :: around, IsPlain s.ns.name := by
      cases around with
      | nil => simp [siteIn, join]
      | cons outer around =>
        have houter := haround outer rfl
        rw [forall_mem_cons, ← houter, and_comm]
        exact isPlain_join_iff
    rcases hv with rfl | hv
    · exact hsite
    · exact ih hv fun site hmem => by cases hmem; exact hsite

/-- The outermost namespace of a wrapped draft is named after the file. -/
theorem exists_root_of_isWrapped (h : d.isWrapped = true) :
    ∃ i ns, d.top.children = [i] ∧ d.arena[i]? = some ns ∧ ns.name = d.stem := by
  have hroot := (Bool.and_eq_true_iff.1 h).2
  unfold rootIndex? at hroot
  split at hroot
  · next i hi =>
    split at hroot
    · next ns hns =>
      split at hroot
      · next hname => exact ⟨i, ns, hi, hns, hname⟩
      · cases hroot
    · cases hroot
  · cases hroot

section
variable {imports : List (String × Draft)} {raw d : Draft} (h : Refined imports raw d)
include h

theorem Refined.stem : d.stem = raw.stem := by
  rw [h.rest]
  show raw.wrap.stem = raw.stem
  unfold wrap
  split <;> rfl

/-- The names of the namespaces are those that were read, and the name of the file. -/
theorem Refined.name_of_mem_arena (hraw : raw.AsRead) {ns : Namespace} (hns : ns ∈ d.arena) :
    IsWord ns.name ∨ ns.name = raw.stem := by
  have hmem : ns.name ∈ raw.wrap.arena.map (·.name) := by
    have hnames := congrArg (List.map Prod.fst) (h.outline.trans (outline_useColons raw.wrap))
    simp only [Draft.outline, map_map] at hnames
    have hname := mem_map_of_mem (f := fun ns : Namespace => ns.name) hns
    exact hnames ▸ hname
  obtain ⟨ns', hns', heq⟩ := mem_map.1 hmem
  rw [← heq]
  rcases mem_arena_wrap hns' with ⟨read, hread, hname, -⟩ | ⟨hname, -⟩
  · rw [hname]
    exact .inl (hraw.isWord read hread)
  · exact .inr hname

end

section
variable {raw d : Draft} (hraw : raw.AsRead) (h : Refined [] raw d)
include hraw h

/-- **Qualified names hold dots and blanks just if the name of the file does.** -/
theorem Refined.isPlain_qualified_iff {v : Visit} (hv : v ∈ d.walk) :
    IsPlain v.site.qualified ↔ IsPlain raw.stem := by
  obtain ⟨i, root, hchildren, hroot, hname⟩ := exists_root_of_isWrapped (h.settled hraw).wrapped
  rw [isPlain_qualified_of_mem_visitsFrom hv fun site hsite => by cases hsite]
  constructor
  · intro hplain
    obtain ⟨ns, hns, hmem⟩ := exists_root_of_mem_walk hchildren hv
    rw [hroot] at hns
    cases hns
    rw [← h.stem, ← hname]
    exact hplain _ hmem
  · intro hstem site hsite
    have hget := getElem?_of_mem_walk hv site hsite
    rcases h.name_of_mem_arena hraw (mem_of_getElem? hget) with hword | hname'
    · exact isPlain_of_isWord hword
    · rwa [hname']

theorem Refined.isPlain_marked_iff {x : Mention} (hx : x ∈ d.mentions)
    (hmark : x.name.resolved = true) : IsPlain x.name.text ↔ IsPlain raw.stem := by
  rcases h.marked hraw hx hmark with ⟨y, hy⟩ | ⟨e, he, -⟩
  · obtain ⟨v, hv, hmem, hq⟩ := Model.mem_declarations.1 hy
    rw [← hq, isPlain_join_iff, h.isPlain_qualified_iff hraw hv,
      and_iff_left (isPlain_of_isWord (h.isWord_name hraw hv hmem))]
  · cases he

/-- **Writing a refined draft with double colons changes nothing** just if the name of
    the file holds neither dots nor blanks, or nothing has been resolved. -/
theorem Refined.useColons_eq_self_iff :
    d.useColons = d ↔ IsPlain raw.stem ∨ ∀ x ∈ d.mentions, x.name.resolved = false := by
  have hsettled := h.settled hraw
  constructor
  · intro heq
    by_contra hnot
    simp only [not_or, not_forall, Bool.not_eq_false] at hnot
    obtain ⟨hstem, x, hx, hmark⟩ := hnot
    refine hstem ((h.isPlain_marked_iff hraw hx hmark).1 ?_)
    rcases mem_mentions.1 hx with hx | ⟨ns, hns, hx⟩
    · rw [Scope.mentions_of_declaresNothing h.top] at hx
      cases hx
    · obtain ⟨v, hv, rfl⟩ := h.exists_visit_of_mem_arena hraw hns
      exact isPlain_of_mem_useColons (heq.symm ▸ hns) (h.mem_names_of_marked hraw hv hx hmark)
  · intro hplain
    have hnames : ∀ ns ∈ d.arena, ns.scope.mapNames TypeName.useColons = ns.scope := by
      intro ns hns
      obtain ⟨v, hv, rfl⟩ := h.exists_visit_of_mem_arena hraw hns
      refine Scope.mapNames_eq_self_iff.2 fun n hn => TypeName.useColons_eq_self_iff.2 ?_
      obtain ⟨x, hx, rfl⟩ := Scope.exists_mention hn
      have hmem : x ∈ d.mentions := mem_mentions.2 (.inr ⟨_, hns, hx⟩)
      cases hmark : x.name.resolved with
      | false => exact (hsettled.unmarked v hv _ hn hmark).1
      | true =>
        refine (h.isPlain_marked_iff hraw hmem hmark).2 (hplain.resolve_right fun hnone => ?_)
        exact absurd ((hnone x hmem).symm.trans hmark) Bool.false_ne_true
    have harena :
        d.arena.map (fun ns => { ns with scope := ns.scope.mapNames TypeName.useColons }) =
        d.arena :=
      map_eq_self_iff.2 fun ns hns => by rw [hnames ns hns]
    have htop : d.top.mapNames TypeName.useColons = d.top := by
      refine Scope.mapNames_eq_self_iff.2 fun n hn => ?_
      obtain ⟨x, hx, -⟩ := Scope.exists_mention hn
      rw [Scope.mentions_of_declaresNothing h.top] at hx
      cases hx
    rw [useColons, harena, htop]

end

theorem mapNames_useColons_useColons (s : Scope) :
    (s.mapNames TypeName.useColons).mapNames TypeName.useColons =
      s.mapNames TypeName.useColons := by
  refine Scope.mapNames_eq_self_iff.2 fun n hn => TypeName.useColons_eq_self_iff.2 ?_
  rw [Scope.names_mapNames] at hn
  obtain ⟨n', -, rfl⟩ := mem_map.1 hn
  exact isPlain_withColons n'.text

theorem useColons_useColons (d : Draft) : d.useColons.useColons = d.useColons := by
  have harena : d.useColons.useColons.arena = d.useColons.arena := by
    simp only [useColons, map_map]
    refine map_congr_left fun ns _ => ?_
    simp [mapNames_useColons_useColons]
  have htop : d.useColons.useColons.top = d.useColons.top := mapNames_useColons_useColons d.top
  rw [useColons]
  exact congrArg₂ (fun top arena => { d.useColons with top, arena }) htop harena

end Draft

/-! ## Runs in a workspace -/

namespace Workspace

variable {w : Workspace} {id : DraftId} {d : Draft}

theorem attachedTo_of_attached_eq (h : d.attached = .empty) : w.attachedTo d = [] := by
  rw [attachedTo, h]
  rfl

/-- **The passes on a draft by itself** run through just if there is something that
    they make of it, and then change nothing else. -/
theorem refine_single_iff {raw : Draft} (hraw : w.draft? id = some raw)
    (hnew : raw.attached = .empty) :
    ∃ evs, ∀ w', refine id Pass.single w = (w', none) ↔ ∃ d, Refines [] raw d ∧
      w' = w.put id d evs := by
  have hattached : ∀ ws : Workspace, ws.attachedTo raw.wrap.useColons = [] := fun ws =>
    attachedTo_of_attached_eq ((wrap_attached raw).trans hnew)
  obtain ⟨evs₁, h₁⟩ := refine_put_cons hraw raw .wrap [.useColons, .resolve, .promote] w.events
  obtain ⟨evs₂, h₂⟩ := refine_put_cons hraw raw.wrap .useColons [.resolve, .promote] evs₁
  obtain ⟨evs₃, h₃⟩ := refine_put_cons hraw raw.wrap.useColons .resolve [.promote] evs₂
  have hfirst : ∀ w', refine id Pass.single w = (w', none) ↔
      refine id [.resolve, .promote] (w.put id raw.wrap.useColons evs₂) = (w', none) := by
    intro w'
    rw [← congrArg (refine id Pass.single) (put_self hraw)]
    refine (h₁ w').trans ⟨?_, fun h => ⟨_, rfl, (h₂ w').2 ⟨_, rfl, h⟩⟩⟩
    rintro ⟨_, hwrap, h⟩
    cases hwrap
    obtain ⟨_, hcolons, h⟩ := (h₂ w').1 h
    cases hcolons
    exact h
  cases he : raw.wrap.useColons.resolve [] with
  | error fault =>
    refine ⟨[], fun w' => ?_⟩
    rw [hfirst, h₃]
    simp [Pass.resolve, hattached, he, Refines]
  | ok e =>
    obtain ⟨evs₄, h₄⟩ := refine_put_cons hraw e .promote [] evs₃
    have hresolve : ∀ ws, Pass.resolve.run ws raw.wrap.useColons = (e, none) := by
      intro ws
      simp only [Pass.resolve, hattached, he]
    have hpromote : ∀ ws d, Pass.promote.run ws e = (d, none) ↔ e.promote = (d, none) := by
      intro ws d
      simp only [Pass.promote]
      obtain ⟨d', fault⟩ := e.promote
      cases fault <;> simp
    refine ⟨evs₄, fun w' => (hfirst w').trans ((h₃ w').trans ⟨?_, ?_⟩)⟩
    · rintro ⟨_, hrun, h⟩
      rw [hresolve] at hrun
      cases hrun
      obtain ⟨d, hd, hnil⟩ := (h₄ w').1 h
      cases hnil
      exact ⟨d, ⟨e, he, (hpromote _ _).1 hd⟩, rfl⟩
    · rintro ⟨d, ⟨e', he', hd⟩, rfl⟩
      cases he.symm.trans he'
      exact ⟨e, hresolve _, (h₄ _).2 ⟨d, (hpromote _ _).2 hd, rfl⟩⟩

theorem refine_single_of_settled (hd : w.draft? id = some d) (hnew : d.attached = .empty)
    (h : d.Settled) :
    ∃ w', refine id Pass.single w = (w', none) ∧ w'.draft? id = some d.useColons := by
  obtain ⟨evs, hrun⟩ := refine_single_iff hd hnew
  exact ⟨_, (hrun _).2 ⟨_, h.refines, rfl⟩, draft?_put_self hd _ evs⟩

/-- **Runs on a settled draft**, one or more, write its names with double colons. -/
theorem refineEach_replicate_of_settled (hd : w.draft? id = some d) (hnew : d.attached = .empty)
    (h : d.Settled) (k : Nat) :
    ∃ w', refineEach Pass.single (List.replicate (k + 1) id) w = (w', none) ∧
      w'.draft? id = some d.useColons := by
  induction k generalizing w d with
  | zero =>
    obtain ⟨w', hrun, hd'⟩ := refine_single_of_settled hd hnew h
    exact ⟨w', by rw [replicate_succ, refineEach, hrun]; rfl, hd'⟩
  | succ k ih =>
    -- what the first run leaves is settled, and has its double colons
    obtain ⟨w₁, hrun, hd₁⟩ := refine_single_of_settled hd hnew h
    obtain ⟨w', hrest, hd'⟩ := ih hd₁ hnew h.useColons
    rw [useColons_useColons] at hd'
    exact ⟨w', by rw [replicate_succ, refineEach, hrun]; exact hrest, hd'⟩

/-- **A second run, and every one after it, writes the names of a draft with double
    colons and does nothing else.**  Whatever text the draft has been read from, and
    under whatever name: if the passes for a single file run through once, they run
    through however often they are run again, and leave the same draft each time.
    It is the one that the first run has left if the name of the file holds neither
    dots nor blanks, or no name has been resolved, and only then. -/
theorem refine_single_again {file text : String} {raw : Draft}
    (hread : Draft.read file text = .ok raw) {w w₁ : Workspace} {id : DraftId}
    (hid : w.draft? id = some raw) (h : refine id Pass.single w = (w₁, none)) :
    ∃ d, w₁.draft? id = some d ∧
      (∀ k, ∃ w', refineEach Pass.single (List.replicate (k + 1) id) w₁ = (w', none) ∧
        w'.draft? id = some d.useColons) ∧
      (d.useColons = d ↔
        QualifiedName.IsPlain (Path.stem file) ∨ ∀ x ∈ d.mentions, x.name.resolved = false) := by
  obtain ⟨hraw, -, hstem⟩ := read_asRead hread
  obtain ⟨evs, hrun⟩ := refine_single_iff hid hraw.attached
  obtain ⟨d, hrefines, rfl⟩ := (hrun w₁).1 h
  have hrefined := hrefines.refined hraw
  have hd := draft?_put_self hid d evs
  refine ⟨d, hd, fun k => ?_, ?_⟩
  · exact refineEach_replicate_of_settled hd (hrefined.attached.trans hraw.attached)
      (hrefined.settled hraw) k
  · rw [← hstem]
    exact hrefined.useColons_eq_self_iff hraw

/-- A workspace that holds a draft by itself. -/
def holding (d : Draft) : Workspace := (empty ".def").insert d.file d

/-- The names that the first draft of a workspace mentions, with their marks. -/
def mentioned (w : Workspace) : Option (List (String × Bool)) :=
  (w.draft? 0).map fun d => d.mentions.map fun x => (x.name.text, x.name.resolved)

/-- What is mentioned after one run and after two. -/
def mentionedTwice (d : Draft) : List (Bool × Option (List (String × Bool))) :=
  let first := refine 0 Pass.single (holding d)
  let second := refine 0 Pass.single first.1
  [(first.2.isNone, first.1.mentioned), (second.2.isNone, second.1.mentioned)]

theorem exists_runs_of_mentionedTwice (file text : String)
    (names names' : Option (List (String × Bool)))
    (h : (read file text).toOption.map mentionedTwice = some [(true, names), (true, names')]) :
    ∃ raw w₁ w₂, read file text = .ok raw ∧ refine 0 Pass.single (holding raw) = (w₁, none) ∧
      refine 0 Pass.single w₁ = (w₂, none) ∧ w₁.mentioned = names ∧ w₂.mentioned = names' := by
  obtain ⟨raw, hread, h⟩ := exists_of_map_toOption h
  simp only [mentionedTwice, cons.injEq, Prod.mk.injEq, and_true, Option.isNone_iff_eq_none] at h
  obtain ⟨⟨hnone, rfl⟩, hnone', rfl⟩ := h
  exact ⟨raw, _, _, hread, Prod.ext rfl hnone, Prod.ext rfl hnone', rfl, rfl⟩

theorem refine_single_again_dotted :
    ∃ raw w₁ w₂, Draft.read "/a.b.def" "message M\x7bx:M\x7d" = .ok raw ∧
    refine 0 Pass.single (holding raw) = (w₁, none) ∧ refine 0 Pass.single w₁ = (w₂, none) ∧
    w₁.mentioned = some [("a.b::M", true)] ∧ w₂.mentioned = some [("a::b::M", true)] ∧
    w₂.draft? 0 ≠ w₁.draft? 0 := by
  obtain ⟨raw, w₁, w₂, hread, hrun, hrun', hnames, hnames'⟩ := exists_runs_of_mentionedTwice
    "/a.b.def" "message M\x7bx:M\x7d" (some [("a.b::M", true)]) (some [("a::b::M", true)])
    (by decide +kernel)
  refine ⟨raw, w₁, w₂, hread, hrun, hrun', hnames, hnames', fun heq => ?_⟩
  have hsame : w₂.mentioned = w₁.mentioned := by rw [mentioned, mentioned, heq]
  rw [hnames, hnames'] at hsame
  exact absurd hsame (by decide)

/-- The file is named `a`: the second run leaves what the first has left. -/
theorem refine_single_again_plain :
    ∃ raw w₁ d, Draft.read "/a.def" "message M\x7bx:M y:Q.R\x7d" = .ok raw ∧
    refine 0 Pass.single (holding raw) = (w₁, none) ∧ w₁.draft? 0 = some d ∧
    w₁.mentioned = some [("a::M", true), ("Q::R", false)] ∧
      QualifiedName.IsPlain (Path.stem "/a.def") ∧
    ∀ k, ∃ w', refineEach Pass.single (List.replicate (k + 1) 0) w₁ = (w', none) ∧
      w'.draft? 0 = some d := by
  obtain ⟨raw, w₁, w₂, hread, hrun, -, hnames, -⟩ := exists_runs_of_mentionedTwice
    "/a.def" "message M\x7bx:M y:Q.R\x7d" (some [("a::M", true), ("Q::R", false)])
    (some [("a::M", true), ("Q::R", false)]) (by decide +kernel)
  have hstem : IsPlain (Path.stem "/a.def") := by
    have hword : Path.stem "/a.def" = "a" := by decide +kernel
    rw [hword]
    intro c hc
    simp at hc
    subst hc
    decide
  have hid : (holding raw).draft? 0 = some raw := rfl
  obtain ⟨d, hd, hagain, hself⟩ := refine_single_again hread hid hrun
  rw [hself.2 (Or.inl hstem)] at hagain
  exact ⟨raw, w₁, d, hread, hrun, hd, hnames, hstem, hagain⟩

end Workspace

end MessageSchema
