/-
  The fields of a text.

  Every field that stands in a text comes through to its model, with its name, its
  default and, if that is primitive, its type.
-/
import MessageSchema.Proofs.Appending
import MessageSchema.Proofs.LocalNames

namespace MessageSchema

open List Draft

variable {source : String → Option String} {final : String → Option Draft} {ext : String}
  {lib : Library}

/-! ## Parts of trees -/

/-- How far down in the declarations of a text a rule is applied.  What has no level of its
    own holds no declaration, field or type. -/
def Rule.level : Rule → Nat
  | file => 0
  | declaration | namespaceBlock => 1
  | messageBlock | enumBlock | optionsBlock | compoundBlock => 2
  | field => 3
  | type | mapType => 4
  | elementType => 5
  | inlineEnum | inlineOptions => 6
  | _ => 7

theorem Rule.level_le_of_mem {r q : Rule} (hq : q ∈ seqRules r.body) : r.level ≤ q.level := by
  have hall : (seqRules r.body).all (fun q => r.level ≤ q.level) = true := by
    cases r <;> decide
  simpa using all_eq_true.1 hall q hq

namespace Tree

variable {q : Rule} {d : Tree} {cs : List Tree} {t : Tree}

theorem exists_of_mem_partsOfAll (h : d ∈ partsOfAll q cs) : ∃ c ∈ cs, d ∈ c.parts q := by
  induction cs with
  | nil => cases h
  | cons t ts ih =>
    rw [partsOfAll, mem_append] at h
    rcases h with h | h
    · exact ⟨t, mem_cons_self, h⟩
    · obtain ⟨c, hc, hd⟩ := ih h
      exact ⟨c, mem_cons_of_mem _ hc, hd⟩

theorem eq_or_exists_of_mem_parts {r : Rule} (h : d ∈ (node r cs).parts q) :
    (r = q ∧ d = node r cs) ∨ ∃ c ∈ cs, d ∈ c.parts q := by
  rw [parts, mem_append] at h
  rcases h with h | h
  · split at h
    · next hrq => exact .inl ⟨hrq, mem_singleton.1 h⟩
    · cases h
  · exact .inr (exists_of_mem_partsOfAll h)

variable {P : Token → Prop} {r : Rule}

theorem Valid.of_mem_parts (h : t.Valid P) (hd : d ∈ t.parts q) : d.Valid P := by
  induction h with
  | leaf _ => cases hd
  | @node r cs hderives hcs ih =>
    rcases eq_or_exists_of_mem_parts hd with ⟨-, rfl⟩ | ⟨c, hc, hd⟩
    · exact .node hderives hcs
    · exact ih c hc hd

theorem Valid.exists_node (h : t.Valid P) (hd : d ∈ t.parts q) : ∃ cs, d = .node q cs := by
  induction h with
  | leaf _ => cases hd
  | @node r cs _ _ ih =>
    rcases eq_or_exists_of_mem_parts hd with ⟨rfl, rfl⟩ | ⟨c, hc, hd⟩
    · exact ⟨cs, rfl⟩
    · exact ih c hc hd

theorem Valid.level_le_of_mem_parts (h : t.Valid P) (hd : d ∈ t.parts q) :
    ∀ r cs, t = .node r cs → r.level ≤ q.level := by
  induction h with
  | leaf _ => cases hd
  | @node r cs hcs _ ih =>
    rintro _ _ ⟨⟩
    rcases eq_or_exists_of_mem_parts hd with ⟨rfl, -⟩ | ⟨c, hc, hd⟩
    · exact le_refl _
    · cases c with
      | leaf _ => cases hd
      | node r' ds =>
        exact (Rule.level_le_of_mem (hcs.mem_seqRules hc)).trans (ih _ hc hd r' ds rfl)

/-- **What a part of a tree is part of**: it is the whole tree, or part of a child that may
    stand above it. -/
theorem Valid.parts_cases (h : (Tree.node r cs).Valid P) (hd : d ∈ (Tree.node r cs).parts q) :
    (r = q ∧ d = .node r cs) ∨
      ∃ r' ∈ seqRules r.body, r'.level ≤ q.level ∧ ∃ ds, .node r' ds ∈ cs ∧
        d ∈ (Tree.node r' ds).parts q := by
  refine (eq_or_exists_of_mem_parts hd).imp_right ?_
  rintro ⟨c, hc, hd⟩
  cases c with
  | leaf _ => cases hd
  | node r' ds =>
    exact ⟨r', h.derives.mem_seqRules hc, (h.child hc).level_le_of_mem_parts hd _ _ rfl, ds, hc, hd⟩

theorem Valid.eq_of_mem_parts (h : (Tree.node r cs).Valid P) (hd : d ∈ (Tree.node r cs).parts q)
    (hr : ∀ r' ∈ seqRules r.body, q.level < r'.level) : r = q ∧ d = .node r cs := by
  refine (h.parts_cases hd).resolve_right ?_
  rintro ⟨r', hr', hle, -⟩
  exact absurd (hr r' hr') (not_lt.2 hle)

/-- **A rule that stands between**: if the only way from above level `k` to `q` leads through
    `outer`, every part that applies `q` is part of one that applies `outer`. -/
theorem Valid.exists_outer (outer : Rule) {k : Nat} (hk : k ≤ q.level)
    (hstep : ∀ r : Rule, r.level < k → r ≠ outer → ∀ r' ∈ seqRules r.body, r'.level ≤
      q.level → r'.level < k)
    (h : t.Valid P) (hd : d ∈ t.parts q) (ht : ∀ r cs, t = .node r cs → r.level < k) :
    ∃ cs, .node outer cs ∈ t.parts outer ∧ d ∈ (Tree.node outer cs).parts q := by
  induction h with
  | leaf _ => cases hd
  | @node r cs hderives hcs ih =>
    have hr := ht r cs rfl
    by_cases houter : r = outer
    · subst houter
      exact ⟨cs, mem_parts_self (by simp [isNode]), hd⟩
    · rcases (Valid.node hderives hcs).parts_cases hd with ⟨rfl, -⟩ | ⟨r', hr', hle, ds, hds, hd⟩
      · exact absurd hk (not_le.2 hr)
      · have hlt := hstep r hr houter r' hr' hle
        obtain ⟨es, hes, hd⟩ := ih _ hds hd (by rintro _ _ ⟨⟩; exact hlt)
        exact ⟨es, mem_parts_of_mem_children hds hes, hd⟩

theorem Valid.mem_all_field (h : (Tree.node .messageBlock cs).Valid P)
    (hd : d ∈ (Tree.node .messageBlock cs).parts .field) :
    d ∈ (Tree.node .messageBlock cs).all .field := by
  rcases h.parts_cases hd with ⟨heq, -⟩ | ⟨r', hr', hle, ds, hds, hd⟩
  · cases heq
  · have hfield : ∀ r ∈ seqRules Rule.messageBlock.body, r.level ≤ Rule.field.level →
      r = .field := by decide
    obtain rfl := hfield r' hr' hle
    obtain ⟨-, rfl⟩ := (h.child hds).eq_of_mem_parts hd (by decide)
    exact mem_filter.2 ⟨hds, by simp [isNode]⟩

end Tree

namespace Draft

variable {raw : Draft}

/-- A scope has the messages, enumerations and sets of flags of another one. -/
structure Scope.Within (s t : Scope) : Prop where
  messages : s.messages ⊆ t.messages
  enums : s.enums ⊆ t.enums
  options : s.options ⊆ t.options

namespace Scope.Within

theorem refl (s : Scope) : s.Within s := ⟨Subset.refl _, Subset.refl _, Subset.refl _⟩

theorem trans {s t u : Scope} (h : s.Within t) (h' : t.Within u) : s.Within u :=
  ⟨Subset.trans h.messages h'.messages, Subset.trans h.enums h'.enums,
    Subset.trans h.options h'.options⟩

theorem append_left (s t : Scope) : s.Within (s ++ t) :=
  ⟨subset_append_left _ _, subset_append_left _ _, subset_append_left _ _⟩

theorem append_right (s t : Scope) : t.Within (s ++ t) :=
  ⟨subset_append_right _ _, subset_append_right _ _, subset_append_right _ _⟩

end Scope.Within

namespace Reader

variable {r : Reader} {P : Token → Prop}

/-- A scope has what a tree contributes, namespaces apart. -/
def Places (r : Reader) (t : Tree) (s : Scope) : Prop :=
  ∃ p c, r.contribution p t = .ok c ∧ c.scope.Within s

/-- One of the scopes that are contributed has a property. -/
def Contribution.Has (c : Contribution) (Q : Scope → Prop) : Prop :=
  Q c.scope ∨ ∃ ns ∈ c.arena, Q ns.scope

mutual

variable {b : Rule}

theorem has_contribution (hb : b.level = 2) (p : Place) : ∀ t : Tree, t.Valid P →
    (∀ q cs, t = .node q cs → 1 ≤ q.level) → ∀ {c : Contribution},
    r.contribution p t = .ok c → ∀ d ∈ t.parts b, c.Has (r.Places d)
  | .leaf _, _, _, _, _, _, hd => by cases hd
  | .node q cs, h, hq, c, hc, d, hd => by
    rcases h.parts_cases hd with ⟨rfl, rfl⟩ | ⟨q', hq', hle, ds, hds, hd⟩
    · exact Or.inl ⟨p, c, hc, .refl _⟩
    · -- only what declares something holds blocks
      have hcases : ∀ q : Rule, 1 ≤ q.level → ∀ q' ∈ seqRules q.body, q'.level ≤ 2 →
          q = .declaration ∨ q = .namespaceBlock := by
        intro q
        cases q <;> decide
      have hcs : ∀ t ∈ cs, t.Valid P ∧ ∀ q' ds, t = .node q' ds → 1 ≤ q'.level := by
        refine fun t ht => ⟨h.child ht, ?_⟩
        rintro q' ds rfl
        exact (hq q cs rfl).trans (Rule.level_le_of_mem (h.derives.mem_seqRules ht))
      have hmem := Tree.mem_partsOfAll hds hd
      rcases hcases q (hq q cs rfl) q' hq' (hb ▸ hle) with rfl | rfl
      · rw [contribution] at hc
        exact has_contributions hb p cs hcs hc d hmem
      · rw [contribution] at hc
        obtain ⟨inner, hinner, hc⟩ := bind_eq_ok hc
        cases hc
        rcases has_contributions hb _ cs hcs hinner d hmem with hin | ⟨ns, hns, hin⟩
        · exact .inr ⟨_, mem_cons_self, hin⟩
        · exact .inr ⟨ns, mem_cons_of_mem _ hns, hin⟩

theorem has_contributions (hb : b.level = 2) (p : Place) : ∀ ts : List Tree,
    (∀ t ∈ ts, t.Valid P ∧ ∀ q cs, t = .node q cs → 1 ≤ q.level) → ∀ {c : Contribution},
    r.contributions p ts = .ok c → ∀ d ∈ Tree.partsOfAll b ts, c.Has (r.Places d)
  | [], _, _, _, _, hd => by cases hd
  | t :: ts, h, c, hc, d, hd => by
    obtain ⟨⟨ht, hnode⟩, hts⟩ := forall_mem_cons.1 h
    rw [contributions] at hc
    obtain ⟨one, hone, hc⟩ := bind_eq_ok hc
    obtain ⟨rest, hrest, hc⟩ := bind_eq_ok hc
    cases hc
    rw [Tree.partsOfAll, mem_append] at hd
    rcases hd with hd | hd
    · rcases has_contribution hb p t ht hnode hone d hd with ⟨p', c', hc', hin⟩ | ⟨ns, hns, hin⟩
      · exact .inl ⟨p', c', hc', hin.trans (.append_left _ _)⟩
      · exact .inr ⟨ns, mem_append_left _ hns, hin⟩
    · rcases has_contributions hb _ ts hts hrest d hd with ⟨p', c', hc', hin⟩ | ⟨ns, hns, hin⟩
      · exact .inl ⟨p', c', hc', hin.trans (.append_right _ _)⟩
      · exact .inr ⟨ns, mem_append_right _ hns, hin⟩

end

end Reader

/-- One of the scopes of a file has a property. -/
def HasScope (d : Draft) (Q : Scope → Prop) : Prop := Q d.top ∨ ∃ ns ∈ d.arena, Q ns.scope

theorem HasScope.imp {d : Draft} {Q Q' : Scope → Prop} (h : d.HasScope Q) (himp : ∀ s, Q s → Q' s) :
    d.HasScope Q' := by
  rcases h with h | ⟨ns, hns, h⟩
  · exact .inl (himp _ h)
  · exact .inr ⟨ns, hns, himp _ h⟩

/-- A message is declared in a draft, in a namespace or outside. -/
def HasMessage (d : Draft) (m : Message) : Prop :=
  m ∈ d.top.messages ∨ ∃ ns ∈ d.arena, m ∈ ns.scope.messages

section
variable {file text stem : String} {s : Source} (hs : Source.read file text = .ok s) {raw : Draft}
  (h : ofSource stem s = .ok raw) {t : Tree}
include hs h

/-- **A declaration that stands in a text is read** into one of its scopes. -/
theorem hasScope_of_mem_parts {b : Rule} (hb : b.level = 2) (ht : t ∈ s.tree.parts b) :
    raw.HasScope ((Reader.ofSource s).Places t) := by
  obtain ⟨-, ⟨cs, htree, -⟩, -⟩ := Source.read_eq_ok_iff.1 hs
  have hvalid := Source.read_valid hs
  obtain ⟨all, hall, rfl⟩ := ofSource_eq_ok_iff.1 h
  rw [htree] at hvalid hall ht
  rcases Tree.eq_or_exists_of_mem_parts ht with ⟨rfl, -⟩ | ⟨c, hc, ht⟩
  · cases hb
  · refine Reader.has_contributions hb _ cs (fun c hc => ⟨hvalid.child hc, ?_⟩) hall t
      (Tree.mem_partsOfAll hc ht)
    rintro q ds rfl
    have hrules : ∀ q ∈ seqRules Rule.file.body, 1 ≤ q.level := by decide
    exact hrules q (hvalid.derives.mem_seqRules hc)

/-- **A field that stands in a text is read** as a field of one of its messages. -/
theorem exists_field_of_mem_parts (ht : t ∈ s.tree.parts .field) :
    ∃ m, raw.HasMessage m ∧ ∃ f ∈ m.fields, ∃ home, (Reader.ofSource s).field home t = .ok f := by
  obtain ⟨-, ⟨cs, htree, -⟩, -⟩ := Source.read_eq_ok_iff.1 hs
  have hvalid := Source.read_valid hs
  -- fields stand in messages only
  obtain ⟨ds, hds, ht⟩ := hvalid.exists_outer .messageBlock (k := 3) (le_refl _)
    (by intro r; cases r <;> decide) ht (by rw [htree]; rintro _ _ ⟨⟩; decide)
  have hfield := (hvalid.of_mem_parts hds).mem_all_field ht
  have hplaced : ∀ s', (Reader.ofSource s).Places (.node .messageBlock ds) s' → ∃ m ∈ s'.messages,
      ∃ f ∈ m.fields, ∃ home, (Reader.ofSource s).field home t = .ok f := by
    rintro s' ⟨p, c, hc, hin⟩
    rw [Reader.contribution] at hc
    obtain ⟨m, hm, hc⟩ := bind_eq_ok hc
    cases hc
    obtain ⟨fields, hfields, hm⟩ := bind_eq_ok hm
    cases hm
    obtain ⟨f, hf, hread⟩ := exists_right_of_mem (forall₂_of_mapM hfields) hfield
    exact ⟨_, hin.messages mem_cons_self, f, hf, p.home, hread⟩
  rcases (hasScope_of_mem_parts hs h rfl hds).imp hplaced with ⟨m, hm, hread⟩ | ⟨ns,
    hns, m, hm, hread⟩
  · exact ⟨m, .inl hm, hread⟩
  · exact ⟨m, .inr ⟨ns, hns, hm⟩, hread⟩

end

/-! ## Fields in drafts -/

variable {m : Message} {imports : List (String × Draft)} {d : Draft}

/-- **Scopes stay in a file whose declarations are put into its file-level namespace**, those
    outside all namespaces being moved there. -/
theorem HasScope.exists_wrap {Q : Scope → Prop} (h : raw.HasScope Q)
    (hQ : ∀ s, Q s → s.declaresNothing = false) :
    ∃ (k : Nat) (ns : Namespace), raw.wrap.arena[k]? = some ns ∧
      ∃ s, Q s ∧ (ns.scope = s ∨ ns.scope = s.moveTo raw.stem) := by
  suffices h : ∃ ns ∈ raw.wrap.arena, ∃ s, Q s ∧ (ns.scope = s ∨ ns.scope = s.moveTo raw.stem) by
    obtain ⟨ns, hns, hs⟩ := h
    obtain ⟨k, hk⟩ := mem_iff_getElem?.1 hns
    exact ⟨k, ns, hk, hs⟩
  unfold wrap
  split
  · next hwrapped =>
    obtain ⟨ns, hns, hs⟩ := h.resolve_left fun htop => by
      rw [isWrapped, hQ _ htop] at hwrapped
      cases hwrapped
    exact ⟨ns, hns, _, hs, .inl rfl⟩
  · rcases h with htop | ⟨ns, hns, hs⟩
    · exact ⟨_, mem_append_right _ mem_cons_self, _, htop, .inr rfl⟩
    · -- the namespaces of the file keep their declarations
      have hscope := mem_map_of_mem (f := fun ns : Namespace => ns.scope) hns
      rw [← map_adopt (fun _ _ => rfl) raw.arena.length raw.top.children] at hscope
      obtain ⟨ns', hns', heq⟩ := mem_map.1 hscope
      exact ⟨ns', mem_append_left _ hns', _, hs, .inl heq⟩

theorem HasMessage.exists_wrap (h : raw.HasMessage m) :
    ∃ (k : Nat) (ns : Namespace), raw.wrap.arena[k]? = some ns ∧ ∃ m' ∈ ns.scope.messages,
      m'.name = m.name ∧ m'.fields = m.fields := by
  have hdeclares : ∀ s : Scope, m ∈ s.messages → s.declaresNothing = false := by
    intro s hm
    cases hs : s.messages with
    | nil => rw [hs] at hm; cases hm
    | cons => rw [Scope.declaresNothing, hs]; rfl
  obtain ⟨k, ns, hk, s, hm, hs | hs⟩ :=
    HasScope.exists_wrap (Q := fun s => m ∈ s.messages) h hdeclares
  · exact ⟨k, ns, hk, m, hs ▸ hm, rfl, rfl⟩
  · refine ⟨k, ns, hk, { m with origin := m.origin.moveTo raw.stem }, ?_, rfl, rfl⟩
    rw [hs]
    exact mem_map_of_mem hm

/-- A field after the passes: names have been looked up, and an inline type is referred to by
    a name. -/
structure Field.Passed (f f' : Field) : Prop where
  name : f'.name = f.name
  default : f'.default = f.default
  type : ∃ rename n, f'.type = (f.type.mapNames rename).replaceInline n

theorem Message.passed_fields (m : Message) (rename : TypeName → TypeName) (home : Option String) :
    Forall₂ Field.Passed m.fields ((m.mapNames rename).lifted home).fields := by
  simp only [Message.lifted, Message.mapNames, map_map, forall₂_map_right_iff]
  exact forall₂_same.2 fun f _ => ⟨rfl, rfl, _, _, rfl⟩

/-- **The passes keep messages** and their fields. -/
theorem Refined.exists_passed (h : Refined imports raw d) (hraw : raw.AsRead)
    (hm : raw.HasMessage m) :
    ∃ v ∈ d.walk, ∃ m' ∈ v.site.ns.scope.messages, m'.name = m.name ∧
      Forall₂ Field.Passed m.fields m'.fields := by
  obtain ⟨k, ns, hns, m₁, hm₁, hname, hfields⟩ := hm.exists_wrap
  obtain ⟨ns', enclosing, hns', hrewritten⟩ := h.rewritten hraw hns
  obtain ⟨home, hmessages⟩ := hrewritten.messages
  obtain ⟨v, hv, rfl, rfl⟩ := (h.covered hraw).exists_visit hns'
  have hpassed :=
    m₁.passed_fields
    (fun n => (raw.wrap.useColons.surroundings imports).resolve enclosing n.useColons) home
  rw [hfields] at hpassed
  refine ⟨v, hv, _, ?_, ?_, hpassed⟩
  · rw [hmessages]
    exact mem_map.2 ⟨m₁, hm₁, rfl⟩
  · exact hname

/-- **Every message after the passes is one that was read**, with the same fields. -/
theorem Refined.exists_message (h : Refined imports raw d) (hraw : raw.AsRead) {v : Visit}
    (hv : v ∈ d.walk) {m' : Message} (hm' : m' ∈ v.site.ns.scope.messages) :
    ∃ m, raw.HasMessage m ∧ m'.name = m.name ∧ Forall₂ Field.Passed m.fields m'.fields := by
  have hget := getElem?_site_of_mem_walk hv
  have hlength : v.site.index < raw.wrap.arena.length := by
    have hlt := (List.getElem?_eq_some_iff.1 hget).1
    rwa [length_eq_of_outline_eq h.outline, useColons, length_map] at hlt
  obtain ⟨ns', enclosing, hns', hrewritten⟩ := h.rewritten hraw (getElem?_eq_getElem hlength)
  cases hget.symm.trans hns'
  obtain ⟨home, hmessages⟩ := hrewritten.messages
  rw [hmessages] at hm'
  obtain ⟨m₁, hm₁, rfl⟩ := mem_map.1 hm'
  have hfields :=
    m₁.passed_fields
    (fun n => (raw.wrap.useColons.surroundings imports).resolve enclosing n.useColons) home
  rcases mem_arena_wrap (getElem_mem hlength) with ⟨ns₀, hns₀, -, hscope⟩ | ⟨-, hscope⟩
  · rw [hscope] at hm₁
    exact ⟨m₁, .inr ⟨ns₀, hns₀, hm₁⟩, rfl, hfields⟩
  · rw [hscope] at hm₁
    obtain ⟨m, hm, rfl⟩ := mem_map.1 hm₁
    exact ⟨m, .inl hm, rfl, hfields⟩

end Draft

/-! ## Fields in models -/

namespace Model

/-- A field of a model is what a binder makes of a field of a draft: its type is bound, none
    being written in place any more, and its default is read. -/
structure Binder.Reads (b : Binder) (enums : Table Enumeration) (f : Draft.Field) (F : Field) :
    Prop where
  name : F.name = f.name
  bound : f.type.Bound b.Puts (fun _ => False) F.type
  default : f.default.map (fun text => DefaultValue.read (b.valuesOf enums) text F.type) =
    F.default.map .ok

theorem Binder.reads_field {b : Binder} {enums : Table Enumeration} {owner : String}
    {f : Draft.Field} (h : (b.field enums owner f).2 = []) :
    ∃ F, b.field enums owner f = (some F, []) ∧ b.Reads enums f F := by
  obtain ⟨F, hF, hname, hbound⟩ := bound_field (Q := fun _ => False) h
  obtain ⟨T, default, -, hfield, hdefault⟩ := field_eq h
  rw [hfield] at hF
  cases hF
  exact ⟨_, hfield, hname, hbound, hdefault⟩

/-- **The messages of a model are those of its draft**, with all their fields. -/
theorem Models.forall₂_messages {d : Draft} {m : Model} (h : Models lib d m) {v : Draft.Visit}
    (hv : v ∈ d.walk) : Forall₂ (fun x M => M.name = x.name ∧
      Forall₂ ((binderOf lib d m.imports).Reads (enumsOf lib d m.imports)) x.fields M.fields)
      v.site.ns.scope.messages (namespaceAt lib d m.imports v).messages := by
  refine forall₂_imp_of_mem (matches_namespaceAt h.faultless h.finished hv).messages
    fun x hx M hfind => ?_
  have hdeclared :=
    find?_declared h.faultless h.finished hv (mem_declarationsOf.2 (.inl ⟨x, hx, rfl⟩))
  obtain ⟨hbuilt, hnil⟩ := Binder.find?_messages h.faultless.messages hdeclared
  cases hbuilt.symm.trans hfind
  obtain ⟨-, hfields⟩ := append_eq_nil_iff.1 hnil
  exact ⟨rfl, Binder.forall₂_fields Binder.reads_field hfields⟩

end Model

/-- A field of a message that is read from a file. -/
def Written (source : String → Option String) (file message : String) (f : Field) : Prop :=
  ∃ raw x, readFrom source file = some raw ∧ raw.HasMessage x ∧ x.name = message ∧ f ∈ x.fields

variable {file : String} {m : Model}

/-- **Every field of a model is written in its text.** -/
theorem System.exists_written (h : System ext source final lib) (hm : lib.find? file = some m) :
    ∃ d, Model.Models lib d m ∧ ∀ ns ∈ m.namespaces, ∀ M ∈ ns.messages, ∀ F ∈ M.fields,
      ∃ f f', Written source file M.name f ∧ f.Passed f' ∧
        (Model.binderOf lib d m.imports).Reads (Model.enumsOf lib d m.imports) f' F := by
  obtain ⟨raw, d, -, hset, hmodels, -⟩ := h.settles hm
  refine ⟨d, hmodels, fun ns hns M hM F hF => ?_⟩
  obtain ⟨v, hv, rfl⟩ := hmodels.mem_namespaces.1 hns
  obtain ⟨x', hx', hname, hfields⟩ := exists_left_of_mem (hmodels.forall₂_messages hv) hM
  obtain ⟨x, hx, hxname, hpassed⟩ := hset.refined.exists_message hset.asRead hv hx'
  obtain ⟨f', hf', hreads⟩ := exists_left_of_mem hfields hF
  obtain ⟨f, hf, hpass⟩ := exists_left_of_mem hpassed hf'
  exact ⟨f, f', ⟨raw, x, hset.read, hx, (hname.trans hxname).symm, hf⟩, hpass, hreads⟩

/-- A field of a primitive type in a model. -/
structure Draft.Field.BecomesPrimitive (f : Draft.Field) (p : Primitive) (F : Model.Field) :
    Prop where
  name : F.name = f.name
  type : F.type = .primitive p
  default : ∀ text, f.default = some text →
    ∃ value, F.default = some value ∧ DefaultValue.readPrimitive text p = .ok value

/-- **A message that was read comes through**, and so do its fields with primitive types. -/
theorem System.exists_message (h : System ext source final lib) (hm : lib.find? file = some m)
    {raw : Draft} (hraw : Draft.readFrom source file = some raw) {x : Draft.Message}
    (hx : raw.HasMessage x) :
    ∃ ns ∈ m.namespaces, ∃ M ∈ ns.messages, M.name = x.name ∧ ∀ f ∈ x.fields, ∀ p,
      f.type = .element (.scalar (.primitive p)) → ∃ F ∈ M.fields, f.BecomesPrimitive p F := by
  obtain ⟨raw', d, -, hset, hmodels, -⟩ := h.settles hm
  cases hset.read.symm.trans hraw
  obtain ⟨v, hv, x', hx', hname, hpass⟩ := hset.refined.exists_passed hset.asRead hx
  obtain ⟨M, hM, hMname, hfields⟩ := exists_right_of_mem (hmodels.forall₂_messages hv) hx'
  refine ⟨_, hmodels.mem_namespaces.2 ⟨v, hv, rfl⟩, M, hM, hMname.trans hname, fun f hf p hp => ?_⟩
  obtain ⟨f', hf', hpassed⟩ := exists_right_of_mem hpass hf
  obtain ⟨F, hF, hname, hbound, hdefault⟩ := exists_right_of_mem hfields hf'
  have htype : F.type = .primitive p := by
    obtain ⟨rename, n, heq⟩ := hpassed.type
    rw [heq, hp] at hbound
    generalize F.type = T at hbound
    cases hbound with
    | element helement =>
      cases helement with
      | scalar hscalar =>
        cases hscalar with
        | primitive => rfl
  refine ⟨F, hF, hname.trans hpassed.name, htype, fun text htext => ?_⟩
  rw [hpassed.default.trans htext, htype] at hdefault
  obtain ⟨value, hvalue, hread⟩ := Option.map_eq_some_iff.1 hdefault.symm
  exact ⟨value, hvalue, hread.symm⟩

/-- **Every field that stands in a text of a system is a field of its model**, and if its
    type is primitive, its default is read as one of that type. -/
theorem System.exists_field_of_mem_parts (h : System ext source final lib)
    (hm : lib.find? file = some m) :
    ∃ text s, source file = some text ∧ Source.read file text = .ok s ∧ ∀ t ∈ s.tree.parts .field,
      ∃ home f, (Reader.ofSource s).field home t = .ok f ∧
        ∀ p, f.type = .element (.scalar (.primitive p)) →
          ∃ ns ∈ m.namespaces, ∃ M ∈ ns.messages, ∃ F ∈ M.fields, f.BecomesPrimitive p F := by
  obtain ⟨raw, d, -, hset, -, -⟩ := h.settles hm
  obtain ⟨text, htext, hread⟩ := readFrom_eq_some_iff.1 hset.read
  obtain ⟨s, hs, hraw⟩ := bind_eq_ok hread
  refine ⟨text, s, htext, hs, fun t ht => ?_⟩
  obtain ⟨x, hx, f, hf, home, hfield⟩ := Draft.exists_field_of_mem_parts hs hraw ht
  refine ⟨home, f, hfield, fun p hp => ?_⟩
  obtain ⟨ns, hns, M, hM, -, hfields⟩ := h.exists_message hm hset.read hx
  exact ⟨ns, hns, M, hM, hfields f hf p hp⟩

end MessageSchema
