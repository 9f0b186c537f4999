/-
  Lists of values in texts.

  Every list of values that stands in a text, in a declaration or in place of a field type,
  is the list of an enumeration that its draft declares after the passes.
-/
import MessageSchema.Proofs.FieldTrees
import MessageSchema.Proofs.Lineages

namespace MessageSchema

open List

/-- The rules whose trees hold a list of values. -/
def Rule.listsValues : Rule → Bool
  | enumBlock | optionsBlock | inlineEnum | inlineOptions => true
  | _ => false

namespace Draft

/-- What is written for an enumeration: its name, unless it stands in place of a type, its
    kind, whether it has a parent, and its values. -/
structure Spelling where
  name : Option String
  kind : EnumKind
  inherits : Bool
  raws : List RawValue

/-- An enumeration is one that is spelled, its values being numbered for the first time. -/
structure Enumeration.Spelled (e : Enumeration) (x : Spelling) : Prop where
  name : ∀ n ∈ x.name, e.name = n
  kind : e.kind = x.kind
  parent : e.parent.isSome = x.inherits
  values : ∃ file home, number x.kind file home x.raws = .ok e.values

/-- A scope has what is spelled, as a declaration or in place of a field type. -/
inductive Scope.Spells (s : Scope) (x : Spelling) : Prop
  | declared {e} : e ∈ s.enums ++ s.options → e.Spelled x → Spells s x
  | inline {m f} : m ∈ s.messages → f ∈ m.fields → f.type.inline? = some (x.kind, x.raws) →
    x.name = none → x.inherits = false → Spells s x

/-! ## Reading lists of values -/

namespace Reader

variable {r : Reader} {P : Token → Prop} {cs : List Tree}

/-- The kind of enumeration that a tree with a list of values is read as. -/
def kindOf : Tree → EnumKind
  | .node .optionsBlock _ | .node .inlineOptions _ => .flags
  | t => enumKind t

/-- What a tree with a list of values spells. -/
structure Yields (r : Reader) (t : Tree) (x : Spelling) : Prop where
  name : x.name = (t.find? .name).map Tree.image
  kind : x.kind = kindOf t
  inherits : x.inherits = (t.find? .qualifiedName).isSome
  raws : r.values t = .ok x.raws

variable {q : Rule} {list d : Tree}

theorem find?_eq_none {q' : Rule} (h : (Tree.node q cs).Valid P) (hq : q' ∉ seqRules q.body) :
    (Tree.node q cs).find? q' = none := by
  cases hfind : (Tree.node q cs).find? q' with
  | none => rfl
  | some c =>
    obtain ⟨hc, ds, rfl⟩ := Tree.mem_of_find? hfind
    exact absurd (h.derives.mem_seqRules hc) hq

theorem Yields.inherits_of_flags {t : Tree} {x : Spelling} (hx : r.Yields t x) (h : t.Valid P)
    (hkind : x.kind = .flags) : x.inherits = false := by
  rw [hx.kind, kindOf.eq_def] at hkind
  rw [hx.inherits]
  split at hkind
  · rw [find?_eq_none h (by decide)]
    rfl
  · rw [find?_eq_none h (by decide)]
    rfl
  · rw [enumKind] at hkind
    split at hkind <;> cases hkind

theorem find?_qualifiedName_of_values (h : (Tree.node .inlineEnum cs).Valid P)
    (hlist : (Tree.node .inlineEnum cs).find? .valueList = some list) :
    (Tree.node .inlineEnum cs).find? .qualifiedName = none := by
  obtain ⟨a, rest, rfl, -, hrest⟩ := Derives.of_oneOf h.derives
  obtain ⟨q, hq, ds, rest, rfl, hnil⟩ := Derives.of_oneRuleOf hrest
  obtain rfl := hnil.of_nil
  rcases mem_cons.1 hq with rfl | hq
  · rfl
  · obtain rfl := mem_singleton.1 hq
    cases hlist

/-- **A list of values in an element type** is the whole of it. -/
theorem inline_of_element (h : (Tree.node .elementType cs).Valid P) (hq : q.level = 6)
    (hd : d ∈ (Tree.node .elementType cs).parts q) (hlist : d.find? .valueList = some list)
    {e : ElementType} (he : r.element (.node .elementType cs) = .ok e) :
    ∃ raws, e = .inline (kindOf d) raws ∧ r.values d = .ok raws ∧
      d.find? .qualifiedName = none := by
  rcases h.parts_cases hd with ⟨rfl, -⟩ | ⟨q', hq', hle, ds, hds, hd⟩
  · cases hq
  -- the only rules at this level are those of inline types, and they hold no others
  · have hinline : ∀ q ∈ seqRules Rule.elementType.body, q.level ≤ 6 →
        (q = .inlineEnum ∨ q = .inlineOptions) ∧ ∀ q' ∈ seqRules q.body, 6 < q'.level := by decide
    obtain ⟨hcases, hbelow⟩ := hinline q' hq' (hq ▸ hle)
    have hvalid := h.child hds
    obtain ⟨rfl, rfl⟩ := hvalid.eq_of_mem_parts hd (hq ▸ hbelow)
    have hcs : cs = [.node q' ds] := by
      obtain ⟨a, ha, hcs⟩ := h.derives.of_choice
      simp only [mem_cons, not_mem_nil, or_false] at ha
      rcases ha with rfl | rfl | rfl
      · obtain ⟨es, rest, rfl, hrest⟩ := Derives.of_rule hcs
        obtain rfl := hrest.of_nil
        rw [mem_singleton.1 hds]
      · obtain ⟨es, rest, rfl, hrest⟩ := Derives.of_rule hcs
        obtain rfl := hrest.of_nil
        rw [mem_singleton.1 hds]
      · have hmem := hcs.mem_seqRules hds
        rcases hcases with rfl | rfl <;> exact absurd hmem (by decide)
    subst hcs
    rcases hcases with rfl | rfl
    · have hnone := find?_qualifiedName_of_values hvalid hlist
      rw [element, hnone] at he
      obtain ⟨raws, hraws, he⟩ := bind_eq_ok he
      cases he
      exact ⟨raws, rfl, hraws, hnone⟩
    · rw [element] at he
      obtain ⟨raws, hraws, he⟩ := bind_eq_ok he
      cases he
      exact ⟨raws, rfl, hraws, find?_eq_none hvalid (by decide)⟩

/-- **A list of values in a type** is its inline type. -/
theorem inline_of_fieldType (h : (Tree.node .type cs).Valid P) (hq : q.level = 6)
    (hd : d ∈ (Tree.node .type cs).parts q) (hlist : d.find? .valueList = some list) {f : FieldType}
    (hf : r.fieldType (.node .type cs) = .ok f) :
    ∃ raws, f.inline? = some (kindOf d, raws) ∧ r.values d = .ok raws ∧
      d.find? .qualifiedName = none := by
  -- the value of a map is a type two levels further down
  induction hs : sizeOf cs using Nat.strongRecOn generalizing cs f with
  | _ size ih =>
    rcases h.parts_cases hd with ⟨rfl, -⟩ | ⟨q', hq', -, ds, hds, hinner⟩
    · cases hq
    obtain ⟨a, ha, hderives⟩ := h.derives.of_choice
    simp only [mem_cons, not_mem_nil, or_false] at ha
    rcases ha with rfl | rfl
    · obtain ⟨es, rest, rfl, hrest⟩ := Derives.of_rule hderives
      obtain rfl := hrest.of_nil
      cases mem_singleton.1 hds
      have hmap := h.child (c := .node .mapType ds) mem_cons_self
      rcases hmap.parts_cases hinner with ⟨rfl, -⟩ | ⟨q', hq', hle, es, hes, hvalue⟩
      · cases hq
      · have htype : ∀ q ∈ seqRules Rule.mapType.body, q.level ≤ 6 → q = .type := by decide
        obtain rfl := htype q' hq' (hq ▸ hle)
        obtain ⟨t₁, t₂, ks, t₃, vs, t₄, rfl⟩ := hmap.derives.of_mapType
        obtain rfl : es = vs := by simpa using hes
        rw [fieldType] at hf
        obtain ⟨value, hread, hf⟩ := bind_eq_ok hf
        cases hf
        obtain ⟨raws, hinline, hraws⟩ :=
          ih (sizeOf es) (by simp at hs; omega) (hmap.child (by simp [Tree.children]))
            hvalue hread rfl
        exact ⟨raws, hinline, hraws⟩
    · obtain ⟨es, rest, rfl, hrest⟩ := Derives.of_rule hderives
      have hes : Tree.node q' ds = .node .elementType es := by
        refine (mem_cons.1 hds).resolve_right fun hmem => ?_
        exact not_mem_nil (hrest.mem_seqRules hmem)
      cases hes
      have helement := h.child (c := .node .elementType ds) mem_cons_self
      obtain ⟨e, he, hf⟩ := exists_element_of_fieldType hf
      obtain ⟨raws, rfl, hraws⟩ := inline_of_element helement hq hinner hlist he
      rcases hf with rfl | rfl
      · exact ⟨raws, rfl, hraws⟩
      · exact ⟨raws, rfl, hraws⟩

theorem exists_leaves_of_many {g : Guard} {k : Kind} {is : List Item} {ts : List Tree}
    (h : Derives (.many g [.token k] :: is) ts) :
    ∃ ls rest, ts = ls ++ rest ∧ (∀ c ∈ ls, ∃ t, c = .leaf t) ∧ Derives is rest := by
  induction ts with
  | nil =>
    cases h with
    | stop h => exact ⟨[], [], rfl, by simp, h⟩
    | round h =>
      obtain ⟨_, _, hnil, -⟩ := Derives.of_token h
      cases hnil
  | cons c cs ih =>
    cases h with
    | stop h => exact ⟨[], c :: cs, rfl, by simp, h⟩
    | round h =>
      obtain ⟨t, rest, heq, -, h⟩ := Derives.of_token h
      cases heq
      obtain ⟨ls, rest, rfl, hls, h⟩ := ih h
      exact ⟨.leaf t :: ls, rest, rfl, forall_mem_cons.2 ⟨⟨t, rfl⟩, hls⟩, h⟩

theorem find?_type (h : (Tree.node .field cs).Valid P) {ds : List Tree}
    (hds : .node .type ds ∈ cs) : (Tree.node .field cs).find? .type = some (.node .type ds) := by
  obtain ⟨ls, rest, rfl, hls, h₁⟩ := exists_leaves_of_many h.derives
  obtain ⟨ns, rest, rfl, h₂⟩ := Derives.of_rule h₁
  obtain ⟨t, rest, rfl, -, h₃⟩ := h₂.of_token
  obtain ⟨es, rest, rfl, h₄⟩ := h₃.of_rule
  have hnone : ls.find? (Tree.isNode .type) = none := by
    refine List.find?_eq_none.2 fun c hc => ?_
    obtain ⟨t, rfl⟩ := hls c hc
    simp [Tree.isNode]
  have hes : ds = es := by
    simp only [mem_append, mem_cons, Tree.node.injEq, reduceCtorEq, false_and, false_or,
      true_and] at hds
    rcases hds with hmem | hmem | hmem
    · obtain ⟨t, ht⟩ := hls _ hmem
      cases ht
    · exact hmem
    · exact absurd (h₄.mem_seqRules hmem) (by decide)
  rw [hes, Tree.find?, Tree.children, find?_append, hnone]
  rfl

/-- **A list of values in a field** is its inline type. -/
theorem inline_of_field {home : String} (h : (Tree.node .field cs).Valid P) (hq : q.level = 6)
    (hd : d ∈ (Tree.node .field cs).parts q) (hlist : d.find? .valueList = some list) {f : Field}
    (hf : r.field home (.node .field cs) = .ok f) :
    ∃ raws, f.type.inline? = some (kindOf d, raws) ∧ r.values d = .ok raws ∧
      d.find? .qualifiedName = none := by
  rcases h.parts_cases hd with ⟨rfl, -⟩ | ⟨q', hq', hle, ds, hds, hd⟩
  · cases hq
  · have htype : ∀ q ∈ seqRules Rule.field.body, q.level ≤ 6 → q = .type := by decide
    obtain rfl := htype q' hq' (hq ▸ hle)
    obtain ⟨type, hread, hf⟩ := bind_eq_ok hf
    cases hf
    rw [find?_type h hds] at hread
    exact inline_of_fieldType (h.child hds) hq hd hlist hread

/-- **A block with a list of values** is read as a declaration. -/
theorem spells_of_places (hq : q = .enumBlock ∨ q = .optionsBlock) {s : Scope}
    (h : r.Places (.node q cs) s) : ∃ x, r.Yields (.node q cs) x ∧ s.Spells x := by
  have hread : ∀ {home kind e}, kind = kindOf (.node q cs) → r.enumeration home kind (.node q cs) =
      .ok e → ∃ x, r.Yields (.node q cs) x ∧ e.Spelled x := by
    intro home kind e hkind he
    obtain ⟨raws, hraws, he⟩ := bind_eq_ok he
    obtain ⟨values, hvalues, he⟩ := bind_eq_ok he
    cases he
    have hname : ∀ n ∈ ((Tree.node q cs).find? .name).map Tree.image, nameOf (.node q cs) = n :=
        fun n hn =>
      congrArg (·.getD "") (Option.mem_def.1 hn)
    exact ⟨⟨_, kind, ((Tree.node q cs).find? .qualifiedName).isSome, raws⟩,
      ⟨rfl, hkind, rfl, hraws⟩, ⟨hname, rfl, Option.isSome_map, _, _, hvalues⟩⟩
  obtain ⟨p, c, hc, hin⟩ := h
  rcases hq with rfl | rfl
  · rw [contribution] at hc
    obtain ⟨e, he, hc⟩ := bind_eq_ok hc
    cases hc
    obtain ⟨x, hx, hspelled⟩ := hread rfl he
    exact ⟨x, hx, .declared (mem_append_left _ (hin.enums mem_cons_self)) hspelled⟩
  · rw [contribution] at hc
    obtain ⟨e, he, hc⟩ := bind_eq_ok hc
    cases hc
    obtain ⟨x, hx, hspelled⟩ := hread rfl he
    exact ⟨x, hx, .declared (mem_append_right _ (hin.options mem_cons_self)) hspelled⟩

end Reader

/-- **A list of values that stands in a text is read** into one of the scopes of its draft. -/
theorem hasScope_spells {file text stem : String} {s : Source} (hs : Source.read file text = .ok s)
    {raw : Draft} (h : ofSource stem s = .ok raw) {q : Rule} (hq : q.listsValues = true) {t : Tree}
    (ht : t ∈ s.tree.parts q) {list : Tree} (hlist : t.find? .valueList = some list) :
    raw.HasScope fun scope => ∃ x, (Reader.ofSource s).Yields t x ∧ scope.Spells x := by
  have hvalid := Source.read_valid hs
  obtain ⟨cs, rfl⟩ := hvalid.exists_node ht
  have hcases : ∀ q : Rule, q.listsValues = true →
      (q = .enumBlock ∨ q = .optionsBlock) ∨ q = .inlineEnum ∨ q = .inlineOptions := by
    intro q
    cases q <;> decide
  rcases hcases q hq with hblock | hinline
  · have hlevel : q.level = 2 := by rcases hblock with rfl | rfl <;> rfl
    exact (hasScope_of_mem_parts hs h hlevel ht).imp fun _ => Reader.spells_of_places hblock
  · -- an inline type stands in a field
    have hlevel : q.level = 6 := by rcases hinline with rfl | rfl <;> rfl
    obtain ⟨-, ⟨es, htree, -⟩, -⟩ := Source.read_eq_ok_iff.1 hs
    obtain ⟨ds, hds, hd⟩ := hvalid.exists_outer .field (k := 4) (by omega)
      (by rw [hlevel]; intro r; cases r <;> decide) ht (by rw [htree]; rintro _ _ ⟨⟩; decide)
    obtain ⟨m, hm, f, hf, home, hread⟩ := exists_field_of_mem_parts hs h hds
    obtain ⟨raws, htype, hraws, hnone⟩ :=
      Reader.inline_of_field (hvalid.of_mem_parts hds) hlevel hd hlist hread
    have hname : (Tree.node q cs).find? .name = none := by
      refine Reader.find?_eq_none (hvalid.of_mem_parts ht) ?_
      rcases hinline with rfl | rfl <;> decide
    refine HasScope.imp (Q := fun scope => m ∈ scope.messages) hm fun scope hm => ?_
    exact ⟨⟨none, Reader.kindOf (.node q cs), false, raws⟩,
      ⟨by rw [hname]; rfl, rfl, by rw [hnone]; rfl, hraws⟩, .inline hm hf htype rfl rfl⟩

/-! ## Lists of values after the passes -/

namespace Scope.Spells

variable {s : Scope} {x : Spelling}

theorem declaresNothing (h : s.Spells x) : s.declaresNothing = false := by
  cases hnothing : s.declaresNothing with
  | false => rfl
  | true =>
    simp only [Scope.declaresNothing, Bool.and_eq_true, List.isEmpty_iff] at hnothing
    obtain ⟨⟨⟨hmessages, henums⟩, hoptions⟩, -⟩ := hnothing
    cases h with
    | declared he => rw [henums, hoptions] at he; cases he
    | inline hm => rw [hmessages] at hm; cases hm

theorem moveTo (h : s.Spells x) (home : String) : (s.moveTo home).Spells x := by
  cases h with
  | @declared e he hspelled =>
    refine .declared (e := { e with origin := e.origin.moveTo home }) ?_
      ⟨hspelled.name, hspelled.kind, hspelled.parent, hspelled.values⟩
    rw [Scope.moveTo, ← map_append]
    exact mem_map_of_mem he
  | inline hm hf htype hname hinherits =>
    exact .inline (mem_map_of_mem hm) hf htype hname hinherits

theorem mapNames (h : s.Spells x) (g : TypeName → TypeName) : (s.mapNames g).Spells x := by
  cases h with
  | declared he hspelled =>
    rcases mem_append.1 he with he | he
    · refine .declared (mem_append_left _ (mem_map_of_mem he))
        ⟨hspelled.name, hspelled.kind, ?_, hspelled.values⟩
      rw [← hspelled.parent]
      exact Option.isSome_map
    · exact .declared (mem_append_right _ he) hspelled
  | inline hm hf htype hname hinherits =>
    refine .inline (mem_map_of_mem hm) (mem_map_of_mem hf) ?_ hname hinherits
    rw [FieldType.inline?_mapNames]
    exact htype

/-- **After promotion all lists are declared.** -/
theorem exists_declared (h : s.Spells x) {home : Option String} {s' : Scope}
    (hs : s.promote home = (s', none)) :
    ∃ e, .enumeration e ∈ Model.declarationsOf s' ∧ e.Spelled x := by
  cases h with
  | @declared e he hspelled =>
    refine ⟨e, mem_declarationsOf.2 ?_, hspelled⟩
    obtain ⟨-, rfl⟩ := Scope.promote_eq_iff.1 hs
    rcases mem_append.1 he with he | he
    · exact .inr (.inl ⟨e, mem_append_left _ he, rfl⟩)
    · exact .inr (.inr (.inl ⟨e, mem_append_left _ he, rfl⟩))
  | inline hm hf htype hname hinherits =>
    obtain ⟨e, he, kind, raws, htype', hdeclaration⟩ := Scope.exists_promoted hs hm hf
      (by rw [← FieldType.isSome_inline?, htype]; rfl)
    cases htype.symm.trans htype'
    obtain ⟨values, hvalues, hdeclaration⟩ := bind_eq_ok hdeclaration
    cases hdeclaration
    exact ⟨_, he, by simp [hname], rfl, hinherits.symm, _, _, hvalues⟩

end Scope.Spells

/-- **The passes keep all lists of values**, and declare each. -/
theorem Refined.exists_spelled {imports : List (String × Draft)} {raw d : Draft}
    (h : Refined imports raw d) (hraw : raw.AsRead) {R : Spelling → Prop}
    (hspells : raw.HasScope fun s => ∃ x, R x ∧ s.Spells x) :
    ∃ x, R x ∧ ∃ v ∈ d.walk, ∃ e, .enumeration e ∈ Model.declarationsOf v.site.ns.scope ∧
      e.Spelled x := by
  obtain ⟨k, ns, hk, s, ⟨x, hx, hs⟩, hscope⟩ :=
    hspells.exists_wrap fun s ⟨x, _, hs⟩ => hs.declaresNothing
  have hns : ns.scope.Spells x := by
    rcases hscope with hscope | hscope
    · rw [hscope]
      exact hs
    · rw [hscope]
      exact hs.moveTo _
  have hget : raw.wrap.useColons.arena[k]? =
      some { ns with scope := ns.scope.mapNames TypeName.useColons } := by
    rw [useColons, getElem?_map, hk, Option.map_some]
  obtain ⟨u, hu, -, huns⟩ := hraw.covered_useColons.exists_visit hget
  obtain ⟨v, hv, -, -, s', hs', hvns⟩ := h.after hu
  have hresolved : (u.resolved (raw.wrap.useColons.surroundings imports)).Spells x := by
    rw [Visit.resolved, huns]
    exact (hns.mapNames _).mapNames _
  obtain ⟨e, he, hspelled⟩ := hresolved.exists_declared hs'
  exact ⟨x, hx, v, hv, e, by rw [hvns]; exact he, hspelled⟩

end Draft

end MessageSchema
