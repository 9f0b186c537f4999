/-
  What drafts look like when they have just been read.
-/
import MessageSchema.Draft.Reading
import MessageSchema.Proofs.Arena
import MessageSchema.Proofs.Faithful
import MessageSchema.Proofs.RelatedLists

namespace MessageSchema

open List Option

variable {ts : List Tree} {is : List Item}

theorem bind_eq_ok {ε α β : Type} {x : Except ε α} {f : α → Except ε β} {b : β}
    (h : (x >>= f) = .ok b) : ∃ a, x = .ok a ∧ f a = .ok b := by
  cases x with
  | error e => cases h
  | ok a => exact ⟨a, rfl, h⟩

theorem toOption_eq_some_iff {ε α : Type} {x : Except ε α} {a : α} :
    x.toOption = some a ↔ x = .ok a := by
  cases x <;> simp [Except.toOption]

theorem exists_of_map_toOption {ε α β : Type} {x : Except ε α} {p : α → β} {b : β}
    (h : x.toOption.map p = some b) : ∃ a, x = .ok a ∧ p a = b := by
  simpa only [map_eq_some_iff, toOption_eq_some_iff] using h

/-- A list that is mapped without a fault is mapped element by element. -/
theorem forall₂_of_mapM {ε α β : Type} {f : α → Except ε β} {xs : List α} {ys : List β}
    (h : xs.mapM f = .ok ys) : Forall₂ (fun x y => f x = .ok y) xs ys := by
  induction xs generalizing ys with
  | nil =>
    rw [mapM_nil] at h
    cases h
    exact .nil
  | cons x xs ih =>
    rw [mapM_cons] at h
    obtain ⟨y, hy, h⟩ := bind_eq_ok h
    obtain ⟨ys', hys', h⟩ := bind_eq_ok h
    cases h
    exact .cons hy (ih hys')

theorem exists_of_mem_mapM {ε α β : Type} {f : α → Except ε β} {xs : List α} {ys : List β}
    (h : xs.mapM f = .ok ys) {y : β} (hy : y ∈ ys) : ∃ x ∈ xs, f x = .ok y :=
  exists_left_of_mem (forall₂_of_mapM h) hy

/-! ## Names in types -/

namespace Draft

def ScalarType.names : ScalarType → List TypeName
  | .primitive _ => []
  | .named n => [n]

def ElementType.names : ElementType → List TypeName
  | .scalar s => s.names
  | .inline _ _ => []
  | .compound base _ => base.names

/-- The names in a type, at any depth. -/
def FieldType.names : FieldType → List TypeName
  | .element e | .array e => e.names
  | .map key value => key.names ++ value.names

/-- A name as it is read: words with separators, not resolved. -/
def TypeName.Fresh (n : TypeName) : Prop := n.resolved = false ∧ Spelled n.text.toList

structure Message.AsRead (m : Message) : Prop where
  name : IsWord m.name
  parent : ∀ p, m.parent = some p → p.Fresh
  fieldName : ∀ f ∈ m.fields, IsWord f.name
  fieldType : ∀ f ∈ m.fields, ∀ n ∈ f.type.names, n.Fresh

/-- An enumeration or a set of flags as it is read. -/
structure Enumeration.AsRead (e : Enumeration) : Prop where
  name : IsWord e.name
  parent : ∀ p, e.parent = some p → p.Fresh

/-- The declarations of a scope as they are read. -/
structure Scope.AsRead (s : Scope) : Prop where
  message : ∀ m ∈ s.messages, m.AsRead
  enumeration : ∀ e ∈ s.enums, e.AsRead
  options : ∀ e ∈ s.options, e.AsRead
  compoundName : ∀ c ∈ s.compounds, IsWord c.name

theorem Scope.AsRead.empty : Scope.AsRead {} := ⟨by simp, by simp, by simp, by simp⟩

theorem Scope.AsRead.append {s t : Scope} (hs : s.AsRead) (ht : t.AsRead) : (s ++ t).AsRead where
  message m hm := (mem_append.1 hm).elim (hs.message m) (ht.message m)
  enumeration e he := (mem_append.1 he).elim (hs.enumeration e) (ht.enumeration e)
  options e he := (mem_append.1 he).elim (hs.options e) (ht.options e)
  compoundName c hc := (mem_append.1 hc).elim (hs.compoundName c) (ht.compoundName c)

end Draft

/-! ## Names in trees -/

namespace Tree

/-- A tree that follows the grammar, with tokens of the right texts. -/
abbrev Proper (t : Tree) : Prop := t.Valid Token.Shaped

variable {r : Rule}

theorem Valid.mono {P Q : Token → Prop} {t : Tree} (h : t.Valid P) (hPQ : ∀ t, P t → Q t) :
    t.Valid Q := by
  induction h with
  | leaf h => exact .leaf (hPQ _ h)
  | node h _ ih => exact .node h ih

theorem mem_of_find? {t c : Tree} (h : t.find? r = some c) :
    c ∈ t.children ∧ ∃ cs, c = .node r cs := by
  refine ⟨mem_of_find?_eq_some h, ?_⟩
  have := find?_some h
  cases c with
  | leaf => simp [isNode] at this
  | node r' cs => simp only [isNode, decide_eq_true_eq] at this; exact ⟨cs, by rw [this]⟩

theorem mem_of_mem_all {t c : Tree} (h : c ∈ t.all r) : c ∈ t.children :=
  (mem_filter.1 h).1

/-- The characters of several trees. -/
def charsOfAll (ts : List Tree) : List Char := (tokensOfAll ts).flatMap (·.image.toList)

theorem toList_image_node (r : Rule) (cs : List Tree) :
    (Tree.node r cs).image.toList = charsOfAll cs := by
  rw [image, String.toList_join, flatMap_map]
  rfl

theorem charsOfAll_cons (t : Tree) (ts : List Tree) :
    charsOfAll (t :: ts) = t.image.toList ++ charsOfAll ts := by
  rw [charsOfAll, tokensOfAll, flatMap_append, image, String.toList_join, flatMap_map]
  rfl

theorem toList_image_leaf (t : Token) : (Tree.leaf t).image.toList = t.image.toList := by
  simp [image, tokens]

theorem charsOfAll_singleton (t : Tree) : charsOfAll [t] = t.image.toList := by
  rw [charsOfAll_cons, charsOfAll, tokensOfAll]
  simp

end Tree

variable {r : Rule}

theorem Derives.of_nil (h : Derives [] ts) : ts = [] := by
  cases h; rfl

theorem Derives.of_token {k : Kind} (h : Derives (.token k :: is) ts) :
    ∃ t rest, ts = .leaf t :: rest ∧ t.kind = k ∧ Derives is rest := by
  cases h with
  | token hk h => exact ⟨_, _, rfl, hk, h⟩

theorem Derives.of_rule (h : Derives (.rule r :: is) ts) :
    ∃ cs rest, ts = .node r cs :: rest ∧ Derives is rest := by
  cases h with
  | rule h => exact ⟨_, _, rfl, h⟩

theorem Derives.of_choice {as : List (List Item)} (h : Derives (.choice as :: is) ts) :
    ∃ a ∈ as, Derives (a ++ is) ts := by
  cases h with
  | choose ha h => exact ⟨_, ha, h⟩

/-- A rule that is no part of an option, repetition or choice is always applied. -/
theorem Derives.exists_node (h : Derives is ts) (hr : .rule r ∈ is) : ∃ cs, .node r cs ∈ ts := by
  induction h with
  | nil => cases hr
  | token _ _ ih =>
    obtain ⟨cs, hcs⟩ := ih (by simpa using hr)
    exact ⟨cs, mem_cons_of_mem _ hcs⟩
  | @rule r' cs is ts _ ih =>
    rcases mem_cons.1 hr with hr | hr
    · cases hr
      exact ⟨cs, mem_cons_self⟩
    · obtain ⟨cs, hcs⟩ := ih hr
      exact ⟨cs, mem_cons_of_mem _ hcs⟩
  | skip _ ih | stop _ ih => exact ih (by simpa using hr)
  | enter _ ih => exact ih (mem_append_right _ (by simpa using hr))
  | round _ ih | first _ ih =>
    exact ih (mem_append_right _ (mem_cons_of_mem _ (by simpa using hr)))
  | choose _ _ ih => exact ih (mem_append_right _ (by simpa using hr))

theorem Derives.of_oneOf {ks : List Kind} (h : Derives (Rule.oneOf ks :: is) ts) :
    ∃ t rest, ts = .leaf t :: rest ∧ t.kind ∈ ks ∧ Derives is rest := by
  obtain ⟨a, ha, h⟩ := h.of_choice
  obtain ⟨k, hk, rfl⟩ := mem_map.1 ha
  obtain ⟨t, rest, rfl, rfl, hrest⟩ := Derives.of_token h
  exact ⟨t, rest, rfl, hk, hrest⟩

theorem Derives.of_oneRuleOf {rs : List Rule} (h : Derives (Rule.oneRuleOf rs :: is) ts) :
    ∃ r ∈ rs, ∃ cs rest, ts = .node r cs :: rest ∧ Derives is rest := by
  obtain ⟨a, ha, h⟩ := h.of_choice
  obtain ⟨r, hr, rfl⟩ := mem_map.1 ha
  obtain ⟨cs, rest, rfl, hrest⟩ := Derives.of_rule h
  exact ⟨r, hr, cs, rest, rfl, hrest⟩

theorem Derives.of_mapType (h : Derives Rule.mapType.body ts) :
    ∃ t₁ t₂ key t₃ value t₄, ts = [.leaf t₁, .leaf t₂, .node .scalarType key, .leaf t₃,
      .node .type value,
      .leaf t₄] := by
  obtain ⟨t₁, ts, rfl, -, h₁⟩ := Derives.of_token h
  obtain ⟨t₂, ts, rfl, -, h₂⟩ := h₁.of_token
  obtain ⟨key, ts, rfl, h₃⟩ := h₂.of_rule
  obtain ⟨t₃, ts, rfl, -, h₄⟩ := h₃.of_token
  obtain ⟨value, ts, rfl, h₅⟩ := h₄.of_rule
  obtain ⟨t₄, ts, rfl, -, h₆⟩ := h₅.of_token
  obtain rfl := h₆.of_nil
  exact ⟨t₁, t₂, key, t₃, value, t₄, rfl⟩

namespace Tree

variable {cs : List Tree}

theorem exists_find?_of_derives {r q : Rule} (h : Derives q.body cs) (hr : .rule r ∈ q.body) :
    ∃ ds, (Tree.node q cs).find? r = some (.node r ds) := by
  obtain ⟨ds, hds⟩ := h.exists_node hr
  have hsome : ((Tree.node q cs).find? r).isSome := by
    rw [find?, find?_isSome]
    exact ⟨_, hds, by simp [isNode]⟩
  obtain ⟨c, hc⟩ := isSome_iff_exists.1 hsome
  obtain ⟨-, es, rfl⟩ := mem_of_find? hc
  exact ⟨es, hc⟩

theorem Valid.isWord_image (h : (Tree.node .name cs).Proper) :
    IsWord (Tree.node .name cs).image := by
  obtain ⟨t, rest, rfl, hk, hrest⟩ := Derives.of_oneOf h.derives
  obtain rfl := hrest.of_nil
  have hshaped : t.Shaped := by
    cases h.child (c := .leaf t) mem_cons_self with
    | leaf ht => exact ht
  have hname : t.kind.IsName := by
    rcases mem_cons.1 hk with hk | hk
    · exact .inl hk
    · obtain ⟨w, -, hw⟩ := mem_map.1 hk
      exact .inr ⟨w, hw.symm⟩
  intro c hc
  rw [toList_image_node, charsOfAll_singleton, toList_image_leaf] at hc
  exact hshaped.word hname c hc

theorem Valid.leaf_of {P : Token → Prop} {t : Token} (h : (Tree.leaf t).Valid P) : P t := by
  cases h with
  | leaf h => exact h

/-- Separators and names after a word make a spelled name. -/
theorem spelled_of_derives {ts : List Tree}
    (h : Derives [.many .always [Rule.oneOf [.colons, .dot], .rule .name]] ts)
    (hts : ∀ t ∈ ts, t.Proper) {w : List Char} (hw : ∀ c ∈ w, Lexer.isNameChar c = true) :
    Spelled (w ++ charsOfAll ts) := by
  induction hn : ts.length using Nat.strongRecOn generalizing ts w with
  | _ n ih =>
    cases h with
    | stop h =>
      obtain rfl := h.of_nil
      simpa [charsOfAll, tokensOfAll] using Spelled.word hw
    | round h =>
      obtain ⟨t, rest, rfl, hk, h'⟩ := Derives.of_oneOf h
      obtain ⟨cs, rest, rfl, h''⟩ := h'.of_rule
      have hname := Valid.isWord_image (hts (.node .name cs) (by simp))
      have hrest :=
        ih rest.length (by simp at hn; omega) h'' (fun t ht => hts t (by simp [ht])) hname rfl
      have hshaped : t.Shaped := (hts (.leaf t) (by simp)).leaf_of
      rw [charsOfAll_cons, charsOfAll_cons, toList_image_leaf]
      rcases mem_cons.1 hk with hk | hk
      · rw [hshaped.colons hk]
        exact Spelled.colons hw hrest
      · rw [hshaped.dot (mem_singleton.1 hk)]
        exact Spelled.dot hw hrest

/-- The text of a qualified name is spelled as words with separators. -/
theorem Valid.spelled_image (h : (Tree.node .qualifiedName cs).Proper) :
    Spelled (Tree.node .qualifiedName cs).image.toList := by
  obtain ⟨t, rest, rfl, hk, hrest⟩ := Derives.of_token h.derives
  have hshaped : t.Shaped := (h.child (c := .leaf t) mem_cons_self).leaf_of
  rw [toList_image_node, charsOfAll_cons, toList_image_leaf]
  exact spelled_of_derives hrest (fun t ht => h.child (mem_cons_of_mem _ ht))
    (hshaped.word (.inl hk))

end Tree

/-! ## Reading trees -/

namespace Draft.Reader

variable {r : Reader} {cs : List Tree} {t : Tree} {home : String} {f : FieldType}

theorem isWord_nameOf (h : t.Proper) : IsWord (nameOf t) := by
  unfold nameOf
  rcases hf : t.find? .name with _ | c
  · exact isWord_empty
  · obtain ⟨hc, cs, rfl⟩ := Tree.mem_of_find? hf
    exact (h.child hc).isWord_image

theorem fresh_typeName? (h : t.Proper) {p : TypeName}
    (hp : typeName? (t.find? .qualifiedName) = some p) : p.Fresh := by
  obtain ⟨c, hf, rfl⟩ := map_eq_some_iff.1 hp
  obtain ⟨hc, cs, rfl⟩ := Tree.mem_of_find? hf
  exact ⟨rfl, (h.child hc).spelled_image⟩

theorem fresh_scalar (h : (Tree.node .scalarType cs).Proper) :
    ∀ n ∈ (scalar (.node .scalarType cs)).names, n.Fresh := by
  obtain ⟨q, hq, ds, rest, rfl, hrest⟩ := Derives.of_oneRuleOf h.derives
  obtain rfl := hrest.of_nil
  intro n hn
  unfold scalar at hn
  split at hn
  · simp [ScalarType.names] at hn
  · next hf =>
    simp only [ScalarType.names, mem_singleton] at hn
    subst hn
    have hq' : q = .qualifiedName := by
      rcases mem_cons.1 hq with rfl | hq
      · simp [Tree.find?, Tree.children, Tree.isNode] at hf
      · exact mem_singleton.1 hq
    subst hq'
    refine ⟨rfl, ?_⟩
    rw [Tree.toList_image_node, Tree.charsOfAll_singleton]
    exact (h.child (c := .node .qualifiedName ds) mem_cons_self).spelled_image

theorem fresh_element (h : (Tree.node .elementType cs).Proper) {e : ElementType}
    (he : r.element (.node .elementType cs) = .ok e) : ∀ n ∈ e.names, n.Fresh := by
  unfold element at he
  split at he
  · next ds heq =>
    simp only at he
    split at he
    · next name hf =>
      cases he
      obtain ⟨hc, es, rfl⟩ := Tree.mem_of_find? hf
      intro n hn
      simp only [ElementType.names, ScalarType.names, mem_singleton] at hn
      subst hn
      cases heq
      have hchild := h.child (c := .node .inlineEnum ds) mem_cons_self
      exact ⟨rfl, (hchild.child hc).spelled_image⟩
    · obtain ⟨vs, -, he⟩ := bind_eq_ok he
      cases he
      simp [ElementType.names]
  · obtain ⟨vs, -, he⟩ := bind_eq_ok he
    cases he
    simp [ElementType.names]
  · next h1 h2 =>
    -- the children start with a scalar type: the other two ways have been taken above
    obtain ⟨a, ha, hd⟩ := h.derives.of_choice
    have hbase : ∃ ds, (Tree.node Rule.elementType cs).find? .scalarType =
        some (.node .scalarType ds) := by
      simp only [mem_cons, not_mem_nil, or_false] at ha
      rcases ha with rfl | rfl | rfl
      · obtain ⟨ds, rest, rfl, hrest⟩ := Derives.of_rule hd
        obtain rfl := Derives.of_nil hrest
        exact absurd rfl (h1 ds)
      · obtain ⟨ds, rest, rfl, hrest⟩ := Derives.of_rule hd
        obtain rfl := Derives.of_nil hrest
        exact absurd rfl (h2 ds)
      · obtain ⟨ds, rest, rfl, -⟩ := Derives.of_rule hd
        exact ⟨ds, by simp [Tree.find?, Tree.children, Tree.isNode]⟩
    obtain ⟨ds, hf⟩ := hbase
    have hfresh := fresh_scalar (h.child (Tree.mem_of_find? hf).1)
    simp only [hf, map_some, getD_some, Except.ok.injEq] at he
    subst he
    split <;> exact hfresh

/-- An element type is read alone or as the type of the elements of an array. -/
theorem exists_element_of_fieldType {ds rest : List Tree}
    (hf : r.fieldType (.node .type (.node .elementType ds :: rest)) = .ok f) :
    ∃ e, r.element (.node .elementType ds) = .ok e ∧ (f = .element e ∨ f = .array e) := by
  cases rest with
  | nil =>
    rw [fieldType] at hf
    · obtain ⟨e, he, hf⟩ := bind_eq_ok hf
      cases hf
      exact ⟨e, he, .inl rfl⟩
    · simp
  | cons x xs =>
    rw [fieldType] at hf
    · obtain ⟨e, he, hf⟩ := bind_eq_ok hf
      cases hf
      exact ⟨e, he, .inr rfl⟩
    · simp
    · simp

/-- The names in a type that has been read are fresh. -/
theorem fresh_fieldType (h : (Tree.node .type cs).Proper)
    (hf : r.fieldType (.node .type cs) = .ok f) : ∀ n ∈ f.names, n.Fresh := by
  -- the value of a map is a type two levels further down
  induction hs : sizeOf cs using Nat.strongRecOn generalizing cs f with
  | _ size ih =>
    obtain ⟨a, ha, hd⟩ := h.derives.of_choice
    simp only [mem_cons, not_mem_nil, or_false] at ha
    rcases ha with rfl | rfl
    · obtain ⟨ds, rest, rfl, hrest⟩ := Derives.of_rule hd
      obtain rfl := Derives.of_nil hrest
      have hmap := h.child (c := .node .mapType ds) mem_cons_self
      obtain ⟨t₁, t₂, ks, t₃, vs, t₄, rfl⟩ := hmap.derives.of_mapType
      rw [fieldType] at hf
      obtain ⟨value, hvalue, hf⟩ := bind_eq_ok hf
      cases hf
      intro n hn
      rcases mem_append.1 hn with hn | hn
      · exact fresh_scalar (hmap.child (c := .node .scalarType ks) (by simp [Tree.children])) n hn
      · exact ih (sizeOf vs) (by simp at hs; omega) (hmap.child (by simp [Tree.children]))
          hvalue rfl n hn
    · obtain ⟨ds, rest, rfl, -⟩ := Derives.of_rule hd
      have helem := h.child (c := .node .elementType ds) mem_cons_self
      obtain ⟨e, he, rfl | rfl⟩ := exists_element_of_fieldType hf
      · exact fresh_element helem he
      · exact fresh_element helem he

theorem field_asRead (h : (Tree.node .field cs).Proper) {f : Field}
    (hf : r.field home (.node .field cs) = .ok f) :
    IsWord f.name ∧ ∀ n ∈ f.type.names, n.Fresh := by
  obtain ⟨type, ht, hf⟩ := bind_eq_ok hf
  cases hf
  refine ⟨isWord_nameOf h, ?_⟩
  obtain ⟨ds, hds⟩ := Tree.exists_find?_of_derives (r := .type) h.derives (by simp [Rule.body])
  rw [hds] at ht
  exact fresh_fieldType (h.child (Tree.mem_of_find? hds).1) ht

theorem message_asRead (h : t.Proper) {m : Message} (hm : r.message home t = .ok m) : m.AsRead := by
  obtain ⟨fields, hfields, hm⟩ := bind_eq_ok hm
  cases hm
  have hfield : ∀ f ∈ fields, IsWord f.name ∧ ∀ n ∈ f.type.names, n.Fresh := by
    intro f hf
    obtain ⟨c, hc, hcf⟩ := exists_of_mem_mapM hfields hf
    have hproper := h.child (Tree.mem_of_mem_all hc)
    have hnode := (mem_filter.1 hc).2
    cases c with
    | leaf => simp [Tree.isNode] at hnode
    | node q cs =>
      simp only [Tree.isNode, decide_eq_true_eq] at hnode
      subst hnode
      exact field_asRead hproper hcf
  exact ⟨isWord_nameOf h, fun p hp => fresh_typeName? h hp, fun f hf => (hfield f hf).1,
    fun f hf => (hfield f hf).2⟩

theorem enumeration_asRead {kind : EnumKind} (h : t.Proper) {e : Enumeration}
    (he : r.enumeration home kind t = .ok e) : e.AsRead := by
  obtain ⟨raw, -, he⟩ := bind_eq_ok he
  obtain ⟨values, -, he⟩ := bind_eq_ok he
  cases he
  exact ⟨isWord_nameOf h, fun p hp => fresh_typeName? h hp⟩

/-- What trees contribute: declarations as they are read, and namespaces laid out
    from the free index on. -/
structure Contribution.Good (p : Place) (c : Contribution) : Prop where
  scope : c.scope.AsRead
  arena : ∀ ns ∈ c.arena, ns.scope.AsRead
  laid : Laid p.index p.free c.scope.children (threads c.arena)
  isWord : ∀ ns ∈ c.arena, IsWord ns.name

theorem Contribution.Good.of_scope {p : Place} {s : Scope} (h : s.AsRead) (hc : s.children = []) :
    Contribution.Good p { scope := s } := ⟨h, by simp, by rw [hc]; exact .nil, by simp⟩

/-- What is read of trees, one constructor for each kind of tree that
    contributes something. -/
inductive Contributes (r : Reader) : Place → List Tree → Contribution → Prop
  | nil {p} : Contributes r p [] {}
  | cons {p t ts one rest} : Contributes r p [t] one →
      Contributes r { p with free := p.free + one.arena.length } ts rest →
      Contributes r p (t :: ts) ⟨one.scope ++ rest.scope, one.arena ++ rest.arena⟩
  | other {p t} : Contributes r p [t] {}
  | declaration {p cs c} : Contributes r p cs c → Contributes r p [.node .declaration cs] c
  | namespaceBlock {p cs t inner} : t = .node .namespaceBlock cs →
      Contributes r ⟨nameOf t, some p.free, p.free + 1⟩ cs inner →
      Contributes r p [t] ⟨{ children := [p.free] },
        ⟨r.notesOf t, nameOf t, p.index, none, r.source.file, lineOf t, inner.scope⟩ :: inner.arena⟩
  | message {p cs m} : r.message p.home (.node .messageBlock cs) = .ok m →
      Contributes r p [.node .messageBlock cs] { scope := { messages := [m] } }
  | enumeration {p q cs kind e s} :
      q = .enumBlock ∧ s = { enums := [e] } ∨ q = .optionsBlock ∧ s = { options := [e] } →
      r.enumeration p.home kind (.node q cs) = .ok e → Contributes r p [.node q cs] { scope := s }
  | compound {p cs} : Contributes r p [.node .compoundBlock cs]
      { scope := { compounds := [r.compound p.home (.node .compoundBlock cs)] } }

mutual

theorem contributes_of_contribution (p : Place) : ∀ (t : Tree) {c : Contribution},
    r.contribution p t = .ok c → Contributes r p [t] c
  | .leaf _, c, h => by
    rw [contribution] at h
    cases h
    · exact .other
    all_goals simp
  | .node q cs, c, h => by
    rw [contribution.eq_def] at h
    split at h
    · next heq =>
      cases heq
      exact .declaration (contributes_of_contributions p cs h)
    · next heq =>
      cases heq
      obtain ⟨inner, hinner, h⟩ := bind_eq_ok h
      cases h
      exact .namespaceBlock rfl (contributes_of_contributions _ cs hinner)
    · next heq =>
      cases heq
      obtain ⟨m, hm, h⟩ := bind_eq_ok h
      cases h
      exact .message hm
    · next heq =>
      cases heq
      obtain ⟨e, he, h⟩ := bind_eq_ok h
      cases h
      exact .enumeration (.inl ⟨rfl, rfl⟩) he
    · next heq =>
      cases heq
      obtain ⟨e, he, h⟩ := bind_eq_ok h
      cases h
      exact .enumeration (.inr ⟨rfl, rfl⟩) he
    · next heq =>
      cases heq
      cases h
      exact .compound
    · cases h
      exact .other

/-- **What is read of trees, tree by tree.** -/
theorem contributes_of_contributions (p : Place) : ∀ (ts : List Tree) {c : Contribution},
    r.contributions p ts = .ok c → Contributes r p ts c
  | [], c, h => by
    rw [contributions] at h
    cases h
    exact .nil
  | t :: ts, c, h => by
    rw [contributions] at h
    obtain ⟨one, hone, h⟩ := bind_eq_ok h
    obtain ⟨rest, hrest, h⟩ := bind_eq_ok h
    cases h
    exact .cons (contributes_of_contribution p t hone) (contributes_of_contributions _ ts hrest)

end

theorem Contributes.good {p : Place} {ts : List Tree} {c : Contribution} (h : Contributes r p ts c)
    (hts : ∀ t ∈ ts, t.Proper) : c.Good p := by
  induction h with
  | nil | other => exact .of_scope .empty rfl
  | cons _ _ ihone ihrest =>
    obtain ⟨ht, hts⟩ := forall_mem_cons.1 hts
    have hone := ihone (by simpa using ht)
    have hrest := ihrest hts
    refine ⟨hone.scope.append hrest.scope, forall_mem_append.2 ⟨hone.arena, hrest.arena⟩, ?_,
      forall_mem_append.2 ⟨hone.isWord, hrest.isWord⟩⟩
    rw [threads, map_append]
    exact hone.laid.append (by simpa [threads] using hrest.laid)
  | declaration _ ih => exact ih fun c hc => (hts _ (mem_singleton_self _)).child hc
  | namespaceBlock ht _ ih =>
    subst ht
    have hproper := hts _ (mem_singleton_self _)
    have hinner := ih fun c hc => hproper.child hc
    refine ⟨⟨by simp, by simp, by simp, by simp⟩, forall_mem_cons.2 ⟨hinner.scope, hinner.arena⟩,
      ?_, forall_mem_cons.2 ⟨isWord_nameOf hproper, hinner.isWord⟩⟩
    simpa [threads] using Laid.cons hinner.laid .nil
  | message hm =>
    have hread := message_asRead (hts _ (mem_singleton_self _)) hm
    exact .of_scope ⟨by simpa using hread, by simp, by simp, by simp⟩ rfl
  | enumeration hq he =>
    have hread := enumeration_asRead (hts _ (mem_singleton_self _)) he
    rcases hq with ⟨rfl, rfl⟩ | ⟨rfl, rfl⟩
    · exact .of_scope ⟨by simp, by simpa using hread, by simp, by simp⟩ rfl
    · exact .of_scope ⟨by simp, by simp, by simpa using hread, by simp⟩ rfl
  | compound =>
    have hword : IsWord _ := isWord_nameOf (hts _ (mem_singleton_self _))
    exact .of_scope ⟨by simp, by simp, by simp, by simpa [Reader.compound] using hword⟩ rfl

end Draft.Reader

/-! ## Drafts that have been read -/

namespace Draft

variable {d : Draft}

/-- A draft as it is read from a text. -/
structure AsRead (d : Draft) : Prop where
  top : d.top.AsRead
  arena : ∀ ns ∈ d.arena, ns.scope.AsRead
  laid : Laid none 0 d.top.children (threads d.arena)
  isWord : ∀ ns ∈ d.arena, IsWord ns.name
  attached : d.attached = .empty

theorem AsRead.isLaid (h : d.AsRead) : d.IsLaid := ⟨_, h.laid, by simp [threads]⟩

variable {source : String → Option String} {f : String}

theorem ofSource_asRead {stem : String} {s : Source} (hs : s.tree.Proper)
    (h : ofSource stem s = .ok d) : d.AsRead ∧ d.file = s.file ∧ d.stem = stem := by
  obtain ⟨all, hall, h⟩ := bind_eq_ok h
  cases h
  have hgood := (Reader.contributes_of_contributions _ _ hall).good fun t ht => hs.child ht
  exact ⟨⟨hgood.scope, hgood.arena, hgood.laid, hgood.isWord, rfl⟩, rfl, rfl⟩

/-- **Drafts that have been read** hold words as names, are laid out in the order
    of the text, and stand for the file that they are read from. -/
theorem read_asRead {file text : String} (h : read file text = .ok d) :
    d.AsRead ∧ d.file = file ∧ d.stem = Path.stem file := by
  obtain ⟨s, hs, h⟩ := bind_eq_ok h
  have hproper : s.tree.Proper := (Source.read_valid hs).mono fun t ht => shaped_of_mem_tokens ht
  obtain ⟨hread, hfile, hstem⟩ := ofSource_asRead hproper h
  exact ⟨hread, hfile.trans (Source.read_elim hs).1, hstem⟩

/-- The draft that is read of a file, given the texts of files. -/
def readFrom (source : String → Option String) (f : String) : Option Draft :=
  (source f).bind fun text => (read f text).toOption

theorem readFrom_eq_some_iff :
    readFrom source f = some d ↔ ∃ text, source f = some text ∧ read f text = .ok d := by
  simp only [readFrom, bind_eq_some_iff, toOption_eq_some_iff]

theorem asRead_of_readFrom (h : readFrom source f = some d) :
    d.AsRead ∧ d.file = f ∧ d.stem = Path.stem f := by
  obtain ⟨text, -, hread⟩ := readFrom_eq_some_iff.1 h
  exact read_asRead hread

end Draft

end MessageSchema
