/-
  What is read of tokens at other places or with other separators.

  A draft takes from its tokens the kinds, the images and the lines; offsets and
  columns count only for the comments that belong to a declaration and for the text
  of a default.  So two trees of one shape give drafts that look the same, if all that
  is taken from them does.

  * `both_field`, `both_message`, `both_enumeration`: declarations.
-/
import MessageSchema.Proofs.Erasure
import MessageSchema.Proofs.Relocation

namespace MessageSchema

open List Option

/-- Tokens on one line that look the same, and are the same unless they are separators of
    names. -/
structure Token.Rereads (v : Draft.View) (t t' : Token) : Prop where
  kind : t.kind.Near t'.kind
  image : t.kind.isLink = false → t.image = t'.image
  text : v.text t.image = v.text t'.image
  line : t.first.line = t'.first.line

theorem Token.Alike.rereads (v : Draft.View) {t t' : Token} (h : t.Alike t') : t.Rereads v t' :=
  ⟨.inl h.kind, fun _ => h.image, congrArg v.text h.image, h.first⟩

/-! ## Parts of trees -/

namespace Tree

mutual

/-- The parts of a tree that apply a rule. -/
def parts (q : Rule) : Tree → List Tree
  | leaf _ => []
  | node p cs => (if p = q then [node p cs] else []) ++ partsOfAll q cs

/-- The parts of several trees that apply a rule. -/
def partsOfAll (q : Rule) : List Tree → List Tree
  | [] => []
  | t :: ts => t.parts q ++ partsOfAll q ts

end

variable {d c t : Tree}

theorem mem_partsOfAll {q : Rule} {cs : List Tree} (hc : c ∈ cs) (hd : d ∈ c.parts q) :
    d ∈ partsOfAll q cs := by
  induction cs with
  | nil => cases hc
  | cons t ts ih =>
    rw [partsOfAll, mem_append]
    rcases mem_cons.1 hc with rfl | hc
    · exact .inl hd
    · exact .inr (ih hc)

theorem mem_parts_of_mem_children {q : Rule} (hc : c ∈ t.children) (hd : d ∈ c.parts q) :
    d ∈ t.parts q := by
  cases t with
  | leaf _ => cases hc
  | node p cs =>
    rw [parts, mem_append]
    exact .inr (mem_partsOfAll hc hd)

theorem mem_parts_self {q : Rule} (h : t.isNode q = true) : t ∈ t.parts q := by
  cases t with
  | leaf _ => cases h
  | node p cs =>
    rw [parts, mem_append, if_pos (of_decide_eq_true h)]
    exact .inl mem_cons_self

mutual

theorem tokens_infix_of_mem_parts {q : Rule} :
    ∀ {t d : Tree}, d ∈ t.parts q → d.tokens <:+: t.tokens
  | .leaf _, _, h => by cases h
  | .node p cs, d, h => by
    rw [parts, mem_append] at h
    rcases h with h | h
    · split at h
      · obtain rfl := mem_singleton.1 h
        exact infix_rfl
      · cases h
    · exact tokens_infix_of_mem_partsOfAll h

theorem tokens_infix_of_mem_partsOfAll {q : Rule} :
    ∀ {cs : List Tree} {d : Tree}, d ∈ partsOfAll q cs →
    d.tokens <:+: tokensOfAll cs
  | [], _, h => by cases h
  | t :: ts, d, h => by
    rw [partsOfAll, mem_append] at h
    rw [tokensOfAll]
    rcases h with h | h
    · exact (tokens_infix_of_mem_parts h).trans (prefix_append _ _).isInfix
    · exact (tokens_infix_of_mem_partsOfAll h).trans (suffix_append _ _).isInfix

end

end Tree

namespace Draft

namespace Reader

variable {v : View} {r r' : Reader} {t t' : Tree}

/-- Two trees that look the same to two readers, apart from their parts.  Names that are no
    type names and the parents of flags are looked at as they are. -/
structure Similar (v : View) (r r' : Reader) (t t' : Tree) : Prop where
  image : v.text t.image = v.text t'.image
  word : t.isNode .name = true ∨ t.isNode .primitiveType = true → t.image = t'.image
  parent : t.isNode .optionsBlock = true → typeName? (t.find? .qualifiedName) =
    typeName? (t'.find? .qualifiedName)
  text : t.isNode .default = true → r.textOf t = r'.textOf t'
  notes : v.notes (r.notesOf t) = v.notes (r'.notesOf t')

/-- Trees over tokens with the same images look the same if their texts and their notes do. -/
theorem similar_of_rel {R : Token → Token → Prop} (hR : ∀ a b, R a b → a.image = b.image)
    (h : Tree.Rel R t t') (htext : t.isNode .default = true → r.textOf t = r'.textOf t')
    (hnotes : v.notes (r.notesOf t) = v.notes (r'.notesOf t')) : Similar v r r' t t' := by
  refine ⟨congrArg v.text (h.image_eq hR), fun _ => h.image_eq hR, fun _ => ?_, htext, hnotes⟩
  rcases rel_cases (h.find? .qualifiedName) with ⟨ho, ho'⟩ | ⟨c, c', ho, ho', hc⟩
  · rw [ho, ho']
  · rw [ho, ho', typeName?, typeName?, map_some, map_some, hc.image_eq hR]

variable (v r r') in
/-- Two trees of one shape that look the same to two readers, with all their parts. -/
inductive Rereads : Tree → Tree → Prop
  | leaf {a b} : a.Rereads v b → Rereads (.leaf a) (.leaf b)
  | node {q cs ds} : Forall₂ Rereads cs ds → Similar v r r' (.node q cs) (.node q ds) →
      Rereads (.node q cs) (.node q ds)

mutual

variable {R : Token → Token → Prop}

/-- Trees over related tokens are reread if every part looks the same. -/
theorem rereads_of_rel (hR : ∀ a b, R a b → a.Rereads v b) : ∀ {t t' : Tree},
    Tree.Rel R t t' → (∀ q cs ds, .node q cs ∈ t.parts q → Tree.Rel R (.node q cs) (.node q ds) →
      Similar v r r' (.node q cs) (.node q ds)) → Rereads v r r' t t'
  | .leaf _, _, .leaf h, _ => .leaf (hR _ _ h)
  | .node q cs, _, .node hs, hparts => by
    refine .node (forall₂_rereads hR hs fun c hc q cs ds hd => ?_) ?_
    · exact hparts q cs ds (Tree.mem_parts_of_mem_children hc hd)
    · exact hparts q _ _ (Tree.mem_parts_self (decide_eq_true rfl)) (.node hs)

theorem forall₂_rereads (hR : ∀ a b, R a b → a.Rereads v b) : ∀ {ts ts' : List Tree},
    Forall₂ (Tree.Rel R) ts ts' →
    (∀ t ∈ ts, ∀ q cs ds, .node q cs ∈ t.parts q → Tree.Rel R (.node q cs) (.node q ds) →
      Similar v r r' (.node q cs) (.node q ds)) → Forall₂ (Rereads v r r') ts ts'
  | [], _, .nil, _ => .nil
  | _ :: _, _, .cons h hs, hparts => by
    obtain ⟨hfirst, hrest⟩ := forall_mem_cons.1 hparts
    exact .cons (rereads_of_rel hR h hfirst) (forall₂_rereads hR hs hrest)

end

namespace Rereads

mutual

theorem rel : ∀ {t t' : Tree}, Rereads v r r' t t' → Tree.Rel (Token.Rereads v) t t'
  | .leaf _, _, .leaf h => .leaf h
  | .node _ _, _, .node hs _ => .node (rel_all hs)

theorem rel_all : ∀ {cs ds : List Tree}, Forall₂ (Rereads v r r') cs ds →
    Forall₂ (Tree.Rel (Token.Rereads v)) cs ds
  | [], _, .nil => .nil
  | _ :: _, _, .cons h hs => .cons h.rel (rel_all hs)

end

variable (h : Rereads v r r' t t')

include h

theorem children : Forall₂ (Rereads v r r') t.children t'.children := by
  cases h with
  | leaf _ => exact .nil
  | node hs _ => exact hs

theorem find? (q : Rule) :
    Rel (fun c d => c.isNode q = true ∧ Rereads v r r' c d) (t.find? q) (t'.find? q) := by
  have hfind : Rel (Rereads v r r') (t.find? q) (t'.find? q) :=
    rel_find? h.children fun _ _ hone => hone.rel.isNode_eq q
  have hnode : ∀ c, t.find? q = some c → c.isNode q = true := fun c hc => find?_some hc
  generalize t.find? q = o, t'.find? q = o' at hfind hnode
  cases hfind with
  | none => exact .none
  | some hone => exact .some ⟨hnode _ rfl, hone⟩

theorem all (q : Rule) :
    Forall₂ (fun c d => c.isNode q = true ∧ Rereads v r r' c d) (t.all q) (t'.all q) :=
  (forall₂_and_left _ _).2 ⟨fun _ hc => (mem_filter.1 hc).2,
    rel_filter (fun _ _ hone => Bool.eq_iff_iff.1 (hone.rel.isNode_eq q)) h.children⟩

theorem similar {q : Rule} (ht : t.isNode q = true) : Similar v r r' t t' := by
  cases h with
  | leaf _ => cases ht
  | node _ hsimilar => exact hsimilar

theorem single {p q : Rule} {cs : List Tree} (ht : t = .node p [.node q cs]) :
    ∃ ds, t' = .node p [.node q ds] ∧ Rereads v r r' (.node q cs) (.node q ds) := by
  subst ht
  rcases h with _ | ⟨hs, -⟩
  rcases hs with _ | ⟨hone, _ | _⟩
  cases hone with
  | node hs hsimilar => exact ⟨_, rfl, .node hs hsimilar⟩

/-! ## Names and types -/

theorem image_eq : v.text t.image = v.text t'.image := by
  cases h with
  | leaf hab => simpa [Tree.image, Tree.tokens] using hab.text
  | node _ hsimilar => exact hsimilar.image

theorem leaves {k : Kind} (hk : k.isLink = false) :
    Forall₂ (fun a b : Token => a.image = b.image ∧ a.first.line = b.first.line) (t.leaves k)
      (t'.leaves k) := by
  refine (h.rel.leaves fun a b hab => ?_).imp fun a b hab => ⟨hab.1.image (hab.2 ▸ hk), hab.1.line⟩
  exact hab.kind.eq_iff hk

theorem lineOf_eq : lineOf t = lineOf t' := by
  have htokens := h.rel.tokens
  rw [lineOf, lineOf]
  generalize t.tokens = ts, t'.tokens = ts' at htokens
  cases htokens with
  | nil => rfl
  | cons hone _ => exact congrArg (fun n => (some n).getD 0) hone.line

omit h in
/-- The image of a part that is looked at as it is. -/
theorem map_image_eq {q : Rule} (hq : q = .name ∨ q = .primitiveType) (h : Rereads v r r' t t') :
    (t.find? q).map Tree.image = (t'.find? q).map Tree.image := by
  rcases rel_cases (h.find? q) with ⟨ho, ho'⟩ | ⟨c, d, ho, ho', hc, hone⟩
  · rw [ho, ho']
  · rw [ho, ho']
    rcases hq with rfl | rfl
    · exact congrArg some ((hone.similar hc).word (.inl hc))
    · exact congrArg some ((hone.similar hc).word (.inr hc))

theorem nameOf_eq : nameOf t = nameOf t' := by rw [nameOf, nameOf, map_image_eq (.inl rfl) h]

theorem typeName?_eq : (typeName? (t.find? .qualifiedName)).map v.name =
    (typeName? (t'.find? .qualifiedName)).map v.name := by
  rcases rel_cases (h.find? .qualifiedName) with ⟨ho, ho'⟩ | ⟨c, d, ho, ho', -, hone⟩
  · rw [ho, ho']
  · simp [ho, ho', typeName?, View.name, hone.image_eq]

theorem components_eq : components t = components t' := by
  rw [components, components]
  rcases rel_cases (h.find? .componentList) with ⟨ho, ho'⟩ | ⟨c, d, ho, ho', -, hone⟩
  · rw [ho, ho']
  · rw [ho, ho']
    exact map_eq_of_forall₂ ((hone.all .name).imp fun _ _ hn =>
      (hn.2.similar hn.1).word (.inl hn.1))

theorem scalar_eq :
    FieldType.mapScalar v.name (scalar t) = FieldType.mapScalar v.name (scalar t') := by
  have hprimitive := map_image_eq (.inr rfl) h
  rw [scalar, scalar]
  generalize t.find? .primitiveType = o, t'.find? .primitiveType = o' at hprimitive
  cases o with
  | none =>
    cases o' with
    | none => simp only [FieldType.mapScalar, View.name, h.image_eq]
    | some _ => cases hprimitive
  | some p =>
    cases o' with
    | none => cases hprimitive
    | some p' => simp only [primitive, some.inj hprimitive]

theorem enumKind_eq : enumKind t = enumKind t' := by
  rw [enumKind, enumKind, Tree.hasLeaf, Tree.hasLeaf, isEmpty_eq_of_forall₂ (h.leaves rfl)]

theorem importLine_eq : importLine t = importLine t' := by
  have hleaves := h.leaves (k := .text) rfl
  rw [importLine, importLine, map_image_eq (.inl rfl) h]
  generalize t.leaves .text = ts, t'.leaves .text = ts' at hleaves
  cases hleaves with
  | nil => rfl
  | cons hone _ => simp [hone.1, hone.2]

/-! ## Values -/

theorem both_numberOf : Both Eq (r.numberOf t) (r'.numberOf t') := by
  have hleaves := h.leaves (k := .number) rfl
  rw [numberOf, numberOf]
  generalize t.leaves .number = ts, t'.leaves .number = ts' at hleaves
  cases hleaves with
  | nil => exact .ok rfl
  | cons hone _ =>
    simp only [head?_cons, hone.1]
    split
    · exact .error
    · split
      · exact .ok rfl
      · exact .error

theorem both_value (ht : t.isNode .value = true) :
    Both (fun x x' => v.value x = v.value x') (r.value t) (r'.value t') := by
  refine h.both_numberOf.bind ?_
  rintro n _ rfl
  refine .ok ?_
  simp only [View.value, h.nameOf_eq, h.lineOf_eq, (h.similar ht).notes]

theorem both_values :
    Both (Forall₂ fun x x' => v.value x = v.value x') (r.values t) (r'.values t') := by
  rw [values, values]
  rcases rel_cases (h.find? .valueList) with ⟨ho, ho'⟩ | ⟨c, d, ho, ho', -, hone⟩
  · rw [ho, ho']
    exact .ok .nil
  · rw [ho, ho']
    exact .mapM ((hone.all .value).imp fun _ _ hx => hx.2.both_value hx.1)

/-! ## Types -/

theorem both_element :
    Both (fun e e' => v.element e = v.element e') (r.element t) (r'.element t') := by
  by_cases henum : ∃ cs, t = .node .elementType [.node .inlineEnum cs]
  · obtain ⟨cs, rfl⟩ := henum
    obtain ⟨ds, rfl, hinline⟩ := h.single rfl
    rw [Reader.element, Reader.element]
    rcases rel_cases (hinline.find? .qualifiedName) with ⟨ho, ho'⟩ | ⟨c, d, ho, ho', -, hone⟩
    · simp only [ho, ho']
      refine hinline.both_values.bind fun vs vs' hvs => .ok ?_
      rw [View.element, View.element, map_eq_of_forall₂ hvs, hinline.enumKind_eq]
    · simp only [ho, ho']
      exact .ok (by simp only [View.element, FieldType.mapElement, FieldType.mapScalar, View.name,
        hone.image_eq])
  · by_cases hoptions : ∃ cs, t = .node .elementType [.node .inlineOptions cs]
    · obtain ⟨cs, rfl⟩ := hoptions
      obtain ⟨ds, rfl, hinline⟩ := h.single rfl
      refine hinline.both_values.bind fun vs vs' hvs => .ok ?_
      rw [View.element, View.element, map_eq_of_forall₂ hvs]
    · rw [Reader.element.eq_3 r t (fun cs heq => henum ⟨cs, heq⟩)
        (fun cs heq => hoptions ⟨cs, heq⟩),
        Reader.element.eq_3 r' t'
          (by rintro ds rfl; obtain ⟨cs, heq, -⟩ := h.rel.symm.single; exact henum ⟨cs, heq⟩)
          (by rintro ds rfl; obtain ⟨cs, heq, -⟩ := h.rel.symm.single; exact hoptions ⟨cs, heq⟩),
          h.components_eq]
      have hbase :
          FieldType.mapScalar v.name
          (((t.find? .scalarType).map scalar).getD (.named { text := t.image })) =
          FieldType.mapScalar v.name
          (((t'.find? .scalarType).map scalar).getD (.named { text := t'.image })) := by
        rcases rel_cases (h.find? .scalarType) with ⟨ho, ho'⟩ | ⟨c, d, ho, ho', -, hone⟩
        · simp [ho, ho', FieldType.mapScalar, View.name, h.image_eq]
        · rw [ho, ho']
          exact hone.scalar_eq
      refine .ok ?_
      rcases rel_cases (h.find? .componentList) with ⟨ho, ho'⟩ | ⟨_, _, ho, ho', -⟩
      · rw [ho, ho']
        exact congrArg ElementType.scalar hbase
      · rw [ho, ho']
        exact congrArg (ElementType.compound · _) hbase

omit h in
/-- The tree of a map has six parts; the third is its key, the fifth its value. -/
theorem mapType {a b key c value d : Tree}
    (h : Rereads v r r' (.node .mapType [a, b, key, c, value, d]) t) :
    ∃ a' b' key' c' value' d', t = .node .mapType [a', b', key', c', value', d'] ∧
      Rereads v r r' key key' ∧ Rereads v r r' value value' := by
  rcases h with _ | ⟨hs, -⟩
  rcases hs with _ | ⟨_, _ | ⟨_, _ | ⟨hkey, _ | ⟨_, _ | ⟨hvalue, _ | ⟨_, _ | _⟩⟩⟩⟩⟩⟩
  exact ⟨_, _, _, _, _, _, rfl, hkey, hvalue⟩

theorem both_fieldType :
    Both (fun x x' => v.type x = v.type x') (r.fieldType t) (r'.fieldType t') := by
  fun_induction Reader.fieldType r t generalizing t' with
  | case1 a b key c value d ih =>
    obtain ⟨ds, rfl, hmap⟩ := h.single rfl
    obtain ⟨_, _, key', _, value', _, heq, hkey, hvalue⟩ := hmap.mapType
    obtain ⟨-, rfl⟩ := Tree.node.inj heq
    rw [Reader.fieldType]
    refine (ih hvalue).bind fun x x' hx => .ok ?_
    rw [View.type, View.type, hx, hkey.scalar_eq]
  | case2 e hmap =>
    rcases h with _ | ⟨hs, -⟩
    rcases hs with _ | ⟨hone, _ | _⟩
    rw [Reader.fieldType.eq_2 r' _ ?_]
    · refine hone.both_element.bind fun x x' hx => .ok ?_
      rw [View.type, View.type, hx]
    · rintro a b key c value d rfl
      rcases hone with _ | ⟨hs, -⟩
      rcases hs with _ | ⟨_, _ | ⟨_, _ | ⟨_, _ | ⟨_, _ | ⟨_, _ | ⟨_, _ | _⟩⟩⟩⟩⟩⟩
      exact hmap _ _ _ _ _ _ rfl
  | case3 e es hmap hes =>
    rcases h with _ | ⟨hs, -⟩
    rcases hs with _ | ⟨hone, hrest⟩
    rcases hrest with _ | ⟨hsecond, hmore⟩
    · exact absurd rfl hes
    · rw [Reader.fieldType.eq_3 r' _ _ (by simp) (by simp)]
      refine hone.both_element.bind fun x x' hx => .ok ?_
      rw [View.type, View.type, hx]
  | case4 t _ _ hmany =>
    have hother : ∀ e es, t' = .node .type (e :: es) → False := by
      rintro e es rfl
      rcases h with _ | ⟨hs, -⟩
      rcases hs with _ | ⟨_, _⟩
      exact hmany _ _ rfl
    rw [Reader.fieldType.eq_4 r' t' (fun _ _ _ _ _ _ => hother _ _) (fun _ => hother _ _) hother]
    refine h.both_element.bind fun x x' hx => .ok ?_
    rw [View.type, View.type, hx]

/-! ## Declarations -/

variable (hfile : r.source.file = r'.source.file)

include hfile

theorem originOf_eq {q : Rule} (home : String) (ht : t.isNode q = true) :
    v.origin (r.originOf home t) = v.origin (r'.originOf home t') := by
  simp only [originOf, View.origin, hfile, h.lineOf_eq, (h.similar ht).notes]

theorem both_field (home : String) (ht : t.isNode .field = true) :
    Both (fun x x' => v.field x = v.field x') (r.field home t) (r'.field home t') := by
  have htype : Rereads v r r' ((t.find? .type).getD t) ((t'.find? .type).getD t') := by
    rcases rel_cases (h.find? .type) with ⟨ho, ho'⟩ | ⟨c, d, ho, ho', -, hone⟩
    · rwa [ho, ho']
    · rwa [ho, ho']
  have hmodifiers : (t.leaves .identifier).map (·.image) = (t'.leaves .identifier).map (·.image) :=
    map_eq_of_forall₂ ((h.leaves rfl).imp fun _ _ hab => hab.1)
  have hdefault : (t.find? .default).map r.textOf = (t'.find? .default).map r'.textOf := by
    rcases rel_cases (h.find? .default) with ⟨ho, ho'⟩ | ⟨c, d, ho, ho', hc, hone⟩
    · rw [ho, ho']
      rfl
    · rw [ho, ho']
      exact congrArg some ((hone.similar hc).text hc)
  refine htype.both_fieldType.bind fun x x' hx => .ok ?_
  simp only [View.field, hx, h.nameOf_eq, hmodifiers, hdefault, h.originOf_eq hfile home ht]

theorem both_message (home : String) (ht : t.isNode .messageBlock = true) :
    Both (fun m m' => v.message m = v.message m') (r.message home t) (r'.message home t') := by
  have hfields : Both (Forall₂ fun x x' => v.field x = v.field x')
      ((t.all .field).mapM (r.field home)) ((t'.all .field).mapM (r'.field home)) :=
    .mapM ((h.all .field).imp fun _ _ hx => hx.2.both_field hfile home hx.1)
  refine hfields.bind fun xs xs' hxs => .ok ?_
  simp only [View.message, map_eq_of_forall₂ hxs, h.nameOf_eq, h.typeName?_eq,
    h.originOf_eq hfile home ht]

theorem both_enumeration (home : String) (kind : EnumKind) (q : Rule) (ht : t.isNode q = true)
    (parent : Option TypeName → Option TypeName)
    (hparent : parent (typeName? (t.find? .qualifiedName)) =
      parent (typeName? (t'.find? .qualifiedName))) :
    Both (fun e e' => v.enumeration parent e = v.enumeration parent e') (r.enumeration home kind t)
      (r'.enumeration home kind t') := by
  refine h.both_values.bind fun vs vs' hvs => ?_
  have hnumber : (number kind r.source.file home vs).map (List.map v.enumValue) =
      (number kind r'.source.file home vs').map (List.map v.enumValue) := by
    rw [number, number, ← numberFrom_view, ← numberFrom_view, map_eq_of_forall₂ hvs, hfile]
  generalize number kind r.source.file home vs = x,
    number kind r'.source.file home vs' = x' at hnumber
  cases x with
  | error fault =>
    cases x' with
    | error fault' => exact .error
    | ok ws' => cases hnumber
  | ok ws =>
    cases x' with
    | error fault' => cases hnumber
    | ok ws' =>
      refine .ok ?_
      simp only [View.enumeration, Except.ok.inj hnumber, h.nameOf_eq, hparent,
        h.originOf_eq hfile home ht]

theorem compound_eq (home : String) (ht : t.isNode .compoundBlock = true) :
    v.compound (r.compound home t) = v.compound (r'.compound home t') := by
  have hbase : (t.find? .primitiveType).map primitive =
      (t'.find? .primitiveType).map primitive := by
    have hwords :=
      congrArg (Option.map fun w => (Primitive.ofWord? w).getD .string) (map_image_eq (.inr rfl) h)
    rw [Option.map_map, Option.map_map] at hwords
    exact hwords
  simp only [compound, View.compound, hbase, h.nameOf_eq, h.components_eq,
    h.originOf_eq hfile home ht]

end Rereads

/-! ## Scopes -/

mutual

theorem both_contribution (hfile : r.source.file = r'.source.file) (p : Place) : ∀ {t t' : Tree},
    Rereads v r r' t t' →
    Both (fun c c' => v.contribution c = v.contribution c') (r.contribution p t)
      (r'.contribution p t')
  | .leaf _, _, .leaf _ => .ok rfl
  | .node q cs, .node _ ds, .node hs hsimilar => by
    have h : Rereads v r r' (.node q cs) (.node q ds) := .node hs hsimilar
    have hinner := fun p => both_contributions hfile p hs
    cases q with
    | declaration => exact hinner p
    | namespaceBlock =>
      rw [contribution, contribution, h.nameOf_eq]
      refine (hinner _).bind fun c c' hc => .ok ?_
      obtain ⟨hscope, harena⟩ := Contribution.mk.inj hc
      simp [View.contribution, harena, View.block, hscope, h.lineOf_eq, hsimilar.notes, hfile]
    | messageBlock =>
      refine (h.both_message hfile p.home rfl).bind fun m m' hm => .ok ?_
      simp [View.contribution, View.scope, hm]
    | enumBlock =>
      rw [contribution, contribution, h.enumKind_eq]
      refine (h.both_enumeration hfile p.home _ .enumBlock rfl (Option.map v.name)
        h.typeName?_eq).bind fun e e' he => .ok ?_
      simp [View.contribution, View.scope, he]
    | optionsBlock =>
      refine (h.both_enumeration hfile p.home _ .optionsBlock rfl id (hsimilar.parent rfl)).bind
        fun e e' he => .ok ?_
      simp [View.contribution, View.scope, he]
    | compoundBlock =>
      refine .ok ?_
      simp [View.contribution, View.scope, h.compound_eq hfile p.home rfl]
    | _ => exact .ok rfl

theorem both_contributions (hfile : r.source.file = r'.source.file) (p : Place) :
    ∀ {cs ds : List Tree},
    Forall₂ (Rereads v r r') cs ds →
    Both (fun c c' => v.contribution c = v.contribution c') (r.contributions p cs)
      (r'.contributions p ds)
  | [], _, .nil => .ok rfl
  | _ :: _, _ :: _, .cons h hs => by
    rw [contributions, contributions]
    refine (both_contribution hfile p h).bind fun one one' hone => ?_
    obtain ⟨hscope, harena⟩ := Contribution.mk.inj hone
    have hlength : one.arena.length = one'.arena.length := by
      simpa only [length_map] using congrArg List.length harena
    rw [hlength]
    refine (both_contributions hfile _ hs).bind fun more more' hmore => .ok ?_
    obtain ⟨hscope', harena'⟩ := Contribution.mk.inj hmore
    simp [View.contribution, View.scope_append, hscope, harena, hscope', harena']

end

end Reader

/-- **Sources whose trees look the same give drafts that look the same**, or both none. -/
theorem both_ofSource {v : View} (stem : String) {s s' : Source} (hfile : s.file = s'.file)
    (h : Reader.Rereads v (.ofSource s) (.ofSource s') s.tree s'.tree) :
    Both (fun d d' => v.draft d = v.draft d') (ofSource stem s) (ofSource stem s') := by
  have himports : (s.tree.all .importLine).map Reader.importLine =
      (s'.tree.all .importLine).map Reader.importLine :=
    map_eq_of_forall₂ ((h.all .importLine).imp fun _ _ hone => hone.2.importLine_eq)
  refine (Reader.both_contributions hfile _ h.children).bind fun all all' hall => .ok ?_
  obtain ⟨hscope, harena⟩ := Reader.Contribution.mk.inj hall
  simp only [View.draft, hfile, hscope, harena, himports]

end Draft

end MessageSchema
