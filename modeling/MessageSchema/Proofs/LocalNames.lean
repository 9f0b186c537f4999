/-
  Names through the local name of an import.

  The local name of an import stands in place of the file-level namespace of the
  imported file.  It comes before all that the importing file declares, so a name that
  starts with it leads into the imported file from everywhere.
-/
import MessageSchema.Proofs.RelatedDrafts

namespace MessageSchema

open List QualifiedName Text Draft

/-! ## Names as they are written -/

/-- A text with some of its double colons written as dots. -/
inductive Dotted : List Char → List Char → Prop
  | nil : Dotted [] []
  | cons (c : Char) {s t : List Char} : Dotted s t → Dotted (c :: s) (c :: t)
  | dot {s t : List Char} : Dotted s t → Dotted (':' :: ':' :: s) ('.' :: t)

variable {s t : List Char}

theorem Dotted.refl (s : List Char) : Dotted s s := by
  induction s with
  | nil => exact .nil
  | cons c s ih => exact .cons c ih

theorem Dotted.mem (h : Dotted s t) {c : Char} (hc : c ∈ t) : c = '.' ∨ c ∈ s := by
  induction h with
  | nil => cases hc
  | cons a _ ih =>
    rcases mem_cons.1 hc with rfl | hc
    · exact .inr mem_cons_self
    · exact (ih hc).imp_right (mem_cons_of_mem _)
  | dot _ ih =>
    rcases mem_cons.1 hc with rfl | hc
    · exact .inl rfl
    · exact (ih hc).imp_right fun h => mem_cons_of_mem _ (mem_cons_of_mem _ h)

theorem Dotted.dotsToColons (h : Dotted s t) (hs : ∀ c ∈ s, c ≠ '.') : dotsToColons t = s := by
  induction h with
  | nil => rfl
  | cons c _ ih =>
    rw [QualifiedName.dotsToColons, if_neg (hs c mem_cons_self),
      ih fun c' hc' => hs c' (mem_cons_of_mem _ hc')]
  | dot _ ih =>
    rw [QualifiedName.dotsToColons, if_pos rfl,
      ih fun c hc => hs c (mem_cons_of_mem _ (mem_cons_of_mem _ hc))]

theorem Dotted.withColons {name text : String} (h : Dotted name.toList text.toList)
    (hname : IsPlain name) : withColons text = name := by
  have hsqueeze : (squeeze text).toList = text.toList := by
    rw [squeeze, String.toList_ofList, filter_eq_self]
    intro c hc
    rcases h.mem hc with rfl | hc
    · decide
    · rw [(hname c hc).2]
      rfl
  rw [QualifiedName.withColons, hsqueeze, h.dotsToColons fun c hc => (hname c hc).1,
    String.ofList_toList]

namespace QualifiedName

theorem isQualified_colons (outer name : String) : isQualified (outer ++ "::" ++ name) = true := by
  have hlength := two_le_length_splitFrom [] outer.toList name.toList
  have hchars : (outer ++ "::" ++ name).toList = outer.toList ++ ':' :: ':' ::
    name.toList := by simp
  rw [isQualified, parts, split, length_map, hchars, bne_iff_ne]
  omega

theorem head_colons {outer : String} (houter : IsWord outer) (name : String) :
    head (outer ++ "::" ++ name) = outer := by
  have hchars : (outer ++ "::" ++ name).toList = outer.toList ++ ':' :: ':' ::
    name.toList := by simp
  have hword := splitFrom_word houter atColons_nameChar [] (':' :: ':' :: name.toList)
  rw [head, parts, split, headD_map_ofList, hchars, hword]
  simp [splitFrom, atColons]

theorem isPlain_colons {outer name : String} (houter : IsPlain outer) (hname : IsPlain name) :
    IsPlain (outer ++ "::" ++ name) := by
  have hcolons : IsPlain "::" := by
    intro c hc
    simp at hc
    subst hc
    decide
  exact isPlain_append_iff.2 ⟨isPlain_append_iff.2 ⟨houter, hcolons⟩, hname⟩

end QualifiedName

namespace Draft

variable {name home : String} {imports : List (String × Draft)}

/-- The local names of imports are words. -/
theorem isWord_localName {file text : String} {d : Draft} (h : read file text = .ok d) {i : Import}
    (hi : i ∈ d.imports) (hname : i.localName = some name) : IsWord name := by
  obtain ⟨s, hs, h⟩ := bind_eq_ok h
  obtain ⟨all, -, h⟩ := bind_eq_ok h
  cases h
  have hproper : s.tree.Proper := (Source.read_valid hs).mono fun t ht => shaped_of_mem_tokens ht
  obtain ⟨t, ht, rfl⟩ := mem_map.1 hi
  rw [Reader.importLine] at hname
  split at hname
  · obtain ⟨c, hc, rfl⟩ := Option.map_eq_some_iff.1 hname
    obtain ⟨hmem, cs, rfl⟩ := Tree.mem_of_find? hc
    exact ((hproper.child (Tree.mem_of_mem_all ht)).child hmem).isWord_image
  · cases hname

/-! ## Inside the file-level namespace -/

/-- A qualified name inside a namespace: what stands behind the namespace holds no dot and
    no blank. -/
def Inside (home q : String) : Prop := ∃ r, IsPlain r ∧ q = join (some home) r

theorem inside_join (hname : IsWord name) : Inside home (join (some home) name) :=
  ⟨name, isPlain_of_isWord hname, rfl⟩

theorem Inside.join {outer : String} (h : Inside home outer) (hname : IsWord name) :
    Inside home (join (some outer) name) := by
  obtain ⟨r, hr, rfl⟩ := h
  by_cases hhome : home = ""
  · refine ⟨QualifiedName.join (some r) name,
      isPlain_join_iff.2 ⟨hr, isPlain_of_isWord hname⟩, ?_⟩
    simp [hhome, QualifiedName.join]
  · refine ⟨r ++ "::" ++ name, isPlain_colons hr (isPlain_of_isWord hname), ?_⟩
    have hne : home ++ "::" ++ r ≠ "" := fun hempty => by simpa using congrArg String.toList hempty
    rw [QualifiedName.join, QualifiedName.join, QualifiedName.join, if_neg hhome,
      if_neg hhome, if_neg hne]
    simp only [String.append_assoc]

theorem Inside.isPlain {r : String} (h : Inside home (QualifiedName.join (some home) r)) :
    IsPlain r := by
  obtain ⟨r', hr', heq⟩ := h
  rwa [join_some_injective home heq]

/-- Below a namespace there are only names inside it, if all namespaces met there have words
    as names. -/
theorem inside_of_mem_visitsFrom {arena : List Namespace} {n : Nat} {site : Site}
    {around : List Site} (hsite : site.qualified = home ∨ Inside home site.qualified)
    {cs : List Nat} (hwords : ∀ u ∈ visitsFrom arena n (site :: around) cs, IsWord u.site.ns.name)
    {v : Visit} (hv : v ∈ visitsFrom arena n (site :: around) cs) :
    Inside home v.site.qualified := by
  induction n generalizing site around cs with
  | zero => cases hv
  | succ n ih =>
    obtain ⟨i, hi, ns, hns, hmeets⟩ := mem_visitsFrom_succ.1 hv
    have hword : IsWord ns.name := hwords _ (mem_visitsFrom_succ.2 ⟨i, hi, ns, hns, .inl rfl⟩)
    have hinside : Inside home (siteIn (site :: around) i ns).qualified := by
      show Inside home (join (some site.qualified) ns.name)
      rcases hsite with hsite | hsite
      · rw [hsite]
        exact inside_join hword
      · exact hsite.join hword
    rcases hmeets with rfl | hbelow
    · exact hinside
    · exact ih (.inr hinside)
        (fun u hu => hwords u (mem_visitsFrom_succ.2 ⟨i, hi, ns, hns, .inr hu⟩)) hbelow

/-- All namespaces of a wrapped file but the outermost have words as names. -/
theorem AsRead.isWord_wrap {raw : Draft} (h : raw.AsRead) {i j : Nat}
    (hroot : raw.wrap.top.children = [i]) {ns : Namespace} (hns : raw.wrap.arena[j]? = some ns)
    (hne : j ≠ i) : IsWord ns.name := by
  unfold wrap at hroot hns
  split at hns
  · exact h.isWord ns (mem_of_getElem? hns)
  · next hwrapped =>
    rw [if_neg hwrapped] at hroot
    cases hroot
    rw [getElem?_append] at hns
    split at hns
    · have hmem := mem_map_of_mem (f := fun ns : Namespace => ns.name) (mem_of_getElem? hns)
      rw [map_adopt fun _ _ => rfl] at hmem
      obtain ⟨read, hread, hname⟩ := mem_map.1 hmem
      rw [← hname]
      exact h.isWord read hread
    · next hlt =>
      have hlast := (List.getElem?_eq_some_iff.1 hns).1
      rw [length_adopt] at hlt hlast
      simp only [length_singleton] at hlast
      exact absurd (show j = raw.arena.length by omega) hne

section
variable {imports : List (String × Draft)} {raw d : Draft} (h : Refined imports raw d)
include h

theorem Refined.isWord_of_ne_root (hraw : raw.AsRead) {i j : Nat} (hroot : d.top.children = [i])
    {ns : Namespace} (hns : d.arena[j]? = some ns) (hne : j ≠ i) : IsWord ns.name := by
  have houtline := outline_getElem? (h.outline.trans (outline_useColons raw.wrap)) j
  rw [hns, Option.map_some] at houtline
  obtain ⟨ns', hns', heq⟩ := Option.map_eq_some_iff.1 houtline.symm
  rw [← (Prod.mk.inj heq).1]
  exact hraw.isWord_wrap
    ((show raw.wrap.top.children = d.top.children from h.children_top).trans hroot) hns' hne

/-- The file-level namespace of a refined draft comes first, and all others are inside it. -/
theorem Refined.inside_of_mem_walk (hraw : raw.AsRead) {v : Visit} (hv : v ∈ d.walk) :
    v.site.qualified = d.stem ∨ Inside d.stem v.site.qualified := by
  obtain ⟨i, root, hchildren, hget, hname⟩ := exists_root_of_isWrapped h.isWrapped
  obtain ⟨n, hn⟩ : ∃ n, d.arena.length = n + 1 :=
    Nat.exists_eq_add_one.2 (Nat.zero_lt_of_lt (List.getElem?_eq_some_iff.1 hget).1)
  have hwalk : d.walk = ⟨siteIn [] i root, []⟩ :: visitsFrom d.arena n [siteIn [] i root]
      root.scope.children := by
    rw [walk, hchildren, hn, visitsFrom, flatMap_cons, hget, flatMap_nil, append_nil]
    rfl
  have hnodup := (h.covered hraw).nodup
  rw [hwalk, map_cons, nodup_cons] at hnodup
  rw [hwalk] at hv
  rcases mem_cons.1 hv with rfl | hbelow
  · exact .inl hname
  · refine .inr (inside_of_mem_visitsFrom (.inl hname) (fun u hu => ?_) hbelow)
    have hu' : u ∈ d.walk := hwalk ▸ mem_cons_of_mem _ hu
    -- the walk does not come back to the outermost namespace
    refine h.isWord_of_ne_root hraw hchildren (getElem?_site_of_mem_walk hu') fun heq => hnodup.1 ?_
    have hmem := mem_map_of_mem (f := fun u : Visit => u.site.index) hu
    rwa [heq] at hmem

/-- **All that a refined draft declares is inside its file-level namespace.** -/
theorem Refined.inside (hraw : raw.AsRead) {q : String} (hq : d.Declares q) : Inside d.stem q := by
  obtain ⟨x, hx⟩ := hq
  obtain ⟨v, hv, hmem, rfl⟩ := Model.mem_declarations.1 hx
  have hword := h.isWord_name hraw hv hmem
  rcases h.inside_of_mem_walk hraw hv with hroot | hinside
  · rw [hroot]
    exact inside_join hword
  · exact hinside.join hword

theorem Refined.mem_entities_of_declares {q : String} (hq : d.Declares q) :
    q ∈ d.symbols.entities := by
  obtain ⟨x, hx⟩ := hq
  obtain ⟨v, hv, hmem, rfl⟩ := Model.mem_declarations.1 hx
  refine (mem_entities_iff h.top).2 ⟨v, hv, x.name, ?_, rfl⟩
  exact mem_declared_iff.2 (.inl (mem_map_of_mem hmem))

theorem Refined.outward_eq (hraw : raw.AsRead) {r : String} (hr : d.Declares (join (some d.stem) r))
    (name : String) : (d.namedImport name).outward (join (some d.stem) r) = name ++ "::" ++ r := by
  have hstrip : (strip? d.stem (join (some d.stem) r)).getD
      (join (some d.stem) r) = r := by
    by_cases hstem : d.stem = ""
    · rw [h.strip?_eq_none hraw hstem (h.mem_entities_of_declares hr), Option.getD_none, join,
        if_pos hstem]
    · rw [strip?_eq_some_iff.2 (by rw [join, if_neg hstem]), Option.getD_some]
  exact congrArg (name ++ "::" ++ ·) hstrip

end

/-! ## Lookups -/

variable {d x : Draft} {i : Import}

theorem find?_named (hx : (name, x) ∈ imports) (hunique : ∀ y, (name, y) ∈ imports → y = x)
    (hi : i ∈ d.imports) (hname : i.localName = some name) :
    ((d.surroundings imports).named.find? fun j => j.localName = name) =
      some (x.namedImport name) := by
  have hlocal : d.imports.any (·.localName = some name) = true :=
    any_eq_true.2 ⟨i, hi, decide_eq_true hname⟩
  have hmem : x.namedImport name ∈ (d.surroundings imports).named :=
    mem_map.2 ⟨(name, x), mem_filter.2 ⟨hx, hlocal⟩, rfl⟩
  have hsome : ((d.surroundings imports).named.find? fun j => j.localName = name).isSome = true :=
    find?_isSome.2 ⟨_, hmem, decide_eq_true rfl⟩
  obtain ⟨j, hj⟩ := Option.isSome_iff_exists.1 hsome
  obtain ⟨⟨k, y⟩, hy, rfl⟩ := mem_map.1 (mem_of_find?_eq_some hj)
  obtain rfl : k = name := by simpa using find?_some hj
  rw [hj, hunique y (mem_filter.1 hy).1]
  rfl

/-- **A local name leads into its import** from everywhere, whatever else has that name. -/
theorem Surroundings.resolve_localName (hx : (name, x) ∈ imports)
    (hunique : ∀ y, (name, y) ∈ imports → y = x) (hi : i ∈ d.imports)
    (hname : i.localName = some name) (hword : IsWord name) (hapart : x.Apart) {q r : String}
    (hq : q ∈ x.symbols.entities) (hout : (x.namedImport name).outward q = name ++ "::" ++ r)
    (enclosing : List Region) :
    (d.surroundings imports).resolve enclosing ⟨name ++ "::" ++ r, false⟩ = ⟨q, true⟩ := by
  have hlookup : (d.surroundings imports).lookup enclosing (name ++ "::" ++ r) = some q := by
    rw [lookup, if_pos (isQualified_colons name r), lookupQualified]
    simp only [head_colons hword, find?_named hx hunique hi hname, Option.bind_some,
      hapart.find?_eq_some_iff.2 ⟨hq, hout⟩]
    rfl
  rw [resolve, if_neg Bool.false_ne_true, hlookup]

/-- A namespace with the names in it changed, and with its inline types promoted. -/
structure Namespace.Rewritten (rename : TypeName → TypeName) (ns ns' : Namespace) : Prop where
  name : ns'.name = ns.name
  messages : ∃ home, ns'.scope.messages = ns.scope.messages.map fun m =>
    (m.mapNames rename).lifted home
  enums : ∃ promoted, ns'.scope.enums = ns.scope.enums.map (Enumeration.mapNames rename) ++ promoted

theorem Refined.rewritten {raw : Draft} (h : Refined imports raw d) (hraw : raw.AsRead) {k : Nat}
    {ns : Namespace} (hns : raw.wrap.arena[k]? = some ns) :
    ∃ ns' enclosing, d.arena[k]? = some ns' ∧ ns.Rewritten
      (fun n => (raw.wrap.useColons.surroundings imports).resolve enclosing n.useColons) ns' := by
  obtain ⟨-, u, -, -, -, hfinal⟩ := h.passes hraw hns
  refine ⟨_, u.enclosing.map Site.region, hfinal, rfl, ⟨some u.site.qualified, ?_⟩, _, rfl⟩
  simp only [Scope.mapNames, Scope.promoted, map_map]
  rfl

end Draft

/-! ## Workspaces -/

namespace Workspace

/-- What is attached under a local name. -/
theorem mem_attachments_localName {w : Workspace} {raw : Draft}
    (hattached : (w.attaching raw).2 = none) {i : Import} (hi : i ∈ raw.imports) {name : String}
    (hname : i.localName = some name) {x : Draft} (hx : w.draftAt? (w.target raw i) = some x) :
    (name, x) ∈ w.attachments (w.attaching raw).1 ∧
      ∀ y, (name, y) ∈ w.attachments (w.attaching raw).1 → y = x := by
  obtain ⟨id, hid, hget⟩ := Option.bind_eq_some_iff.1 hx
  have hkey : i.key = name := by rw [Import.key, hname, Option.getD_some]
  obtain ⟨hkeys, htable⟩ := (attachAll_from_eq_none_iff [] List.Pairwise.nil).1
    (show attachAll raw.file (w.imported? raw) raw.imports (seenOf []) .empty =
      ((w.attaching raw).1, none) from Prod.ext rfl hattached)
  have hmem : (name, id) ∈ foundFor (w.imported? raw) raw.imports := by
    refine mem_filterMap.2 ⟨i, hi, ?_⟩
    rw [imported?, hid, Option.map_some, hkey]
  -- no other import has that key
  have hfind : (w.attaching raw).1.find? name = some id := by
    rw [htable]
    refine Table.find?_foldl_insert_of_mem (x := (name, id)) hmem fun y hy heq => ?_
    obtain ⟨j, hj, hfound⟩ := mem_filterMap.1 hy
    obtain ⟨id', hid', rfl⟩ := Option.map_eq_some_iff.1 hfound
    rcases hkeys.eq_or (mem_append_right [] hj) (mem_append_right [] hi) (heq.trans hkey.symm)
      with rfl | ⟨-, hnone⟩
    · exact Option.some.inj (hid'.symm.trans hid)
    · rw [hname] at hnone
      cases hnone
  refine ⟨mem_filterMap.2 ⟨(name, id), (Table.mem_entries_iff _ _ _).2 hfind, by rw [hget]; rfl⟩,
    fun y hy => ?_⟩
  obtain ⟨⟨k, id'⟩, hentry, hmap⟩ := mem_filterMap.1 hy
  obtain ⟨z, hz, heq⟩ := Option.map_eq_some_iff.1 hmap
  cases heq
  rw [(Table.mem_entries_iff _ _ _).1 hentry, Option.some.injEq] at hfind
  rw [hfind, hget] at hz
  exact (Option.some.inj hz).symm

/-- **A local name leads to all of its import.**  Let the passes run through files that have
    just been read, one of which imports another under a local name.  All that the imported
    file declares after the passes, the promoted types with the rest, is inside its file-level
    namespace.  The importing file keeps its namespaces and declarations, and in each of its
    namespaces the names are changed such that one that is written as the local name and what
    follows the file-level namespace, with double colons or dots, becomes the full qualified
    name of that declaration, whatever the file itself declares.  Different names stay
    different. -/
theorem refineAll_localName {w w' : Workspace} (hw : w.Fresh) {ids : List DraftId}
    (h : w.refineAll = (w', .ok ids)) {p : String} {raw : Draft} (hraw : w.draftAt? p = some raw)
    {i : Draft.Import} (hi : i ∈ raw.imports) {name : String} (hname : i.localName = some name)
    {x : Draft} (hx : w'.draftAt? (w.target raw i) = some x) :
    (∀ q, x.Declares q → ∃ r, q = QualifiedName.join (some x.stem) r) ∧
    ∃ d, w'.draftAt? p = some d ∧ d.arena.length = raw.wrap.arena.length ∧
      ∀ (k : Nat) (ns : Draft.Namespace), raw.wrap.arena[k]? = some ns → ∃ ns' rename, d.arena[k]? =
        some ns' ∧ ns.Rewritten rename ns' ∧
        (∀ r (text : String), x.Declares (QualifiedName.join (some x.stem) r) →
          Dotted (name ++ "::" ++ r).toList text.toList →
          rename ⟨text, false⟩ = ⟨QualifiedName.join (some x.stem) r, true⟩) ∧
        ∀ r r', x.Declares (QualifiedName.join (some x.stem) r) →
          x.Declares (QualifiedName.join (some x.stem) r') →
          rename ⟨name ++ "::" ++ r, false⟩ = rename ⟨name ++ "::" ++ r', false⟩ → r = r' := by
  obtain ⟨hsame, hall⟩ := hw.asRead.attains_refineAll h
  obtain ⟨rawx, hrawx, hrefinedx⟩ := (isRefined_refineAll hw h).refined hx
  -- the imported file
  have hinside : ∀ q, x.Declares q → Inside x.stem q := fun q hq => hrefinedx.inside hrawx hq
  have hentities : ∀ q, x.Declares q → q ∈ x.symbols.entities :=
    fun q hq => hrefinedx.mem_entities_of_declares hq
  have hapart : x.detach.Apart := hrefinedx.apart hrawx
  refine ⟨fun q hq => (hinside q hq).imp fun r hr => hr.2, ?_⟩
  -- the importing file
  obtain ⟨id, hid, hget⟩ := Option.bind_eq_some_iff.1 hraw
  obtain ⟨text, raw', hread, hraw'⟩ := hw p id hid
  obtain rfl := Option.some.inj (hget.symm.trans hraw')
  have hword : IsWord name := isWord_localName hread hi hname
  obtain ⟨d, hd⟩ : ∃ d, w'.draftAt? p = some d := by
    have hlt : id < w'.drafts.length := hsame.length ▸ (List.getElem?_eq_some_iff.1 hget).1
    refine ⟨w'.drafts[id], ?_⟩
    rw [draftAt?, hsame.registry, hid]
    exact getElem?_eq_getElem hlt
  obtain ⟨raw', d', hraw', hasRead, -, ⟨hattached, hrefines⟩, hdd'⟩ := hall p d hd
  obtain rfl := Option.some.inj (hraw.symm.trans hraw')
  have hrefined := hrefines.refined hasRead
  have htarget : w'.draftAt? (w'.target raw i) = some x := by
    rw [target, hsame.extension]
    exact hx
  obtain ⟨hmem, hunique⟩ := mem_attachments_localName hattached hi hname htarget
  have hi' : i ∈ raw.wrap.useColons.imports := by
    show i ∈ raw.wrap.imports
    rwa [wrap_imports]
  have harena : d.arena = d'.arena := by rw [hdd']
  refine ⟨d, hd, ?_, fun k ns hns => ?_⟩
  · rw [harena, length_eq_of_outline_eq (hrefined.outline.trans (outline_useColons _))]
  · obtain ⟨ns', enclosing, hns', hrewritten⟩ := hrefined.rewritten hasRead hns
    have hrename : ∀ r (text : String), x.Declares (QualifiedName.join (some x.stem) r) →
        Dotted (name ++ "::" ++ r).toList text.toList →
        (raw.wrap.useColons.surroundings (w'.attachments (w'.attaching raw).1)).resolve enclosing
          (TypeName.useColons ⟨text, false⟩) = ⟨QualifiedName.join (some x.stem) r, true⟩ := by
      intro r text hr htext
      have hplain : QualifiedName.IsPlain (name ++ "::" ++ r) :=
        QualifiedName.isPlain_colons (QualifiedName.isPlain_of_isWord hword) (hinside _ hr).isPlain
      have htext : TypeName.useColons ⟨text, false⟩ = ⟨name ++ "::" ++ r, false⟩ := by
        rw [TypeName.useColons, htext.withColons hplain]
      rw [htext]
      exact Surroundings.resolve_localName hmem hunique hi' hname hword hapart (hentities _ hr)
        (hrefinedx.outward_eq hrawx hr name) enclosing
    refine ⟨ns', _, harena ▸ hns', hrewritten, hrename, fun r r' hr hr' heq => ?_⟩
    rw [hrename r _ hr (.refl _), hrename r' _ hr' (.refl _)] at heq
    exact QualifiedName.join_some_injective _ (TypeName.mk.inj heq).1

/-- A message `L` in a file that imports another one as `L`, with a field of a type that
    is written inline there. -/
def ofLocalName : Loading × Option Interruption :=
  Loading.run ⟨Table.empty |>.insert "/x.def" "message M\x7bf:enum\x7bA\x7d\x7d", [], id⟩ "/r.def"
    "import \"x\" as L message L\x7ba:L.M_f\x7d" ⟨.empty ".def", []⟩

theorem refineAll_localName_promoted : ∃ w ids raw x d ns ns' rename,
    ofLocalName.1.workspace.refineAll = (w, .ok ids) ∧
      ofLocalName.1.workspace.draftAt? "/r.def" = some raw ∧
    w.draftAt? "/x.def" = some x ∧ w.draftAt? "/r.def" = some d ∧ raw.wrap.arena = [ns] ∧
      d.arena[0]? = some ns' ∧
    ns.scope.declared = ["L"] ∧ ns.scope.mentions.map (·.name) = [⟨"L.M_f", false⟩] ∧
      x.Declares "x::M_f" ∧
    ns.Rewritten rename ns' ∧ rename ⟨"L.M_f", false⟩ = ⟨"x::M_f", true⟩ := by
  have hall : (ofLocalName.2.isNone && ofLocalName.1.workspace.refineAll.2.toOption.isSome) = true ∧
      (ofLocalName.1.workspace.draftAt? "/r.def").map (fun raw =>
        (raw.imports.map fun i => (i.localName, ofLocalName.1.workspace.target raw i),
          raw.wrap.arena.map fun ns => (ns.scope.declared, ns.scope.mentions.map (·.name)))) =
        some ([(some "L", "/x.def")], [(["L"], [⟨"L.M_f", false⟩])]) ∧
      (ofLocalName.1.workspace.refineAll.1.draftAt? "/x.def").map (fun x =>
        x.stem :: (Model.declarations x).map Prod.fst) = some ["x", "x::M", "x::M_f"] := by
    decide +kernel
  rcases hload : ofLocalName with ⟨l, stop⟩
  rw [hload] at hall
  simp only [Bool.and_eq_true] at hall
  obtain ⟨⟨hend, hrefine⟩, hdraft, hdraftx⟩ := hall
  obtain rfl : stop = none := Option.isNone_iff_eq_none.1 hend
  have hfresh : l.workspace.Fresh := fresh_run hload
  rcases hrun : l.workspace.refineAll with ⟨w, result⟩
  rw [hrun] at hrefine hdraftx
  obtain ⟨raw, hraw, hboth⟩ := Option.map_eq_some_iff.1 hdraft
  obtain ⟨himports, harena⟩ := Prod.mk.inj hboth
  obtain ⟨x, hx, hnamed⟩ := Option.map_eq_some_iff.1 hdraftx
  obtain ⟨hstem, hdeclared⟩ := cons.inj hnamed
  obtain ⟨i, hi, hlocal⟩ := mem_map.1 (himports ▸ mem_singleton_self _)
  obtain ⟨hname, htarget⟩ := Prod.mk.inj hlocal
  obtain ⟨ns, hns⟩ : ∃ ns, raw.wrap.arena = [ns] :=
    length_eq_one_iff.1 (by simpa using congrArg List.length harena)
  obtain ⟨hnames, hmentions⟩ : ns.scope.declared = ["L"] ∧ ns.scope.mentions.map (·.name) =
      [⟨"L.M_f", false⟩] := by
    simpa [hns] using harena
  have hM : x.Declares (join (some x.stem) "M_f") := by
    have hmem : "x::M_f" ∈ (Model.declarations x).map Prod.fst := by
      rw [hdeclared]
      simp
    obtain ⟨⟨q, y⟩, hy, rfl⟩ := mem_map.1 hmem
    exact ⟨y, by rw [hstem]; exact hy⟩
  cases result with
  | error fault => cases hrefine
  | ok ids =>
    obtain ⟨-, d, hd, -, hspaces⟩ :=
      refineAll_localName hfresh hrun hraw hi hname (by rw [htarget]; exact hx)
    obtain ⟨ns', rename, hns', hrewritten, hrename, -⟩ := hspaces 0 ns (by rw [hns]; rfl)
    have hresolved := hrename "M_f" "L.M_f" hM (.cons 'L' (.dot (.refl _)))
    rw [hstem] at hM hresolved
    exact ⟨w, ids, raw, x, d, ns, ns', rename, rfl, hraw, hx, hd, hns, hns', hnames, hmentions, hM,
      hrewritten, hresolved⟩

end Workspace

end MessageSchema
