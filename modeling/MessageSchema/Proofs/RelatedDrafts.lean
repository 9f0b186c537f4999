/-
  Drafts that are alike.

  A likeness is a relation between namespaces as they are read, under which they declare
  the same names, and their inline types can be promoted in both or in neither.  Then the
  passes run through drafts with like namespaces, or through neither.

  * `Refines.matched`: the passes on like drafts;
  * `Workspace.Related.refineAll`: the passes on all drafts of a workspace.
-/
import MessageSchema.Proofs.Idempotence
import MessageSchema.Proofs.Marks

namespace MessageSchema

open List QualifiedName Draft Workspace

namespace Draft

/-! ## Changing names twice -/

theorem FieldType.mapNames_mapNames (f g : TypeName → TypeName) (t : FieldType) :
    (t.mapNames f).mapNames g = t.mapNames (g ∘ f) := by
  have hscalar : ∀ s : ScalarType, mapScalar g (mapScalar f s) = mapScalar (g ∘ f) s := by
    intro s
    cases s <;> rfl
  have helement : ∀ e : ElementType, mapElement g (mapElement f e) = mapElement (g ∘ f) e := by
    intro e
    cases e with
    | scalar s => rw [mapElement, mapElement, hscalar, mapElement]
    | inline kind values => rfl
    | compound base components => rw [mapElement, mapElement, hscalar, mapElement]
  induction t with
  | element e => rw [mapNames, mapNames, helement, mapNames]
  | array e => rw [mapNames, mapNames, helement, mapNames]
  | map key value ih => rw [mapNames, mapNames, hscalar, ih, mapNames]

theorem Message.mapNames_mapNames (f g : TypeName → TypeName) (m : Message) :
    (m.mapNames f).mapNames g = m.mapNames (g ∘ f) := by
  simp [mapNames, Function.comp_def, FieldType.mapNames_mapNames]

theorem Enumeration.mapNames_mapNames (f g : TypeName → TypeName) (e : Enumeration) :
    (e.mapNames f).mapNames g = e.mapNames (g ∘ f) := by
  simp [mapNames]

theorem Scope.mapNames_mapNames (f g : TypeName → TypeName) (s : Scope) :
    (s.mapNames f).mapNames g = s.mapNames (g ∘ f) := by
  simp [mapNames, Function.comp_def, Message.mapNames_mapNames, Enumeration.mapNames_mapNames]

/-! ## The passes -/

/-- The names of what a scope in the namespace `q` declares lead there. -/
def Scope.Finds (s : Scope) (q : String) (g : TypeName → TypeName) : Prop :=
  ∀ n ∈ s.declared, g ⟨n, false⟩ = ⟨join (some q) n, true⟩

/-- A relation between namespaces as they are read.  They declare the same names, also
    when the namespace of the file takes them in, and their inline types can be promoted. -/
structure Namespace.Likeness (P : Namespace → Namespace → Prop) : Prop where
  same : ∀ {m n}, P m n → m.Same n
  declaresNothing : ∀ {m n}, P m n → m.scope.declaresNothing = n.scope.declaresNothing
  adopt : ∀ {m n} parent, P m n → P { m with parent } { n with parent }
  moveTo : ∀ {m n}, P m n →
    P { m with scope := m.scope.moveTo m.name } { n with scope := n.scope.moveTo m.name }
  promotable : ∀ {m n}, P m n → m.scope.Promotable → n.scope.Promotable

/-- What the passes make of two namespaces. -/
inductive Namespace.Matched (P : Namespace → Namespace → Prop) : Namespace → Namespace → Prop
  | intro {m n g q} : P m n → m.scope.Finds q g → m.scope.Promotable →
      Matched P { m with qualified := some q, scope := (m.scope.mapNames g).promoted (some q) }
        { n with qualified := some q, scope := (n.scope.mapNames g).promoted (some q) }

/-- A file as a namespace. -/
def outermost (d : Draft) : Namespace := ⟨.none, d.stem, none, none, d.file, 1, d.top⟩

/-- Two drafts whose namespaces are like each other one by one. -/
structure Related (P : Namespace → Namespace → Prop) (d e : Draft) : Prop where
  top : P d.outermost e.outermost
  arena : Forall₂ P d.arena e.arena
  imports : d.imports.map Import.link = e.imports.map Import.link
  rest : e = { d with top := e.top, arena := e.arena, imports := e.imports }

/-- What the passes make of two drafts. -/
structure Matched (P : Namespace → Namespace → Prop) (d e : Draft) : Prop where
  same : d.Same e
  arena : Forall₂ (Namespace.Matched P) d.arena e.arena

variable {P : Namespace → Namespace → Prop} (hP : Namespace.Likeness P)

theorem Scope.Promotable.mem_declared_promoted {s : Scope} (h : s.Promotable) (home : Option String)
    {n : String} : n ∈ (s.promoted home).declared ↔ n ∈ s.declared :=
  Scope.mem_declared_promote (Scope.promote_eq_iff.2 ⟨h, rfl⟩)

theorem forall₂_adopt {R : Namespace → Namespace → Prop}
    (hR : ∀ m n parent, R m n → R { m with parent } { n with parent }) {a b : List Namespace}
    (h : Forall₂ R a b) (parent : Nat) (children : List Nat) :
    Forall₂ R (adopt parent children a) (adopt parent children b) := by
  induction children generalizing a b with
  | nil => exact h
  | cons i children ih => exact ih (forall₂_modify h (fun m n hmn => hR m n _ hmn) i)

include hP in
theorem Namespace.Matched.same {m n : Namespace} (h : m.Matched P n) : m.Same n := by
  obtain ⟨hmn, -, hm⟩ := h
  have hsame := hP.same hmn
  refine ⟨⟨hsame.scope.children, fun k => ?_⟩, hsame.name⟩
  rw [((Scope.promotable_mapNames _ _).2 hm).mem_declared_promoted,
    ((Scope.promotable_mapNames _ _).2 (hP.promotable hmn hm)).mem_declared_promoted]
  exact (hsame.scope.mapNames _ _).declared k

namespace Related

variable {d e : Draft} (h : d.Related P e)
include hP h

theorem same : d.Same e :=
  ⟨(hP.same h.top).scope, h.arena.imp fun _ _ => hP.same, h.imports, h.rest⟩

theorem wrap : Forall₂ P d.wrap.arena e.wrap.arena ∧ d.wrap.Same e.wrap := by
  have hsame := h.same hP
  have hnothing : e.top.declaresNothing = d.top.declaresNothing := (hP.declaresNothing h.top).symm
  rw [Draft.wrap, Draft.wrap, Draft.isWrapped, Draft.isWrapped, hsame.rootIndex?, hnothing]
  split
  · exact ⟨h.arena, hsame⟩
  · have hroot := hP.moveTo h.top
    have hadopt :=
      forall₂_adopt (fun _ _ parent => hP.adopt parent) h.arena d.arena.length d.top.children
    have harena := rel_append hadopt (.cons hroot .nil)
    simp only [outermost, hsame.stem, hsame.file] at harena
    rw [← h.arena.length_eq, ← hsame.top.children, hsame.stem, hsame.file]
    refine ⟨harena, ⟨rfl, fun _ => Iff.rfl⟩, harena.imp fun _ _ => hP.same, h.imports, ?_⟩
    rw [h.rest]

end Related

variable {imports : List (String × Draft)}

/-- A word that is declared in the innermost namespace denotes what is declared there. -/
theorem Surroundings.resolve_word (s : Surroundings) {q n : String} {names : List String}
    (hn : n ∈ names) (hword : IsWord n) (rs : List Region) :
    s.resolve (⟨some q, names⟩ :: rs) ⟨n, false⟩ = ⟨join (some q) n, true⟩ := by
  have hplain : isQualified n = false := by
    have hparts := splitFrom_word hword atColons_nameChar [] []
    rw [append_nil] at hparts
    simp [isQualified, parts, Text.split, hparts, Text.splitFrom]
  have hfind : Region.find? ⟨some q, names⟩ n = some (join (some q) n) := by
    simp [Region.find?, hn]
  simp [resolve, lookup, hplain, lookupPlain, hfind]

/-- A namespace of a file, and what the passes make of it. -/
theorem Refined.passes {raw d : Draft} (hraw : raw.AsRead)
    (h : Refined imports raw d) {k : Nat} {ns : Namespace} (hns : raw.wrap.arena[k]? = some ns) :
    ns.scope.Promotable ∧ ∃ u ∈ raw.wrap.useColons.walk, u.site.index = k ∧
      ns.scope.declared = u.site.ns.scope.declared ∧
      d.arena[k]? = some { ns with
        qualified := some u.site.qualified
        scope :=
        (ns.scope.mapNames
        ((raw.wrap.useColons.surroundings imports).resolve (u.enclosing.map Site.region) ∘
          TypeName.useColons)).promoted (some u.site.qualified) } := by
  have hget : raw.wrap.useColons.arena[k]? =
      some { ns with scope := ns.scope.mapNames TypeName.useColons } := by
    rw [useColons, getElem?_map, hns, Option.map_some]
  obtain ⟨u, hu, rfl, huns⟩ := hraw.covered_useColons.exists_visit hget
  obtain ⟨s, hs, hfinal⟩ := h.visited u hu
  rw [Visit.resolved, huns, Scope.mapNames_mapNames, Scope.promote_eq_iff,
    Scope.promotable_mapNames] at hs
  obtain ⟨hpromotable, rfl⟩ := hs
  rw [huns] at hfinal
  exact ⟨hpromotable, u, hu, rfl, by rw [huns, Scope.declared_mapNames], hfinal⟩

theorem promoteAt_eq_none {is : List Nat} (hnd : is.Nodup) {arena : List Namespace}
    (h : ∀ i ∈ is, ∀ ns, arena[i]? = some ns → (ns.scope.promote ns.qualified).2 = none) :
    (promoteAt is arena).2 = none := by
  induction is generalizing arena with
  | nil => rfl
  | cons i is ih =>
    obtain ⟨hi, his⟩ := nodup_cons.1 hnd
    obtain ⟨hone, hrest⟩ := forall_mem_cons.1 h
    rw [promoteAt]
    split
    · exact ih his hrest
    · next ns hns =>
      simp only [hone ns hns]
      refine ih his fun j hj ns' hns' => hrest j hj ns' ?_
      rwa [getElem?_set_ne (by rintro rfl; exact hi hj)] at hns'

/-- The passes run through a file when the inline types of its namespaces can be promoted. -/
theorem AsRead.exists_refines {raw : Draft} (hraw : raw.AsRead)
    (h : ∀ ns ∈ raw.wrap.arena, ns.scope.Promotable) : ∃ d, Refines imports raw d := by
  have hcov := hraw.covered_useColons
  have hwrapped : raw.wrap.useColons.isWrapped = true := by rw [isWrapped_useColons, isWrapped_wrap]
  obtain ⟨e, he⟩ : ∃ e, raw.wrap.useColons.resolve imports = .ok e := ⟨_, if_pos hwrapped⟩
  have ho := outline_resolve he
  obtain ⟨-, heq⟩ := resolve_eq he
  have htop : e.top = raw.wrap.useColons.top := by rw [heq]
  have hecov : e.Covered := hcov.congr (congrArg Scope.children htop).symm ho.symm
  have hpromote : (promoteAt (e.walk.map (·.site.index)) e.arena).2 = none := by
    refine promoteAt_eq_none hecov.nodup fun i hi ns hns => ?_
    obtain ⟨hlt, -⟩ := List.getElem?_eq_some_iff.1 hns
    rw [length_eq_of_outline_eq ho] at hlt
    obtain ⟨v, hv, rfl, -⟩ := hcov.exists_visit (getElem?_eq_getElem hlt)
    rw [getElem?_resolve hcov he hv] at hns
    cases hns
    obtain ⟨m, hm, hsite⟩ := mem_map.1 (mem_of_getElem? (getElem?_site_of_mem_walk hv))
    rw [Visit.resolved, ← hsite, Scope.mapNames_mapNames]
    exact congrArg Prod.snd
      (Scope.promote_eq_iff.2 ⟨(Scope.promotable_mapNames _ _).2 (h m hm), rfl⟩)
  refine ⟨_, e, he, Prod.ext rfl ?_⟩
  have hnothing : e.top.declaresNothing = true := by
    rw [htop]; exact (Bool.and_eq_true_iff.1 hwrapped).1
  rw [promote, Scope.promote_of_declaresNothing hnothing none]
  exact hpromote

include hP in
/-- **Where the passes run through a file, they run through one that is like it**, and what
    they make of the two is alike. -/
theorem Refines.matched {is js : List (String × Draft)} {raw raw' d : Draft} (hraw : raw.AsRead)
    (hraw' : raw'.AsRead) (h : Refines is raw d) (hrelated : raw.Related P raw')
    (his : Forall₂ (fun i j => i.1 = j.1 ∧ i.2.Apart ∧ i.2.Same j.2) is js) :
    ∃ d', Refines js raw' d' ∧ d.Matched P d' := by
  obtain ⟨harena, hwrap⟩ := hrelated.wrap hP
  have hsame := hwrap.useColons
  have hrefined := h.refined hraw
  -- names of a namespace denote the same in both files
  have hnames : ∀ {u v : Visit}, u ∈ raw.wrap.useColons.walk → v ∈ raw'.wrap.useColons.walk →
      u.site.index = v.site.index → u.site.qualified = v.site.qualified ∧
        (raw.wrap.useColons.surroundings is).resolve (u.enclosing.map Site.region) =
          (raw'.wrap.useColons.surroundings js).resolve (v.enclosing.map Site.region) := by
    intro u v hu hv hindex
    obtain ⟨w, hw, hroute⟩ := exists_right_of_mem hsame.walk hu
    obtain rfl : w = v :=
      inj_on_of_nodup_map hraw'.covered_useColons.nodup hw hv
        ((Visit.site_of_route hroute).1.symm.trans hindex)
    exact ⟨(Visit.site_of_route hroute).2,
      (hsame.surroundings his).resolve (hsame.regions hu hv hroute)⟩
  have hrefines : ∃ d', Refines js raw' d' := hraw'.exists_refines fun n hn => by
    obtain ⟨m, hm, hmn⟩ := exists_left_of_mem harena hn
    obtain ⟨k, hk⟩ := getElem?_of_mem hm
    exact hP.promotable hmn (hrefined.passes hraw hk).1
  obtain ⟨d', hrefines⟩ := hrefines
  have hrefined' := hrefines.refined hraw'
  have hlength : d.arena.length = d'.arena.length := by
    rw [length_eq_of_outline_eq hrefined.outline, length_eq_of_outline_eq hrefined'.outline,
      hsame.arena.length_eq]
  have harenas : Forall₂ (Namespace.Matched P) d.arena d'.arena := by
    refine forall₂_of_getElem? hlength fun k x hx => ?_
    obtain ⟨hm, -⟩ | ⟨m, n, hm, hn, hmn⟩ := rel_cases (rel_getElem? harena k)
    · have hout : d.arena.length ≤ k := by
        rw [length_eq_of_outline_eq (hrefined.outline.trans (outline_useColons _)),
          ← getElem?_eq_none_iff]
        exact hm
      rw [getElem?_eq_none hout] at hx
      cases hx
    · obtain ⟨hpromotable, u, hu, rfl, hdeclared, hd⟩ := hrefined.passes hraw hm
      obtain ⟨-, v, hv, hindex, -, hd'⟩ := hrefined'.passes hraw' hn
      obtain ⟨hqualified, hresolve⟩ := hnames hu hv hindex.symm
      rw [← hqualified, ← hresolve] at hd'
      cases hx.symm.trans hd
      refine ⟨_, hd', .intro hmn (fun name hname => ?_) hpromotable⟩
      have hword := (hraw.arena_wrap m (mem_of_getElem? hm)).isWord_declared hname
      rw [hdeclared] at hname
      have hplain := withColons_eq_self_iff.2 (isPlain_of_isWord hword)
      rw [Function.comp, TypeName.useColons, hplain, Visit.enclosing, map_cons]
      exact Surroundings.resolve_word _ hname hword _
  have hd := hrefined.rest
  have hd' := hrefined'.rest
  refine ⟨d', hrefines, ⟨?_, harenas.imp fun _ _ => Namespace.Matched.same hP, ?_, ?_⟩, harenas⟩
  · rw [hd, hd']
    exact hsame.top
  · rw [hd, hd']
    exact hsame.imports
  · rw [hd, hd', hsame.rest]

end Draft

/-! ## Refined drafts keep their declarations apart -/

namespace QualifiedName

variable {outer name : String}

theorem strip?_eq_some_iff {r : String} :
    strip? outer name = some r ↔ name = outer ++ "::" ++ r := by
  have hcolons : (outer ++ "::" ++ r).toList = outer.toList ++ [':', ':'] ++ r.toList := by
    simp [String.toList_append]
  rw [← String.toList_inj, hcolons, strip?, Option.ite_none_right_eq_some, isPrefixOf_iff_prefix]
  constructor
  · rintro ⟨⟨t, ht⟩, hr⟩
    cases hr
    rw [← ht, drop_left, String.toList_ofList]
  · intro hname
    rw [hname, drop_left, String.ofList_toList]
    exact ⟨prefix_append _ _, rfl⟩

/-- A name does not begin with a colon if those that it is joined from do not. -/
theorem head?_join_ne_colon (houter : outer.toList.head? ≠ some ':') (hname : IsWord name) :
    (join (some outer) name).toList.head? ≠ some ':' := by
  by_cases hempty : outer = ""
  · rw [join, if_pos hempty]
    exact fun hhead => hname.not_mem (by decide) (mem_of_head? hhead)
  · rw [toList_join_some hempty, head?_append]
    cases hhead : outer.toList.head? with
    | none => exact absurd (String.toList_eq_nil_iff.1 (head?_eq_none_iff.1 hhead)) hempty
    | some c =>
      rw [hhead] at houter
      exact houter

end QualifiedName

namespace Draft

/-- What holds of the names of the outermost namespaces, and of a name inside another,
    holds of all qualified names. -/
theorem forall_qualified_visitsFrom {P : String → Prop} {arena : List Namespace} {n : Nat}
    {around : List Site} {cs : List Nat}
    (hfirst : ∀ i ∈ cs, ∀ ns, arena[i]? = some ns → P (siteIn around i ns).qualified)
    (hstep : ∀ outer, P outer → ∀ ns ∈ arena, P (join (some outer) ns.name)) {v : Visit}
    (hv : v ∈ visitsFrom arena n around cs) : P v.site.qualified := by
  induction n generalizing around cs with
  | zero => cases hv
  | succ n ih =>
    obtain ⟨i, hi, ns, hns, rfl | hv⟩ := mem_visitsFrom_succ.1 hv
    · exact hfirst i hi ns hns
    · refine ih (fun j _ x hx => ?_) hv
      exact hstep _ (hfirst i hi ns hns) x (mem_of_getElem? hx)

section
variable {imports : List (String × Draft)} {raw d : Draft} (hraw : raw.AsRead)
  (h : Refined imports raw d)
include hraw h

/-- All that a refined draft declares is inside the namespace of its file. -/
theorem Refined.exists_outer {P : String → Prop} (hroot : P d.stem)
    (hstep : ∀ outer, P outer → ∀ name, IsWord name ∨ name = d.stem → P (join (some outer) name))
    {q : String} (hq : q ∈ d.symbols.entities) :
    ∃ outer name, P outer ∧ IsWord name ∧ q = join (some outer) name := by
  obtain ⟨v, hv, n, hn, rfl⟩ := (mem_entities_iff h.top).1 hq
  obtain ⟨x, hx, rfl⟩ := h.exists_declaration hv hn
  refine ⟨v.site.qualified, x.name, ?_, h.isWord_name hraw hv hx, rfl⟩
  obtain ⟨i, root, hchildren, hget, hname⟩ := exists_root_of_isWrapped h.isWrapped
  refine forall_qualified_visitsFrom (fun j hj ns hns => ?_) (fun outer houter ns hns => ?_) hv
  · rw [hchildren, mem_singleton] at hj
    subst hj
    cases hget.symm.trans hns
    show P root.name
    rwa [hname]
  · refine hstep outer houter ns.name ?_
    rw [h.stem]
    exact h.name_of_mem_arena hraw hns

theorem Refined.exists_strip? (hstem : d.stem ≠ "") {q : String} (hq : q ∈ d.symbols.entities) :
    ∃ r, strip? d.stem q = some r := by
  simp only [strip?_eq_some_iff]
  have hne : ∀ outer, (outer = d.stem ∨ ∃ r, outer = d.stem ++ "::" ++ r) → outer ≠ "" := by
    rintro outer (rfl | ⟨r, rfl⟩) hempty
    · exact hstem hempty
    · simpa using congrArg String.toList hempty
  have hjoin : ∀ outer, (outer = d.stem ∨ ∃ r, outer = d.stem ++ "::" ++ r) → ∀ name,
      ∃ r, join (some outer) name = d.stem ++ "::" ++ r := by
    intro outer houter name
    rw [join, if_neg (hne outer houter)]
    rcases houter with rfl | ⟨r, rfl⟩
    · exact ⟨name, rfl⟩
    · exact ⟨r ++ "::" ++ name, by simp only [String.append_assoc]⟩
  obtain ⟨outer, name, houter, -, rfl⟩ :=
    h.exists_outer hraw (P := fun q => q = d.stem ∨ ∃ r, q = d.stem ++ "::" ++ r) (.inl rfl)
    (fun outer houter name _ => .inr (hjoin outer houter name)) hq
  exact hjoin outer houter name

/-- Nothing is taken off where the file has no name, since no name begins with a colon. -/
theorem Refined.strip?_eq_none (hstem : d.stem = "") {q : String} (hq : q ∈ d.symbols.entities) :
    strip? d.stem q = none := by
  obtain ⟨outer, name, houter, hname, rfl⟩ :=
      h.exists_outer hraw (P := fun q => q.toList.head? ≠ some ':') (by rw [hstem]; simp)
      (fun outer houter name hname => by
      refine head?_join_ne_colon houter (hname.elim id fun hname => ?_)
      rw [hname, hstem]
      exact isWord_empty) hq
  refine Option.eq_none_iff_forall_not_mem.2 fun r hr => ?_
  refine head?_join_ne_colon houter hname ?_
  rw [strip?_eq_some_iff.1 hr, hstem]
  simp

/-- **A refined draft keeps its declarations apart**, also without the name of the file. -/
theorem Refined.apart : d.Apart := by
  intro q hq q' hq' heq
  by_cases hstem : d.stem = ""
  · rwa [h.strip?_eq_none hraw hstem hq, h.strip?_eq_none hraw hstem hq'] at heq
  · obtain ⟨r, hr⟩ := h.exists_strip? hraw hstem hq
    obtain ⟨r', hr'⟩ := h.exists_strip? hraw hstem hq'
    rw [hr, hr', Option.getD_some, Option.getD_some] at heq
    rw [strip?_eq_some_iff.1 hr, strip?_eq_some_iff.1 hr', heq]

end

end Draft

/-! ## Workspaces -/

/-- The key of an import, by its path and its local name. -/
def Draft.keyOfLink (p : String × Option String) : String := p.2.getD p.1

/-- Linking imports has nothing to do with their lines. -/
theorem Draft.attachAll_of_link {file : String} (find : String × Option String → Option DraftId)
    {is js : List Import} (himports : is.map Import.link = js.map Import.link) {t : Table DraftId}
    (h : attachAll file (fun i => find i.link) is .empty .empty = (t, none)) :
    attachAll file (fun i => find i.link) js .empty .empty = (t, none) := by
  have hkeys : ∀ is : List Import, KeysApart is ↔
      (is.map Import.link).Pairwise fun p q =>
        keyOfLink p = keyOfLink q → p.2 = none ∧ q.2 = none :=
    fun is => by rw [pairwise_map]; rfl
  have hfound : ∀ is : List Import, foundFor (fun i => find i.link) is =
      (is.map Import.link).filterMap fun p => (find p).map fun id => (keyOfLink p, id) :=
    fun is => by rw [filterMap_map]; rfl
  rw [show Table.empty = seenOf [] from rfl, attachAll_from_eq_none_iff [] .nil, nil_append, hkeys,
    hfound] at h ⊢
  rwa [← himports]

namespace Workspace

variable {Q : Draft → Draft → Prop} {P : Namespace → Namespace → Prop} {w v : Workspace}

theorem exists_draft? (h : Forall₂ Q w.drafts v.drafts) {id : DraftId} {d : Draft}
    (hd : w.draft? id = some d) : ∃ e, v.draft? id = some e ∧ Q d e := by
  have hrel : Option.Rel Q (w.draft? id) (v.draft? id) := rel_getElem? h id
  obtain ⟨hnone, -⟩ | ⟨d', e, hd', he, hde⟩ := rel_cases hrel
  · rw [hd] at hnone
    cases hnone
  · cases hd.symm.trans hd'
    exact ⟨e, he, hde⟩

/-- The drafts that the same imports lead to, if all drafts are related. -/
theorem forall₂_attachments (h : Forall₂ Q w.drafts v.drafts) (a : Table DraftId) :
    Forall₂ (fun i j => i.1 = j.1 ∧ Q i.2 j.2) (w.attachments a) (v.attachments a) := by
  refine forall₂_filterMap (fun e => ?_) a.entries
  have hrel : Option.Rel Q (w.draft? e.2) (v.draft? e.2) := rel_getElem? h e.2
  obtain ⟨hx, hy⟩ | ⟨x, y, hx, hy, hxy⟩ := rel_cases hrel
  · rw [hx, hy]
    exact .none
  · rw [hx, hy]
    exact .some ⟨rfl, hxy⟩

/-- Two workspaces whose drafts are related one by one. -/
structure Related (Q : Draft → Draft → Prop) (w v : Workspace) : Prop where
  drafts : Forall₂ Q w.drafts v.drafts
  registry : v.registry = w.registry
  extension : v.extension = w.extension

/-- What the passes make of two workspaces. -/
structure Matched (P : Namespace → Namespace → Prop) (w v : Workspace) : Prop extends
    Related Same w v where
  draftAt : ∀ {p d}, w.draftAt? p = some d → ∃ e, v.draftAt? p = some e ∧ d.Matched P e

section
variable (h : w.Related Same v)
include h

theorem Related.sameImports : w.SameImports v := by
  refine ⟨h.registry, h.extension, fun id => ?_⟩
  have hrel : Option.Rel Same (w.draft? id) (v.draft? id) := rel_getElem? h.drafts id
  obtain ⟨hd, he⟩ | ⟨d, e, hd, he, hde⟩ := rel_cases hrel
  · rw [hd, he]
    exact .none
  · rw [hd, he]
    have himports := congrArg (List.map Prod.fst) hde.imports
    rw [map_map, map_map] at himports
    exact .some ⟨hde.file, himports⟩

theorem Related.imported? {d e : Draft} (hfile : e.file = d.file) {i j : Import}
    (hij : i.link = j.link) : v.imported? e j = w.imported? d i := by
  rw [Workspace.imported?, Workspace.imported?, h.registry,
    h.sameImports.target hfile (Prod.mk.inj hij).1]

theorem Related.attaching {d e : Draft} (hde : d.Same e) (hnone : (w.attaching d).2 = none) :
    v.attaching e = w.attaching d := by
  have hall : w.attaching d = ((w.attaching d).1, none) := Prod.ext rfl hnone
  have hfind : v.imported? e = fun i =>
      w.registry.find? (Path.ofImport w.extension d.file i.link.1) :=
    funext fun _ => h.imported? hde.file rfl
  rw [hall, Workspace.attaching, hde.file, hfind]
  exact attachAll_of_link (fun p => w.registry.find? (Path.ofImport w.extension d.file p.1))
    hde.imports hall

end

variable (hP : Namespace.Likeness P)
include hP

variable {w' : Workspace} {ids : List DraftId}

/-- **The passes on a draft** whose imports keep their declarations apart. -/
theorem Related.refine (h : w.Related Same v) {id : DraftId} {raw raw' : Draft}
    (hraw : w.draft? id = some raw) (hraw' : v.draft? id = some raw') (hread : raw.AsRead)
    (hread' : raw'.AsRead) (hrelated : raw.Related P raw')
    (hself : ∀ i ∈ raw.imports, w.imported? raw i ≠ some id)
    (hapart : ∀ i ∈ raw.imports, ∀ j, w.imported? raw i = some j →
      ∀ d, w.draft? j = some d → d.Apart)
    (hone : refine id Pass.multi w = (w', none)) :
    ∃ d d' evs evs', w' = w.put id d evs ∧ refine id Pass.multi v = (v.put id d' evs', none) ∧
      d.Apart ∧
      d.Matched P d' := by
  have hsame := hrelated.same hP
  have hself' : ∀ i ∈ raw'.imports, v.imported? raw' i ≠ some id := by
    intro j hj
    obtain ⟨i, hi, hij⟩ := exists_left_of_mem (forall₂_of_map_eq hsame.imports) hj
    rw [h.imported? hsame.file hij]
    exact hself i hi
  obtain ⟨evs, hiff⟩ := refine_multi_iff hraw hread.attached hself
  obtain ⟨evs', hiff'⟩ := refine_multi_iff hraw' hread'.attached hself'
  obtain ⟨d, ⟨hnone, hrefines⟩, rfl⟩ := (hiff w').1 hone
  have hattaching := h.attaching hsame hnone
  have himports : Forall₂ (fun i j => i.1 = j.1 ∧ i.2.Apart ∧ i.2.Same j.2)
      (w.attachments (w.attaching raw).1) (v.attachments (v.attaching raw').1) := by
    rw [hattaching]
    have hall : ∀ i ∈ w.attachments (w.attaching raw).1, i.2.Apart := by
      intro i hi
      obtain ⟨e, he, hmap⟩ := mem_filterMap.1 hi
      obtain ⟨x, hx, rfl⟩ := Option.map_eq_some_iff.1 hmap
      obtain ⟨k, hk, -, himported⟩ := exists_import_of_attaching he
      exact hapart k hk e.2 himported x hx
    have hboth := (forall₂_and_left _ _).2 ⟨hall, forall₂_attachments h.drafts (w.attaching raw).1⟩
    exact hboth.imp fun i j hij => ⟨hij.2.1, hij.1, hij.2.2⟩
  obtain ⟨d', hrefines', hdd'⟩ := hrefines.matched hP hread hread' hrelated himports
  have hone' := (hiff' _).2 ⟨d', ⟨by rw [hattaching]; exact hnone, hrefines'⟩, rfl⟩
  have hd : d.Apart := (hrefines.refined hread).apart hread
  refine ⟨_, _, evs, evs', rfl, hone', hd, ⟨?_, hdd'.arena⟩⟩
  exact ⟨hdd'.same.top, hdd'.same.arena, hdd'.same.imports, by rw [hattaching, hdd'.same.rest]⟩

/-- The passes over the drafts that are left, when some are done. -/
theorem Related.refineEach {start start' : Workspace} (hread : start.AsRead)
    (hread' : start'.AsRead) (hstart : start.Related (Draft.Related P) start')
    (hpending : start.Pending ids) (done : List DraftId) {rest : List DraftId}
    (hids : ids = done ++ rest) (hfiles : start.SameFiles w)
    (hnew : ∀ id ∈ rest, w.draft? id = start.draft? id)
    (hnew' : ∀ id ∈ rest, v.draft? id = start'.draft? id)
    (hdone : ∀ j ∈ done, ∀ d, w.draft? j = some d → d.Apart ∧ ∃ e, v.draft? j = some e ∧
      d.Matched P e)
    (h : w.Related Draft.Same v) (hall : refineEach Pass.multi rest w = (w', none)) :
    ∃ v', refineEach Pass.multi rest v = (v', none) ∧ w'.Related Draft.Same v' ∧
      ∀ j ∈ ids, ∀ d, w'.draft? j = some d → ∃ e, v'.draft? j = some e ∧ d.Matched P e := by
  induction rest generalizing done w v with
  | nil =>
    rw [refineEach] at hall
    cases hall
    rw [append_nil] at hids
    exact ⟨v, rfl, h, fun j hj d hd => (hdone j (hids ▸ hj) d hd).2⟩
  | cons id rest ih =>
    obtain ⟨raw, hraw₀, hraw, -, hbefore⟩ := hpending.next hids hfiles (hnew id mem_cons_self)
    obtain ⟨raw', hraw₀', hrelated⟩ := exists_draft? hstart.drafts hraw₀
    have hraw' : v.draft? id = some raw' := (hnew' id mem_cons_self).trans hraw₀'
    have hself : ∀ i ∈ raw.imports, w.imported? raw i ≠ some id :=
      fun i hi hj => (hbefore i hi id hj).2.1 rfl
    obtain ⟨p, hp⟩ := hpending.ordered.registered id (by rw [hids]; simp)
    obtain ⟨x, hx, hasRead, -⟩ := hread p id hp
    obtain ⟨x', hx', hasRead', -⟩ := hread' p id (by rw [hstart.registry]; exact hp)
    cases hraw₀.symm.trans hx
    cases hraw₀'.symm.trans hx'
    rw [refineEach] at hall
    split at hall
    · cases hall
    · next w₁ hone =>
      obtain ⟨d, d', evs, evs', rfl, hone', hapart, hdd'⟩ :=
        h.refine hP hraw hraw' hasRead hasRead' hrelated hself
        (fun i hi j hj d hd => (hdone j (hbefore i hi j hj).1 d hd).1) hone
      obtain ⟨-, hid, -⟩ := hpending.not_mem hids
      rw [refineEach, hone']
      refine ih (done ++ [id]) (by rw [hids]; simp) (hfiles.trans (sameFiles_put w id _ evs))
        (draft?_put_of_not_mem hid hnew _ evs) (draft?_put_of_not_mem hid hnew' _ evs')
        (fun j hj x hx => ?_) ⟨forall₂_set h.drafts hdd'.same id, h.registry, h.extension⟩ hall
      by_cases hne : j = id
      · subst hne
        rw [draft?_put_self hraw] at hx
        cases hx
        exact ⟨hapart, d', draft?_put_self hraw' _ _, hdd'⟩
      · rw [draft?_put_of_ne w hne] at hx
        rw [draft?_put_of_ne v hne]
        refine hdone j ?_ x hx
        rcases mem_append.1 hj with hj | hj
        · exact hj
        · exact absurd (mem_singleton.1 hj) hne

/-- **Where the passes run through all drafts of a workspace, they run through those of one
    that is like it.** -/
theorem Related.refineAll (hw : w.AsRead) (hv : v.AsRead) (h : w.Related (Draft.Related P) v)
    (hall : w.refineAll = (w', .ok ids)) : ∃ v', v.refineAll = (v', .ok ids) ∧ w'.Matched P v' := by
  have hsame : w.Related Same v := ⟨h.drafts.imp fun _ _ hd => hd.same hP, h.registry, h.extension⟩
  obtain ⟨hfiles, -⟩ := hw.attains_refineAll hall
  rw [Workspace.refineAll] at hall ⊢
  split at hall
  · cases hall
  · next ids' hids =>
    rw [hsame.sameImports.order hids]
    split at hall
    · cases hall
    · next hrefine =>
      cases hall
      obtain ⟨v', hrefine', hsame', hmatched⟩ :=
        refineEach hP hw hv h (hw.pending hids) [] rfl (.refl w) (fun _ _ => rfl) (fun _ _ => rfl)
        (by simp) hsame hrefine
      refine ⟨v', by simp only [hrefine'], hsame', fun {p d} hd => ?_⟩
      obtain ⟨id, hid, hget⟩ := Option.bind_eq_some_iff.1 hd
      obtain ⟨e, he, hde⟩ :=
        hmatched id ((ordered_order hw.tidy hids).2 (hfiles.registry ▸ hid)) d hget
      refine ⟨e, ?_, hde⟩
      rw [draftAt?, hsame'.registry, hid]
      exact he

end Workspace

end MessageSchema
