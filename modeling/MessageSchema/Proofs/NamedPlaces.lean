/-
  Qualified names and the places that they name.

  The qualified name of a namespace is put together on the walk through a draft, stored
  in the arena, put together once more along the links, and copied into the model; and
  whatever is declared records the namespace that it is in.  All of these agree.
-/
import MessageSchema.Proofs.Ancestors
import MessageSchema.Proofs.Compiling
import MessageSchema.Proofs.Keeping
import MessageSchema.Proofs.Lineages
import MessageSchema.Proofs.Reaching
import MessageSchema.Proofs.RepeatedPasses

namespace MessageSchema

open List Option Draft

namespace Draft

variable {arena : List Namespace} {d : Draft} {v : Visit}

/-! ## Names on the walk and along the links -/

variable {p : Option Nat}

theorem Chain.eq_head? {is : List Nat} (h : Chain arena p is) : p = is.head? := by
  cases h <;> rfl

theorem ancestry_of_chain {sites : List Site} (hsites : ∀ s ∈ sites, arena[s.index]? = some s.ns)
    (h : Chain arena p (sites.map (·.index))) {depth : Nat} (hdepth : sites.length < depth)
    {seen : List Nat} (hseen : ∀ s ∈ sites, s.index ∉ seen) :
    ancestry arena depth seen p = (sites.map (·.ns.name)).reverse := by
  obtain ⟨n, rfl⟩ : ∃ n, depth = n + 1 := ⟨depth - 1, by omega⟩
  induction sites generalizing p n seen with
  | nil =>
    cases h
    rfl
  | cons s sites ih =>
    have hnodup := h.nodup
    rw [map_cons, nodup_cons] at hnodup
    obtain ⟨hs, hsites⟩ := forall_mem_cons.1 hsites
    obtain ⟨hfresh, hseen⟩ := forall_mem_cons.1 hseen
    rw [length_cons] at hdepth
    cases h with
    | cons hns hchain =>
      cases hs.symm.trans hns
      obtain ⟨n, rfl⟩ : ∃ k, n = k + 1 := ⟨n - 1, by omega⟩
      have hlater : ∀ t ∈ sites, t.index ∉ s.index :: seen := fun t ht =>
        not_mem_cons_of_ne_of_not_mem (fun heq => hnodup.1 (heq ▸ mem_map_of_mem ht)) (hseen t ht)
      have hinner := ih hsites hchain hlater n (by omega)
      rw [ancestry, if_neg (by simpa using hfresh), hs, map_cons, reverse_cons, ← hinner]

/-- A draft whose namespaces have names, know their qualified ones and hang together. -/
structure Sited (d : Draft) : Prop where
  threaded : d.Threaded
  covered : d.Covered
  qualified : ∀ v ∈ d.walk, v.site.ns.qualified = some v.site.qualified
  named : ∀ ns ∈ d.arena, ns.name ≠ ""

namespace Sited

variable (h : d.Sited)
include h

theorem qualified_ne_empty (hv : v ∈ d.walk) : v.site.qualified ≠ "" := by
  intro hempty
  have hsite := congrArg Site.qualified (around_of_mem_visitsFrom hv).1
  refine h.named _ (mem_of_getElem? (getElem?_site_of_mem_walk hv)) ?_
  exact name_eq_empty_of_join (hsite.symm.trans hempty)

/-- **A namespace is named inside the one that its link leads to.** -/
theorem cases_walk (hv : v ∈ d.walk) :
    v.around = [] ∧ v.site.ns.parent = none ∧ v.site.index ∈ d.top.children ∧ v.site.qualified =
      v.site.ns.name ∨
      ∃ u ∈ d.walk, v.around = u.enclosing ∧ v.site.ns.parent = some u.site.index ∧
        v.site.index ∈ u.site.ns.scope.children ∧
          v.site.qualified = u.site.qualified ++ "::" ++ v.site.ns.name := by
  obtain ⟨hsite, haround⟩ := around_of_mem_visitsFrom hv
  have hparent := (h.threaded.chain hv).eq_head?
  have hqualified := congrArg Site.qualified hsite
  rcases haround with ⟨heq, hmem⟩ | ⟨u, hu, heq, hmem⟩
  · rw [heq] at hparent hqualified
    exact .inl ⟨heq, hparent, hmem, hqualified⟩
  · rw [heq] at hparent hqualified
    exact .inr ⟨u, hu, heq, hparent, hmem, hqualified.trans (if_neg (h.qualified_ne_empty hu))⟩

theorem joinAll_names (hv : v ∈ d.walk) :
    QualifiedName.joinAll (v.enclosing.map (·.ns.name)).reverse = v.site.qualified := by
  -- along the namespaces around, each of them visited
  generalize hn : v.around = around
  induction around generalizing v with
  | nil =>
    obtain ⟨-, -, -, hq⟩ | ⟨u, -, heq, -⟩ := h.cases_walk hv
    · rw [Visit.enclosing, hn, hq]
      exact String.intercalate_singleton
    · cases hn.symm.trans heq
  | cons s around ih =>
    obtain ⟨hnil, -⟩ | ⟨u, hu, heq, -, -, hq⟩ := h.cases_walk hv
    · cases hn.symm.trans hnil
    · have hinner : u.around = around := (cons.inj (hn.symm.trans heq)).2.symm
      rw [Visit.enclosing, map_cons, reverse_cons, heq, hq, ← ih hu hinner]
      refine (String.intercalate_append_of_ne_nil (by simp [Visit.enclosing]) (by simp)).trans ?_
      rw [String.intercalate_singleton]
      rfl

/-- **The links lead to the names that the walk gives.** -/
theorem qualified_eq_pathOf (hv : v ∈ d.walk) : v.site.qualified = pathOf d.arena v.site.index := by
  have hchain : Chain d.arena (some v.site.index) (v.enclosing.map (·.index)) :=
    .cons (getElem?_site_of_mem_walk hv) (h.threaded.chain hv)
  have hlength := hchain.length_le
  rw [length_map] at hlength
  rw [pathOf, ancestry_of_chain (getElem?_of_mem_walk hv) hchain (by omega) (by simp),
    h.joinAll_names hv]

end Sited

/-! ## Drafts that know their names -/

theorem sited_resolve {imports : List (String × Draft)} {e : Draft} (hthreaded : d.Threaded)
    (hcovered : d.Covered) (hnamed : ∀ ns ∈ d.arena, ns.name ≠ "") (h : d.resolve imports = .ok e) :
    e.Sited := by
  have hgrows := grows_resolve h
  have houtline := outline_resolve h
  have he : e.Covered := hcovered.congr hgrows.children.symm houtline.symm
  have hvisit : ∀ v ∈ e.walk, ∃ u ∈ d.walk, u.route = v.route := by
    intro v hv
    have hmem := mem_map_of_mem (f := Visit.route) hv
    rw [route_walk_congr hgrows.children houtline] at hmem
    exact mem_map.1 hmem
  have hns : ∀ {u v : Visit}, u ∈ d.walk → v ∈ e.walk → u.route = v.route →
      v.site.ns.qualified = some v.site.qualified ∧ v.site.ns.name = u.site.ns.name := by
    intro u v hu hv hroute
    obtain ⟨hindex, hqualified⟩ := Visit.site_of_route hroute
    have hget := getElem?_resolve hcovered h hu
    rw [hindex, getElem?_site_of_mem_walk hv] at hget
    rw [some.inj hget, hqualified]
    exact ⟨rfl, rfl⟩
  refine ⟨hthreaded.congr hgrows.children hgrows.threads, he, fun v hv => ?_, fun ns hmem => ?_⟩
  · obtain ⟨u, hu, hroute⟩ := hvisit v hv
    exact (hns hu hv hroute).1
  · obtain ⟨i, hi⟩ := mem_iff_getElem?.1 hmem
    obtain ⟨v, hv, -, rfl⟩ := he.exists_visit hi
    obtain ⟨u, hu, hroute⟩ := hvisit v hv
    rw [(hns hu hv hroute).2]
    exact hnamed _ (mem_of_getElem? (getElem?_site_of_mem_walk hu))

namespace Scope.WrittenIn

variable {file home : String} {s : Scope} (h : s.WrittenIn file home)
include h

theorem mapNames (f : TypeName → TypeName) : (s.mapNames f).WrittenIn file home := by
  refine ⟨forall_mem_map.2 h.message, forall_mem_map.2 fun m hm => forall_mem_map.2 (h.field m hm),
    forall_mem_append.2 ⟨forall_mem_map.2 fun e he => ?_, fun e he => ?_⟩, h.compound⟩
  · exact h.enumeration e (mem_append_left _ he)
  · exact h.enumeration e (mem_append_right _ he)

theorem promote {outer : Option String} {s' : Scope} (hs : s.promote outer = (s', none)) :
    s'.WrittenIn file home := by
  have hnumbered := fun e he => h.numberedIn (e := e) (Scope.enumerates_of_promote hs he)
  obtain ⟨-, rfl⟩ := Scope.promote_eq_iff.1 hs
  exact ⟨forall_mem_map.2 h.message, forall_mem_map.2 fun m hm => forall_mem_map.2 (h.field m hm),
    hnumbered, h.compound⟩

end Scope.WrittenIn

section
variable {imports : List (String × Draft)} {file text : String} {raw : Draft}
  (hread : read file text = .ok raw)
include hread

/-- **What the passes leave records where it is**, what they promote too. -/
theorem Refined.writtenIn (h : Refined imports raw d) (hv : v ∈ d.walk) :
    (v.site.ns.name ≠ "" ∨ v.site.ns.name = raw.stem) ∧
      v.site.ns.scope.WrittenIn file v.site.ns.name := by
  obtain ⟨u, hu, -, s, hs, hns⟩ := h.before hv
  obtain ⟨w, hw, -, hscope⟩ := exists_visit_of_useColons hu
  obtain ⟨hname, hwritten⟩ :=
    writtenIn_wrap hread _ (mem_of_getElem? (getElem?_site_of_mem_walk hw))
  rw [hns]
  rw [Visit.resolved, hscope] at hs
  rw [hscope]
  exact ⟨hname, ((hwritten.mapNames _).mapNames _).promote hs⟩

theorem Refines.sited (hstem : raw.stem ≠ "") (h : Refines imports raw d) : d.Sited := by
  have hrefined := h.refined (read_asRead hread).1
  have hcovered := hrefined.covered (read_asRead hread).1
  refine ⟨?_, hcovered, fun v hv => hrefined.qualified hv, fun ns hns => ?_⟩
  · obtain ⟨e, he, hd⟩ := h
    have hcolons := grows_useColons raw.wrap
    have hresolve := grows_resolve he
    have hpromote := grows_promote e
    rw [hd] at hpromote
    exact (((threaded_read hread).wrap.congr hcolons.children hcolons.threads).congr
      hresolve.children hresolve.threads).congr hpromote.children hpromote.threads
  · obtain ⟨i, hi⟩ := mem_iff_getElem?.1 hns
    obtain ⟨v, hv, -, rfl⟩ := hcovered.exists_visit hi
    exact (hrefined.writtenIn hread hv).1.elim id fun hname => hname ▸ hstem

end

end Draft

/-! ## Models -/

namespace Model

def Entity.name : Entity → String
  | message m => m.name
  | enumeration e => e.name
  | compound c => c.name

/-- The namespaces that an entity, its fields and its own values record. -/
def Entity.homes : Entity → List String
  | message m => m.origin.home :: m.fields.map (·.origin.home)
  | enumeration e => e.origin.home :: (e.values.filter fun v => !v.inherited).map (·.origin.home)
  | compound c => [c.origin.home]

section
variable {q file home : String} {s : Scope} {x : Declaration} {e : Entity}

theorem Declaration.Kept.name_eq (h : x.Kept q e) : e.name = x.name := by
  cases h with
  | message h => exact h.name
  | enumeration h => exact h.name
  | compound h => exact h.name

theorem Declaration.Kept.home_eq (h : x.Kept q e) (hs : s.WrittenIn file home)
    (hx : x ∈ declarationsOf s) : ∀ recorded ∈ e.homes, recorded = home := by
  cases h with
  | @message m result h =>
    obtain ⟨_, hm, heq⟩ | ⟨_, -, heq⟩ | ⟨_, -, heq⟩ | ⟨_, -, heq⟩ :=
      mem_declarationsOf.1 hx <;> cases heq
    refine forall_mem_cons.2 ⟨h.origin ▸ hs.message m hm, forall_mem_map.2 fun F hF => ?_⟩
    obtain ⟨f, hf, hkept⟩ := exists_left_of_mem h.fields hF
    exact hkept.origin ▸ (hs.field m hm f hf).2
  | @enumeration x result h =>
    have hmem : x ∈ s.enums ++ s.options := by
      obtain ⟨_, -, heq⟩ | ⟨_, he, heq⟩ | ⟨_, he, heq⟩ | ⟨_, -, heq⟩ :=
        mem_declarationsOf.1 hx <;> cases heq
      · exact mem_append_left _ he
      · exact mem_append_right _ he
    obtain ⟨hhome, raws, hraws⟩ := hs.enumeration x hmem
    obtain ⟨inherited, own, hvalues, hinherited, hown⟩ := h.values
    refine forall_mem_cons.2 ⟨h.origin ▸ hhome, forall_mem_map.2 fun V hV => ?_⟩
    rw [mem_filter, hvalues, mem_append] at hV
    obtain ⟨hV | hV, hnot⟩ := hV
    · rw [hinherited V hV] at hnot
      cases hnot
    · obtain ⟨v, hv, hkept⟩ := exists_left_of_mem hown hV
      have horigin := mem_map_of_mem (f := Draft.EnumValue.origin) hv
      rw [origin_numberFrom hraws] at horigin
      obtain ⟨raw, -, heq⟩ := mem_map.1 horigin
      rw [hkept.origin, ← heq]
  | @compound c result h =>
    obtain ⟨_, -, heq⟩ | ⟨_, -, heq⟩ | ⟨_, -, heq⟩ | ⟨_, hc, heq⟩ :=
      mem_declarationsOf.1 hx <;> cases heq
    exact forall_mem_singleton.2 (h.origin ▸ hs.compound c hc)

end

/-- A namespace of a model is named inside the one around it, those inside it and its
    entities are named inside it, and what is in it records its name. -/
structure Coheres (m : Model) (i : Nat) (ns : Namespace) : Prop where
  outer : ns.parent = none ∧ i ∈ m.roots ∧ ns.qualified = ns.name ∨ ∃ p outer, ns.parent = some p ∧
    m.namespaces[p]? = some outer ∧ i ∈ outer.children ∧
    ns.qualified = outer.qualified ++ "::" ++ ns.name
  inner : ∀ j ∈ ns.children, ∃ inner : Namespace, m.namespaces[j]? = some inner ∧
    inner.parent = some i ∧ inner.qualified = ns.qualified ++ "::" ++ inner.name
  entity : ∀ e ∈ ns.entities, e.qualified = ns.qualified ++ "::" ++ e.name
  home : ∀ e ∈ ns.entities, ∀ home ∈ e.homes, home = ns.name

/-- **The names of a model are those of a draft that knows its names.** -/
theorem Models.coheres {lib : Library} {d : Draft} {m : Model} (h : Models lib d m) (hd : d.Sited)
    {v : Visit} (hv : v ∈ d.walk) {file : String}
    (hwritten : v.site.ns.scope.WrittenIn file v.site.ns.name) :
    Coheres m v.site.index (namespaceAt lib d m.imports v) := by
  have hname : ∀ {v : Visit}, v ∈ d.walk → (namespaceAt lib d m.imports v).qualified =
      v.site.qualified :=
    fun hv => nameOf_eq h.finished hv
  have hkept : ∀ e ∈ (namespaceAt lib d m.imports v).entities, ∃ x ∈ declarationsOf v.site.ns.scope,
      x.Kept (QualifiedName.join (some v.site.qualified) x.name) e := by
    intro e he
    obtain ⟨x, hx, hbecomes⟩ :=
      exists_left_of_mem (matches_namespaceAt h.faultless h.finished hv).entities he
    exact ⟨x, hx, hbecomes.kept h.faultless (find?_declared h.faultless h.finished hv hx)⟩
  refine ⟨?_, fun j hj => ?_, fun e he => ?_, fun e he => ?_⟩
  · obtain ⟨-, hparent, hroot, hq⟩ | ⟨u, hu, -, hparent, hchild, hq⟩ := hd.cases_walk hv
    · rw [congrArg Model.roots (ofDraft_eq h.built).1]
      exact .inl ⟨hparent, hroot, (hname hv).trans hq⟩
    · refine .inr ⟨_, _, hparent, h.getElem?_namespaces hu, hchild, ?_⟩
      rw [hname hv, hname hu]
      exact hq
  · obtain ⟨x, hx, hparent⟩ := hd.threaded.inner (getElem?_site_of_mem_walk hv) j hj
    obtain ⟨w, hw, rfl, rfl⟩ := hd.covered.exists_visit hx
    refine ⟨_, h.getElem?_namespaces hw, hparent, ?_⟩
    obtain ⟨-, hnone, -⟩ | ⟨u, hu, -, houter, -, hq⟩ := hd.cases_walk hw
    · cases hparent.symm.trans hnone
    · -- two visits to one namespace know it by one name
      have hns := getElem?_site_of_mem_walk hu
      rw [some.inj (houter.symm.trans hparent), getElem?_site_of_mem_walk hv] at hns
      have hsame := congrArg Draft.Namespace.qualified (some.inj hns)
      rw [hd.qualified v hv, hd.qualified u hu] at hsame
      rw [hname hw, hname hv, some.inj hsame]
      exact hq
  · obtain ⟨x, -, hx⟩ := hkept e he
    rw [hx.qualified, hx.name_eq, hname hv]
    exact if_neg (hd.qualified_ne_empty hv)
  · obtain ⟨x, hmem, hx⟩ := hkept e he
    exact hx.home_eq hwritten hmem

end Model

/-- **Qualified names are coherent.**  Of a file with a name, every namespace gets the
    qualified name that its links lead to: its own name, behind that of the namespace
    around it.  So it is in every model of a compilation, for namespaces and entities; and
    what is declared records the namespace that holds it, promoted types too. -/
theorem qualified_names_cohere :
    (∀ {file text : String} {raw : Draft}, Draft.read file text = .ok raw → Path.stem file ≠ "" →
      ∀ imports, ∃ e, raw.wrap.resolve imports = .ok e ∧ ∀ (i : Nat) (ns : Draft.Namespace),
        e.arena[i]? = some ns →
        ns.qualified = some (Draft.pathOf e.arena i) ∧
          (ns.parent = none ∧ ns.qualified = some ns.name ∨ ∃ p outer q, ns.parent = some p ∧
            e.arena[p]? = some outer ∧ outer.qualified = some q ∧
              ns.qualified = some (q ++ "::" ++ ns.name))) ∧
    ∀ {fs : FileSystem} {ext path : String} {source : String → Option String} {lib : Library},
      Compilation.Compiles fs ext path source lib →
        ∀ m ∈ lib.reachable (Path.absolute path), m.stem ≠ "" →
        ∀ (i : Nat) (ns : Model.Namespace), m.namespaces[i]? = some ns → m.Coheres i ns := by
  refine ⟨fun {file text raw} hread hstem imports => ?_,
    fun {fs ext path source lib} h m hm hstem i ns hns => ?_⟩
  · obtain ⟨hraw, -, hstem'⟩ := read_asRead hread
    obtain ⟨e, hresolve⟩ : ∃ e, raw.wrap.resolve imports = .ok e := ⟨_, if_pos (isWrapped_wrap raw)⟩
    refine ⟨e, hresolve, fun i ns hns => ?_⟩
    have hsited := sited_resolve (threaded_read hread).wrap hraw.isLaid.covered_wrap
      (fun ns hns => (writtenIn_wrap hread ns hns).1.elim id fun hname => hname ▸ hstem' ▸ hstem)
      hresolve
    obtain ⟨v, hv, rfl, rfl⟩ := hsited.covered.exists_visit hns
    rw [hsited.qualified v hv, hsited.qualified_eq_pathOf hv]
    refine ⟨rfl, ?_⟩
    rw [← hsited.qualified_eq_pathOf hv]
    obtain ⟨-, hparent, -, hq⟩ | ⟨u, hu, -, hparent, -, hq⟩ := hsited.cases_walk hv
    · exact Or.inl ⟨hparent, congrArg some hq⟩
    · exact Or.inr ⟨_, _, _, hparent, getElem?_site_of_mem_walk hu, hsited.qualified u hu,
        congrArg some hq⟩
  · obtain ⟨final, hsystem, -⟩ := h.system
    obtain ⟨raw, d, -, hset, hmodels, -⟩ := hsystem.settles (hsystem.mem_reachable hm).2
    obtain ⟨text, -, hread⟩ := readFrom_eq_some_iff.1 hset.read
    have hstem' : m.stem = raw.stem :=
      (congrArg Model.stem (Model.ofDraft_eq hmodels.built).1).trans hset.refined.stem
    have hsited := hset.refines.sited hread (hstem' ▸ hstem)
    have hlt : i < d.arena.length := hmodels.length_namespaces ▸ (List.getElem?_eq_some_iff.1 hns).1
    obtain ⟨v, hv, rfl, -⟩ := hsited.covered.exists_visit (getElem?_eq_getElem hlt)
    obtain rfl := some.inj ((hmodels.getElem?_namespaces hv).symm.trans hns)
    exact hmodels.coheres hsited hv (hset.refined.writtenIn hread hv).2

/-- A message inside two namespaces, with flags in place of a field type. -/
def nested : FileSystem :=
  ⟨Table.empty.insert "/a.def" "namespace N\x7bmessage M\x7bf:options\x7bB\x7d\x7d\x7d", [], id⟩

theorem qualified_names_cohere_nested :
    (∃ text raw e, nested.texts.find? "/a.def" = some text ∧ Draft.read "/a.def" text = .ok raw ∧
      raw.wrap.resolve [] = .ok e ∧ e.arena.map (fun ns => (ns.qualified, ns.parent)) =
        [(some "a::N", some 1), (some "a", none)] ∧
      ∀ i ns, e.arena[i]? = some ns → ns.qualified = some (Draft.pathOf e.arena i)) ∧
    ∃ lib m, Compilation.Compiles nested ".def" "/a.def" nested.texts.find? lib ∧
      m ∈ lib.reachable "/a.def" ∧
      (m.namespaces.map (·.qualified), (m.namespaces.flatMap Model.Namespace.entities).map fun e =>
        (e.qualified, e.homes)) =
        (["a::N", "a"], [("a::N::M", ["N", "N"]), ("a::N::M_f", ["N", "N"])]) ∧
      ∀ i ns, m.namespaces[i]? = some ns → m.Coheres i ns := by
  constructor
  · have hall :
        (nested.texts.find? "/a.def").bind
        (fun text => (read "/a.def" text).toOption.bind fun raw =>
        (raw.wrap.resolve []).toOption.map fun e => e.arena.map fun ns =>
          (ns.qualified, ns.parent)) =
        some [(some "a::N", some 1), (some "a", none)] := by decide +kernel
    simp only [bind_eq_some_iff, map_eq_some_iff, toOption_eq_some_iff] at hall
    obtain ⟨text, htext, raw, hread, e, he, harena⟩ := hall
    obtain ⟨e', he', hnames⟩ := qualified_names_cohere.1 hread (by decide +kernel) []
    obtain rfl := Except.ok.inj (he.symm.trans he')
    exact ⟨text, raw, e, htext, hread, he, harena, fun i ns hns => (hnames i ns hns).1⟩
  · have hpath : Path.absolute "/a.def" = "/a.def" := by decide +kernel
    obtain ⟨lib, hlib, hall⟩ := exists_of_map_toOption
      (x := (Compilation.ofFile nested ".def" "/a.def").result)
      (p := fun lib => (lib.reachable "/a.def").map fun m : Model =>
      (decide (m.stem = ""), m.namespaces.map (·.qualified),
        (m.namespaces.flatMap Model.Namespace.entities).map fun e => (e.qualified, e.homes)))
      (b := [(false, ["a::N", "a"], [("a::N::M", ["N", "N"]), ("a::N::M_f", ["N", "N"])])])
      (by decide +kernel)
    obtain ⟨m, rest, hreachable, hm, -⟩ := map_eq_cons_iff.1 hall
    have hmem : m ∈ lib.reachable "/a.def" := hreachable ▸ mem_cons_self
    obtain ⟨hstem, hnames⟩ := Prod.mk.inj hm
    have hcoheres :=
      qualified_names_cohere.2 (.ofFile hlib) m (by rw [hpath]; exact hmem)
      (of_decide_eq_false hstem)
    exact ⟨lib, m, .ofFile hlib, hmem, hnames, hcoheres⟩

end MessageSchema
