/-
  Scopes of names.

  A name without colons belongs to the innermost namespace around it that declares
  it, else to the first import without a local name whose file-level namespace does.
  This is said here without lookups: by the namespaces along the links from where a
  name stands (`Nested`), by what a scope declares (`Scope.Declares`), and by what the
  imports offer (`Offers`).
-/
import MessageSchema.Proofs.Reaching

namespace MessageSchema.Draft

open List QualifiedName Scope

variable {name : String} {arena enclosing : List Namespace} {d x : Draft} {v : Visit}

/-! ## What is declared -/

/-- The names that a scope declares directly; a type written inline counts under the name
    that it will get. -/
inductive Scope.Declares (s : Scope) : String → Prop
  | message {m : Message} : m ∈ s.messages → Declares s m.name
  | inline {m : Message} {f : Field} : m ∈ s.messages → f ∈ m.fields → f.type.hasInline = true →
      Declares s (ofInline m.name f.name)
  | enumeration {e : Enumeration} : e ∈ s.enums → Declares s e.name
  | options {e : Enumeration} : e ∈ s.options → Declares s e.name
  | compound {c : Compound} : c ∈ s.compounds → Declares s c.name

variable {p : Option Nat} {sites around : List Site} {n i : Nat} {cs : List Nat} {r : Region}
  {q : String} {imports : List (String × Draft)}

theorem Scope.mem_declared {s : Scope} : name ∈ s.declared ↔ s.Declares name := by
  simp only [declared, Message.declared, mem_append, mem_flatMap, mem_cons, mem_map,
    mem_filter]
  constructor
  · rintro (((⟨m, hm, rfl | ⟨f, ⟨hf, hinline⟩, rfl⟩⟩ | ⟨e, he, rfl⟩) | ⟨e, he, rfl⟩) | ⟨c, hc, rfl⟩)
    · exact .message hm
    · exact .inline hm hf hinline
    · exact .enumeration he
    · exact .options he
    · exact .compound hc
  · intro h
    cases h with
    | message hm => exact .inl (.inl (.inl ⟨_, hm, .inl rfl⟩))
    | inline hm hf hinline => exact .inl (.inl (.inl ⟨_, hm, .inr ⟨_, ⟨hf, hinline⟩, rfl⟩⟩))
    | enumeration he => exact .inl (.inl (.inr ⟨_, he, rfl⟩))
    | options he => exact .inl (.inr ⟨_, he, rfl⟩)
    | compound hc => exact .inr ⟨_, hc, rfl⟩

/-! ## Namespaces around each other -/

/-- A namespace and those around it along the links, innermost first. -/
inductive Nested (arena : List Namespace) : Option Nat → List Namespace → Prop
  | nil : Nested arena none []
  | cons {i : Nat} {ns : Namespace} {outer : List Namespace} : arena[i]? = some ns →
      Nested arena ns.parent outer → Nested arena (some i) (ns :: outer)

/-- The names of namespaces joined from the outermost to the innermost, which comes first;
    nothing if there are none. -/
def qualifiedNameOf : List Namespace → Option String
  | [] => none
  | ns :: outer => some (join (qualifiedNameOf outer) ns.name)

/-- Namespaces around each other as lookups see them. -/
def regionsOf : List Namespace → List Region
  | [] => []
  | ns :: outer => ⟨qualifiedNameOf (ns :: outer), ns.scope.declared⟩ :: regionsOf outer

theorem Nested.unique {xs ys : List Namespace} (h : Nested arena p xs) (h' : Nested arena p ys) :
    xs = ys := by
  induction h generalizing ys with
  | nil => cases h'; rfl
  | cons hns _ ih =>
    cases h' with
    | cons hns' h' =>
      cases hns.symm.trans hns'
      rw [ih h']

theorem Chain.nested (h : Chain arena p (sites.map (·.index)))
    (hsites : ∀ s ∈ sites, arena[s.index]? = some s.ns) : Nested arena p (sites.map (·.ns)) := by
  induction sites generalizing p with
  | nil =>
    cases h
    exact .nil
  | cons s sites ih =>
    cases h with
    | cons hns hchain =>
      have hs := hsites s mem_cons_self
      cases hns.symm.trans hs
      exact .cons hs (ih hchain fun x hx => hsites x (mem_cons_of_mem _ hx))

theorem Threaded.nested (h : d.Threaded) (hv : v ∈ d.walk) :
    Nested d.arena (some v.site.index) (v.enclosing.map (·.ns)) := by
  have hsites := getElem?_of_mem_walk hv
  exact Chain.nested (.cons (hsites v.site mem_cons_self) (h.chain hv)) hsites

/-- Sites whose qualified names are those of the namespaces around them. -/
def WellNamed : List Site → Prop
  | [] => True
  | s :: sites => some s.qualified = qualifiedNameOf ((s :: sites).map (·.ns)) ∧ WellNamed sites

theorem WellNamed.head? (h : WellNamed sites) :
    sites.head?.map (·.qualified) = qualifiedNameOf (sites.map (·.ns)) := by
  cases sites with
  | nil => rfl
  | cons s sites => exact h.1

theorem wellNamed_of_mem_visitsFrom (h : WellNamed around)
    (hv : v ∈ visitsFrom arena n around cs) : WellNamed v.enclosing := by
  induction n generalizing around cs with
  | zero => cases hv
  | succ n ih =>
    obtain ⟨i, -, ns, -, hv⟩ := mem_visitsFrom_succ.1 hv
    have hsite : WellNamed (siteIn around i ns :: around) := ⟨by
      rw [siteIn, h.head?]
      rfl, h⟩
    rcases hv with rfl | hv
    · exact hsite
    · exact ih hsite hv

theorem wellNamed_of_mem_walk (hv : v ∈ d.walk) : WellNamed v.enclosing :=
  wellNamed_of_mem_visitsFrom (show WellNamed [] from trivial) hv

theorem WellNamed.regionsOf (h : WellNamed sites) :
    sites.map Site.region = regionsOf (sites.map (·.ns)) := by
  induction sites with
  | nil => rfl
  | cons s sites ih =>
    rw [map_cons, ih h.2, map_cons, Draft.regionsOf, ← map_cons, ← h.1]
    rfl

/-! ## Names in their scopes -/

/-- What an import offers without its being named: what its file-level namespace declares,
    or the file itself if it has none. -/
inductive Offers (x : Draft) (name : String) : String → Prop
  | inside {i : Nat} {ns : Namespace} : x.rootIndex? = some i → x.arena[i]? = some ns →
    ns.scope.Declares name → Offers x name (join (some x.stem) name)
  | outside : x.rootIndex? = none → x.top.Declares name → Offers x name name

/-- The imports without local names, in order. -/
def unaliased (d : Draft) (imports : List (String × Draft)) : List Draft :=
  (imports.filter fun i => !d.imports.any (·.localName = some i.1)).map (·.2)

/-- What becomes of a name without colons inside some namespaces, innermost first, given the
    imports without local names. -/
inductive Scoped (enclosing : List Namespace) (imports : List Draft) (n : TypeName) :
    TypeName → Prop
  /-- the innermost namespace that declares it -/
  | enclosed {inner outer : List Namespace} {ns : Namespace} : enclosing = inner ++ ns :: outer →
      (∀ x ∈ inner, ¬ x.scope.Declares n.text) → ns.scope.Declares n.text →
      Scoped enclosing imports n ⟨join (qualifiedNameOf (ns :: outer)) n.text, true⟩
  /-- the first import that offers it -/
  | imported {before after : List Draft} {x : Draft} {q : String} :
      (∀ ns ∈ enclosing, ¬ ns.scope.Declares n.text) → imports = before ++ x :: after →
      (∀ y ∈ before, ∀ q, ¬ y.Offers n.text q) → x.Offers n.text q →
      Scoped enclosing imports n ⟨q, true⟩
  /-- nothing: the name stays as it is -/
  | unbound : (∀ ns ∈ enclosing, ¬ ns.scope.Declares n.text) →
    (∀ x ∈ imports, ∀ q, ¬ x.Offers n.text q) → Scoped enclosing imports n n

/-- `e` is `d` with all its namespaces named, and with the names inside them changed. -/
structure Renamed (d : Draft) (rename : List Namespace → TypeName → TypeName) (e : Draft) :
    Prop where
  rest : e = { d with arena := e.arena }
  length : e.arena.length = d.arena.length
  /-- the links lead from every namespace to the file-level one -/
  nested : ∀ i < d.arena.length, ∃ enclosing root, Nested d.arena (some i) (enclosing ++ [root]) ∧
    root.name = d.stem
  arena : ∀ {i : Nat} {ns : Namespace} {outer : List Namespace},
      Nested d.arena (some i) (ns :: outer) → e.arena[i]? = some { ns with
      qualified := qualifiedNameOf (ns :: outer)
      scope := ns.scope.mapNames (rename (ns :: outer)) }

/-! ## Lookups in scopes -/

theorem Region.find?_eq_some :
    r.find? name = some q ↔ name ∈ r.names ∧ q = join r.qualified name := by
  rw [Region.find?]
  split
  · next h => simp [contains_iff_mem.1 h, eq_comm]
  · next h =>
    have hnot : name ∉ r.names := fun hmem => h (contains_iff_mem.2 hmem)
    simp [hnot]

theorem Region.find?_eq_none : r.find? name = none ↔ name ∉ r.names := by
  rw [Region.find?]
  split
  · next h => simp [contains_iff_mem.1 h]
  · next h => simpa using h

theorem findSome?_regionsOf_eq_none :
    ((regionsOf enclosing).findSome? fun r => r.find? name) = none ↔
      ∀ ns ∈ enclosing, ¬ ns.scope.Declares name := by
  induction enclosing with
  | nil => simp [regionsOf]
  | cons ns outer ih =>
    rw [regionsOf, findSome?_cons, forall_mem_cons, ← ih, ← mem_declared]
    cases hfind : Region.find? ⟨qualifiedNameOf (ns :: outer), ns.scope.declared⟩ name with
    | none => simp [Region.find?_eq_none.1 hfind]
    | some q => simp [(Region.find?_eq_some.1 hfind).1]

theorem findSome?_regionsOf_eq_some :
    ((regionsOf enclosing).findSome? fun r => r.find? name) = some q ↔ ∃ inner ns outer,
      enclosing = inner ++ ns :: outer ∧ (∀ x ∈ inner, ¬ x.scope.Declares name) ∧
        ns.scope.Declares name ∧
      q = join (qualifiedNameOf (ns :: outer)) name := by
  induction enclosing with
  | nil => simp [regionsOf]
  | cons ns outer ih =>
    rw [regionsOf, findSome?_cons]
    cases hfind : Region.find? ⟨qualifiedNameOf (ns :: outer), ns.scope.declared⟩ name with
    | some p =>
      obtain ⟨hmem, rfl⟩ := Region.find?_eq_some.1 hfind
      have hns : ns.scope.Declares name := mem_declared.1 hmem
      constructor
      · rintro ⟨⟩
        exact ⟨[], ns, outer, rfl, by simp, hns, rfl⟩
      · rintro ⟨inner, x, outer', heq, hinner, -, rfl⟩
        cases inner with
        | nil =>
          cases heq
          rfl
        | cons y inner =>
          cases heq
          exact absurd hns (hinner ns mem_cons_self)
    | none =>
      have hns : ¬ ns.scope.Declares name :=
        fun h => Region.find?_eq_none.1 hfind (mem_declared.2 h)
      refine Iff.trans ih ⟨?_, ?_⟩
      · rintro ⟨inner, x, outer', rfl, hinner, hx⟩
        exact ⟨ns :: inner, x, outer', rfl, forall_mem_cons.2 ⟨hns, hinner⟩, hx⟩
      · rintro ⟨inner, x, outer', heq, hinner, hx, hq⟩
        cases inner with
        | nil =>
          cases heq
          exact absurd hx hns
        | cons y inner =>
          cases heq
          exact ⟨inner, x, outer', rfl, fun z hz => hinner z (mem_cons_of_mem _ hz), hx, hq⟩

theorem rootIndex?_eq_some (h : x.rootIndex? = some i) :
    x.top.children = [i] ∧ ∃ ns, x.arena[i]? = some ns ∧ ns.name = x.stem := by
  unfold rootIndex? at h
  split at h
  · next j hj =>
    split at h
    · next ns hns =>
      split at h
      · next hname =>
        cases h
        exact ⟨hj, ns, hns, hname⟩
      · cases h
    · cases h
  · cases h

theorem root_of_rootIndex? (h : x.rootIndex? = some i) :
    ∃ ns, x.arena[i]? = some ns ∧ x.symbols.root = ⟨some x.stem, ns.scope.declared⟩ := by
  obtain ⟨hchildren, ns, hns, hname⟩ := rootIndex?_eq_some h
  -- the first namespace that the walk meets is the only outermost one
  have hfind : (x.walk.map (·.site)).find? (fun s => s.index = i) = some ⟨i, ns, x.stem⟩ := by
    obtain ⟨n, hn⟩ : ∃ n, x.arena.length = n + 1 :=
      Nat.exists_eq_add_one.2 (Nat.zero_lt_of_lt (List.getElem?_eq_some_iff.1 hns).1)
    rw [walk, hchildren, hn, visitsFrom, flatMap_cons, hns]
    simp only [cons_append, map_cons]
    rw [find?_cons_of_pos (by simp)]
    simp [join, hname]
  refine ⟨ns, hns, ?_⟩
  simp only [symbols, h, Option.bind_some, hfind]
  rfl

theorem root_of_rootIndex?_none (h : x.rootIndex? = none) :
    x.symbols.root = ⟨none, x.top.declared⟩ := by
  simp only [symbols, h]
  rfl

theorem find?_root_eq_some : x.symbols.root.find? name = some q ↔ x.Offers name q := by
  cases h : x.rootIndex? with
  | none =>
    rw [root_of_rootIndex?_none h, Region.find?_eq_some, mem_declared]
    constructor
    · rintro ⟨hname, rfl⟩
      exact .outside h hname
    · intro hoffers
      cases hoffers with
      | inside hroot => cases h.symm.trans hroot
      | outside _ hname => exact ⟨hname, rfl⟩
  | some i =>
    obtain ⟨ns, hns, hroot⟩ := root_of_rootIndex? h
    rw [hroot, Region.find?_eq_some, mem_declared]
    constructor
    · rintro ⟨hname, rfl⟩
      exact .inside h hns hname
    · intro hoffers
      cases hoffers with
      | inside hindex hns' hname =>
        cases h.symm.trans hindex
        cases hns.symm.trans hns'
        exact ⟨hname, rfl⟩
      | outside hnone => cases h.symm.trans hnone

theorem find?_root_eq_none : x.symbols.root.find? name = none ↔ ∀ q, ¬ x.Offers name q := by
  rw [Option.eq_none_iff_forall_ne_some]
  exact forall_congr' fun q => not_congr find?_root_eq_some

theorem plain_surroundings (d : Draft) (imports : List (String × Draft)) :
    (d.surroundings imports).plain = (d.unaliased imports).map symbols := by
  rw [surroundings, unaliased, map_map]
  rfl

/-- **What resolution makes of a name is what its scope says.** -/
theorem resolve_eq_iff_scoped {n : TypeName} (hn : n.resolved = false)
    (hplain : isQualified n.text = false) {r : TypeName} :
    (d.surroundings imports).resolve (regionsOf enclosing) n = r ↔
      Scoped enclosing (d.unaliased imports) n r := by
  have hresolve : ∀ s : Surroundings, s.resolve (regionsOf enclosing) n =
      ((s.lookupPlain (regionsOf enclosing) n.text).map fun q => ⟨q, true⟩).getD n := by
    intro s
    rw [Surroundings.resolve, hn, Surroundings.lookup, hplain]
    cases s.lookupPlain (regionsOf enclosing) n.text <;> rfl
  have himports : ∀ q, ((d.surroundings imports).plain.findSome? fun i => i.root.find? n.text) =
    some q ↔
      ∃ before x after, d.unaliased imports = before ++ x :: after ∧ x.Offers n.text q ∧
        ∀ y ∈ before, ∀ q, ¬ y.Offers n.text q := by
    intro q
    rw [plain_surroundings, findSome?_map, findSome?_eq_some_iff]
    simp only [Function.comp_def, find?_root_eq_some, find?_root_eq_none]
  have hnone : ((d.surroundings imports).plain.findSome? fun i => i.root.find? n.text) = none ↔
      ∀ x ∈ d.unaliased imports, ∀ q, ¬ x.Offers n.text q := by
    rw [plain_surroundings, findSome?_map, findSome?_eq_none_iff]
    simp only [Function.comp_def, find?_root_eq_none]
  rw [hresolve, Surroundings.lookupPlain]
  cases henclosing : (regionsOf enclosing).findSome? fun r => r.find? n.text with
  | some q =>
    constructor
    · rintro rfl
      obtain ⟨inner, ns, outer, heq, hinner, hns, rfl⟩ := findSome?_regionsOf_eq_some.1 henclosing
      exact .enclosed heq hinner hns
    · intro h
      have hsome : ¬ ∀ ns ∈ enclosing, ¬ ns.scope.Declares n.text := by
        rw [← findSome?_regionsOf_eq_none, henclosing]
        exact Option.some_ne_none q
      cases h with
      | enclosed heq hinner hns =>
        rw [findSome?_regionsOf_eq_some.2 ⟨_, _, _, heq, hinner, hns, rfl⟩] at henclosing
        cases henclosing
        rfl
      | imported hout => exact absurd hout hsome
      | unbound hout => exact absurd hout hsome
  | none =>
    have hout := findSome?_regionsOf_eq_none.1 henclosing
    have henclosed : ∀ {inner ns outer}, enclosing = inner ++ ns :: outer →
        ¬ ns.scope.Declares n.text :=
      fun heq => hout _ (heq ▸ mem_append_right _ mem_cons_self)
    cases hplain' : (d.surroundings imports).plain.findSome? fun i => i.root.find? n.text with
    | some q =>
      obtain ⟨before, x, after, heq, hx, hbefore⟩ := (himports q).1 hplain'
      constructor
      · rintro rfl
        exact .imported hout heq hbefore hx
      · intro h
        cases h with
        | enclosed heq _ hns => exact absurd hns (henclosed heq)
        | imported _ heq hbefore hx =>
          rw [(himports _).2 ⟨_, _, _, heq, hx, hbefore⟩] at hplain'
          cases hplain'
          rfl
        | unbound _ hall => exact absurd hx (hall x (heq ▸ mem_append_right _ mem_cons_self) q)
    | none =>
      have hall := hnone.1 hplain'
      constructor
      · rintro rfl
        exact .unbound hout hall
      · intro h
        cases h with
        | enclosed heq _ hns => exact absurd hns (henclosed heq)
        | imported _ heq _ hx => exact absurd hx (hall _ (heq ▸ mem_append_right _ mem_cons_self) _)
        | unbound => rfl

/-! ## Resolution of a draft -/

theorem exists_enclosing_of_isWrapped (h : d.isWrapped = true) (hv : v ∈ d.walk) :
    ∃ inner root, v.enclosing = inner ++ [root] ∧ root.ns.name = d.stem := by
  obtain ⟨i, hi⟩ := Option.isSome_iff_exists.1 (Bool.and_eq_true_iff.1 h).2
  obtain ⟨hchildren, root, hroot, hname⟩ := rootIndex?_eq_some hi
  rw [walk, hchildren] at hv
  cases hn : d.arena.length with
  | zero =>
    rw [hn] at hv
    cases hv
  | succ n =>
    rw [hn] at hv
    obtain ⟨j, hj, ns, hns, hmeets⟩ := mem_visitsFrom_succ.1 hv
    rw [mem_singleton.1 hj] at hns hmeets
    cases hroot.symm.trans hns
    rcases hmeets with rfl | hinside
    · exact ⟨[], siteIn [] i root, rfl, hname⟩
    · obtain ⟨inner, heq⟩ := suffix_around_of_mem_visitsFrom hinside
      exact ⟨v.site :: inner, siteIn [] i root, congrArg (v.site :: ·) heq.symm, hname⟩

theorem renamed_resolve {e : Draft} (hthreaded : d.Threaded) (hcovered : d.Covered)
    (h : d.resolve imports = .ok e) :
    d.Renamed (fun enclosing => (d.surroundings imports).resolve (regionsOf enclosing)) e := by
  obtain ⟨hwrapped, he⟩ := resolve_eq h
  refine ⟨by rw [he], length_eq_of_outline_eq (outline_resolve h), fun i hi => ?_,
    fun {i ns outer} hnested => ?_⟩
  · obtain ⟨v, hv, rfl, -⟩ := hcovered.exists_visit (getElem?_eq_getElem hi)
    obtain ⟨inner, root, heq, hname⟩ := exists_enclosing_of_isWrapped hwrapped hv
    have hnested := hthreaded.nested hv
    rw [heq, map_append] at hnested
    exact ⟨_, _, hnested, hname⟩
  · have hns : d.arena[i]? = some ns := by
      cases hnested with
      | cons hns _ => exact hns
    obtain ⟨v, hv, rfl, rfl⟩ := hcovered.exists_visit hns
    -- the links lead through what the walk has around it
    have houter : v.enclosing.map (·.ns) = v.site.ns :: outer :=
      (hthreaded.nested hv).unique hnested
    have hnamed := wellNamed_of_mem_walk hv
    rw [getElem?_resolve hcovered h hv, Visit.resolved, hnamed.regionsOf, ← houter]
    exact congrArg some
      (congrArg₂ (fun q s => { v.site.ns with qualified := q, scope := s }) hnamed.1 rfl)

/-- **Names without colons are scoped lexically.**  Resolution of a wrapped draft succeeds.
    In every namespace it leaves a name alone that is resolved already.  Any other name
    without colons becomes the qualified name of the declaration in the innermost namespace
    around it that declares the name; if there is none, of what the first import without a
    local name offers that offers something; if there is none either, it stays as it is.
    No other namespace or import has a say. -/
theorem resolve_scoped {d : Draft} (hthreaded : d.Threaded) (hcovered : d.Covered)
    (hwrapped : d.isWrapped = true) (imports : List (String × Draft)) :
    ∃ e rename, d.resolve imports = .ok e ∧ d.Renamed rename e ∧
      ∀ enclosing n, (n.resolved = true → rename enclosing n = n) ∧
        (n.resolved = false → QualifiedName.isQualified n.text = false →
          ∀ r, rename enclosing n = r ↔ Scoped enclosing (d.unaliased imports) n r) := by
  obtain ⟨e, he⟩ : ∃ e, d.resolve imports = .ok e := ⟨_, if_pos hwrapped⟩
  refine ⟨e, _, he, renamed_resolve hthreaded hcovered he,
    fun enclosing n => ⟨fun hn => ?_, fun hn hplain r => ?_⟩⟩
  · rw [Surroundings.resolve, if_pos hn]
  · exact resolve_eq_iff_scoped hn hplain

theorem Arises.wrap (h : d.Arises) : d.wrap.Arises :=
  .run (p := .wrap) (.empty ".def") h mem_cons_self

theorem resolve_scoped_shadowed : ∃ raw x e rename enclosing,
    Draft.read "/r.def"
      "message A\x7b\x7d namespace N\x7bmessage A\x7b\x7d namespace O\x7b\x7d\x7d" = .ok raw ∧
    Draft.read "/x.def" "message A\x7b\x7d message B\x7b\x7d" = .ok x ∧
    raw.wrap.resolve [("x", x.wrap)] = .ok e ∧ raw.wrap.Renamed rename e ∧
    Nested raw.wrap.arena (some 1) enclosing ∧ rename enclosing ⟨"A", false⟩ = ⟨"r::N::A", true⟩ ∧
    rename enclosing ⟨"B", false⟩ = ⟨"x::B", true⟩ ∧ rename enclosing ⟨"C", false⟩ =
      ⟨"C", false⟩ := by
  have hraw : (Draft.read "/r.def"
      "message A\x7b\x7d namespace N\x7bmessage A\x7b\x7d namespace O\x7b\x7d\x7d").toOption.map
      (fun raw =>
        (raw.wrap.isWrapped && raw.wrap.imports.isEmpty, raw.wrap.arena.map fun ns =>
          (ns.name, ns.parent), raw.wrap.arena.map fun ns => ns.scope.declared)) =
      some (true, [("N", some 2), ("O", some 0), ("r", none)], [["A"], [], ["A"]]) := by
    decide +kernel
  have hx : (Draft.read "/x.def" "message A\x7b\x7d message B\x7b\x7d").toOption.map
      (fun x => (x.wrap.rootIndex?, x.wrap.stem, x.wrap.arena.map fun ns => ns.scope.declared)) =
      some (some 0, "x", [["A", "B"]]) := by
    decide +kernel
  obtain ⟨raw, hread, hraw⟩ := exists_of_map_toOption hraw
  obtain ⟨x, hreadx, hx⟩ := exists_of_map_toOption hx
  simp only [Prod.mk.injEq, Bool.and_eq_true, List.isEmpty_iff] at hraw hx
  obtain ⟨⟨hwrapped, himports⟩, hnames, hdeclared⟩ := hraw
  obtain ⟨hroot, hstem, hdeclaredx⟩ := hx
  have harises : raw.wrap.Arises := Arises.wrap (.read hread)
  obtain ⟨e, rename, he, hrenamed, hrule⟩ :=
    resolve_scoped harises.threaded harises.orderly.covered hwrapped [("x", x.wrap)]
  obtain ⟨n, o, r, harena⟩ : ∃ n o r, raw.wrap.arena = [n, o, r] :=
    length_eq_three.1 (by simpa using congrArg List.length hnames)
  obtain ⟨root, harenax⟩ : ∃ root, x.wrap.arena = [root] :=
    length_eq_one_iff.1 (by simpa using congrArg List.length hdeclaredx)
  simp only [harena, harenax, map_cons, map_nil, List.cons.injEq, Prod.mk.injEq, and_true]
    at hnames hdeclared hdeclaredx
  obtain ⟨⟨hn, hnp⟩, ⟨ho, hop⟩, hr, hrp⟩ := hnames
  obtain ⟨hnd, hod, hrd⟩ := hdeclared
  have hunaliased : raw.wrap.unaliased [("x", x.wrap)] = [] ++ x.wrap :: [] := by
    simp [unaliased, himports]
  have hnested : Nested raw.wrap.arena (some 1) [o, n, r] := by
    have hroot : Nested raw.wrap.arena n.parent [r] :=
      hnp ▸ .cons (by rw [harena]; rfl) (hrp ▸ .nil)
    have hmiddle : Nested raw.wrap.arena o.parent [n, r] := hop ▸ .cons (by rw [harena]; rfl) hroot
    exact .cons (by rw [harena]; rfl) hmiddle
  have houter : ∀ name ∈ ["B", "C"], ∀ ns ∈ [o, n, r], ¬ ns.scope.Declares name := by
    simp only [← mem_declared, forall_mem_cons, hnd, hod, hrd]
    decide
  have hoffers : ∀ {name q : String}, x.wrap.Offers name q ↔
      name ∈ ["A", "B"] ∧ q = join (some "x") name := by
    intro name q
    obtain ⟨ns, hns, hregion⟩ := root_of_rootIndex? hroot
    rw [harenax] at hns
    cases hns
    rw [← find?_root_eq_some, hregion, Region.find?_eq_some, hdeclaredx, hstem]
  refine ⟨raw, x, e, rename, [o, n, r], hread, hreadx, he, hrenamed, hnested, ?_, ?_, ?_⟩
  · have hname : join (qualifiedNameOf [n, r]) "A" = "r::N::A" := by
      simp only [qualifiedNameOf, hn, hr]
      decide
    refine ((hrule _ _).2 rfl (by decide +kernel) _).2 ?_
    rw [← hname]
    refine .enclosed (show [o, n, r] = [o] ++ n :: [r] from rfl) ?_ ?_
    · simp only [← mem_declared, mem_singleton, forall_eq, hod]
      decide
    · rw [← mem_declared, hnd]
      exact mem_cons_self
  · refine ((hrule _ _).2 rfl (by decide +kernel) _).2 (.imported ?_ hunaliased ?_ ?_)
    · exact houter "B" (by decide)
    · simp
    · exact hoffers.2 (by decide)
  · refine ((hrule _ _).2 rfl (by decide +kernel) _).2 (.unbound (houter "C" (by decide)) ?_)
    rw [hunaliased]
    intro y hy q hq
    rw [mem_singleton.1 hy, hoffers] at hq
    exact absurd hq.1 (by decide)

end MessageSchema.Draft
